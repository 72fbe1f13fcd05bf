import SystemFOmega.Proofs.Skeleton.Basic
import SystemFOmega.Proofs.Surface.Expand

/-!
# Phrases of all levels in one form

What substitution and reduction do to kinds, types and expressions depends only on how a phrase is
put together and on which names it binds. As a `Phrase`, kinds, types and expressions have the same
four forms, with their names, free names and sizes (`Expr.names_phrase`, `Expr.free_phrase`,
`Expr.size_phrase`). The skeleton of a phrase forgets the bound names. Two trees are equal up to the
choice of bound names (`Tree.AlphaEq`) if they have the same skeleton.
-/

namespace SystemFOmega

open Skeleton (Pairing Scoping)

/-- A kind, type or expression without places. -/
inductive Phrase where
  | leaf (c : Skeleton.Leaf)
  | ref (l : Level) (x : Name)
  | pair (o : Pairing) (a b : Phrase)
  | bind (s : Scoping) (x : Name) (a b : Phrase)

namespace Phrase

/-- The names in a phrase. -/
def names : Phrase → List Name
  | leaf _ => []
  | ref _ x => [x]
  | pair _ a b => a.names ++ b.names
  | bind _ x a b => x :: (a.names ++ b.names)

/-- The names at the level `l` that a phrase refers to and does not bind. -/
def free (l : Level) : Phrase → List Name
  | leaf _ => []
  | ref m x => if l = m then [x] else []
  | pair _ a b => a.free l ++ b.free l
  | bind s x a b => a.free l ++ unbound l s.level ⟨x, none⟩ (b.free l)

/-- The number of constructors of a phrase. -/
def size : Phrase → Nat
  | leaf _ | ref _ _ => 1
  | pair _ a b | bind _ _ a b => a.size + b.size + 1

/-- The phrase without the names of its binders. -/
def skeleton : Phrase → Skeleton
  | leaf c => .leaf c
  | ref l x => .ref (.free l x)
  | pair o a b => .pair o a.skeleton b.skeleton
  | bind s x a b => .bind s a.skeleton (b.skeleton.close s.level x)

/-- A phrase refers to a name and does not bind it just if the name is left when the names of
binders are gone. -/
theorem mem_free {l : Level} {y : Name} {p : Phrase} :
    y ∈ p.free l ↔ p.skeleton.Uses (.free l y) := by
  induction p with
  | leaf c => simp [free, skeleton, Skeleton.Uses]
  | ref m x => by_cases hl : l = m <;> simp [free, skeleton, Skeleton.Uses, hl]
  | pair o a b ha hb => simp [free, skeleton, Skeleton.Uses, ha, hb]
  | bind s x a b ha hb =>
    have hclose := Skeleton.uses_close_free (l := s.level) (m := l) (x := x) (y := y)
      (t := b.skeleton)
    rw [free, List.mem_append, mem_unbound, ha, hb, ← hclose]
    rfl

theorem free_subset (l : Level) (p : Phrase) : p.free l ⊆ p.names := by
  intro y hy
  induction p with
  | leaf c => cases hy
  | ref m x =>
    rw [free] at hy
    split at hy
    · exact hy
    · cases hy
  | pair o a b ha hb => exact List.mem_append.2 ((List.mem_append.1 hy).imp ha hb)
  | bind s x a b ha hb =>
    refine .tail _ (List.mem_append.2 ((List.mem_append.1 hy).imp ha fun h => ?_))
    exact hb (mem_unbound.1 h).1

end Phrase

/-! ## Kinds, types and expressions -/

/-- A kind as a phrase. -/
def KindExpr.phrase : KindExpr → Phrase
  | .star => .leaf .star
  | .var x => .ref .kind x.name
  | .arrow j k => .pair .kindArrow j.phrase k.phrase

/-- A type as a phrase. -/
def TypeExpr.phrase : TypeExpr → Phrase
  | .int => .leaf .int
  | .var x => .ref .type x.name
  | .arrow s t => .pair .typeArrow s.phrase t.phrase
  | .bind b x k t => .bind (.quantify b) x.name k.phrase t.phrase
  | .app f a => .pair .typeApp f.phrase a.phrase
  | .kinded t k => .pair .kinded t.phrase k.phrase

/-- An expression as a phrase, which has no places. -/
def Expr.phrase : Expr → Phrase
  | .lit n _ => .leaf (.lit n)
  | .var x _ => .ref .expr x.name
  | .lam x t e _ => .bind .lam x.name t.phrase e.phrase
  | .app f a _ => .pair .app f.phrase a.phrase
  | .tlam x k e _ => .bind .tlam x.name k.phrase e.phrase
  | .tapp f t _ => .pair .tapp f.phrase t.phrase
  | .ann e t _ => .pair .ann e.phrase t.phrase
  | .letIn x v e _ => .bind .letIn x.name v.phrase e.phrase
  | .typeIn x v e _ => .bind .typeIn x.name v.phrase e.phrase
  | .kindIn x v e _ => .bind .kindIn x.name v.phrase e.phrase

/-- A phrase of any level. -/
def Tree.phrase : Tree → Phrase
  | .kind k => k.phrase
  | .type t => t.phrase
  | .expr e => e.phrase

theorem KindExpr.names_phrase (k : KindExpr) : k.phrase.names = k.names := by
  induction k with
  | star | var => rfl
  | arrow j k hj hk => simp only [phrase, Phrase.names, names, hj, hk]

theorem TypeExpr.names_phrase (t : TypeExpr) : t.phrase.names = t.names := by
  induction t with
  | int | var => rfl
  | arrow s t hs ht | app s t hs ht => simp only [phrase, Phrase.names, names, hs, ht]
  | bind b x k t ih | kinded t k ih =>
    simp only [phrase, Phrase.names, names, ih, k.names_phrase]

/-- The detour through phrases changes nothing about the names of an expression. -/
theorem Expr.names_phrase (e : Expr) : e.phrase.names = e.names := by
  induction e with
  | lit | var => rfl
  | app f a _ hf ha | letIn x f a _ hf ha => simp only [phrase, Phrase.names, names, hf, ha]
  | lam x t e _ ih | typeIn x t e _ ih | tapp e t _ ih | ann e t _ ih =>
    simp only [phrase, Phrase.names, names, ih, t.names_phrase]
  | tlam x k e _ ih | kindIn x k e _ ih =>
    simp only [phrase, Phrase.names, names, ih, k.names_phrase]

theorem Tree.names_phrase (t : Tree) : t.phrase.names = t.names := by
  cases t with
  | kind k => exact k.names_phrase
  | type t => exact t.names_phrase
  | expr e => exact e.names_phrase

theorem KindExpr.size_phrase (k : KindExpr) : k.phrase.size = k.size := by
  induction k with
  | star | var => rfl
  | arrow j k hj hk => simp only [phrase, Phrase.size, size, hj, hk]

theorem TypeExpr.size_phrase (t : TypeExpr) : t.phrase.size = t.size := by
  induction t with
  | int | var => rfl
  | arrow s t hs ht | app s t hs ht => simp only [phrase, Phrase.size, size, hs, ht]
  | bind b x k t ih | kinded t k ih => simp only [phrase, Phrase.size, size, ih, k.size_phrase]

/-- The detour through phrases changes nothing about sizes. -/
theorem Expr.size_phrase (e : Expr) : e.phrase.size = e.size := by
  induction e with
  | lit | var => rfl
  | app f a _ hf ha | letIn x f a _ hf ha => simp only [phrase, Phrase.size, size, hf, ha]
  | lam x t e _ ih | typeIn x t e _ ih | tapp e t _ ih | ann e t _ ih =>
    simp only [phrase, Phrase.size, size, ih, t.size_phrase]
  | tlam x k e _ ih | kindIn x k e _ ih => simp only [phrase, Phrase.size, size, ih, k.size_phrase]

section

variable (l : Level)

theorem KindExpr.free_phrase (k : KindExpr) : k.phrase.free l = k.free l := by
  induction k with
  | star | var => rfl
  | arrow j k hj hk => simp only [phrase, Phrase.free, free, hj, hk]

theorem TypeExpr.free_phrase (t : TypeExpr) : t.phrase.free l = t.free l := by
  induction t with
  | int | var => rfl
  | arrow s t hs ht | app s t hs ht => simp only [phrase, Phrase.free, free, hs, ht]
  | bind b x k t ih =>
    simp only [phrase, Phrase.free, free, ih, k.free_phrase]
    rfl
  | kinded t k ih => simp only [phrase, Phrase.free, free, ih, k.free_phrase]

/-- The detour through phrases changes nothing about the names that an expression refers to. -/
theorem Expr.free_phrase (e : Expr) : e.phrase.free l = e.free l := by
  induction e with
  | lit | var => rfl
  | app f a _ hf ha => simp only [phrase, Phrase.free, free, hf, ha]
  | letIn x v e _ hv he =>
    simp only [phrase, Phrase.free, free, hv, he]
    rfl
  | tapp e t _ ih | ann e t _ ih => simp only [phrase, Phrase.free, free, ih, t.free_phrase]
  | lam x t e _ ih | typeIn x t e _ ih =>
    simp only [phrase, Phrase.free, free, ih, t.free_phrase]
    rfl
  | tlam x k e _ ih | kindIn x k e _ ih =>
    simp only [phrase, Phrase.free, free, ih, k.free_phrase]
    rfl

theorem Tree.free_phrase (t : Tree) : t.phrase.free l = t.free l := by
  cases t with
  | kind k => exact k.free_phrase l
  | type t => exact t.free_phrase l
  | expr e => exact e.free_phrase l

end

/-! ## Equality up to bound names -/

/-- The tree without the names of its binders and without places. -/
def Tree.skeleton (t : Tree) : Skeleton := t.phrase.skeleton

/-- Equality up to the choice of bound names, which disregards places. -/
def Tree.AlphaEq (s t : Tree) : Prop := s.skeleton = t.skeleton

instance (s t : Tree) : Decidable (s.AlphaEq t) := inferInstanceAs (Decidable (_ = _))

/-- An expression without names. -/
def Expr.skeleton (e : Expr) : Skeleton := e.phrase.skeleton

/-- Equality of expressions up to the choice of bound names. -/
def Expr.AlphaEq (e e' : Expr) : Prop := e.skeleton = e'.skeleton

instance (e e' : Expr) : Decidable (e.AlphaEq e') := inferInstanceAs (Decidable (_ = _))

/-- The names that an expression refers to and does not bind are those of its skeleton. -/
theorem Expr.mem_free {e : Expr} {l : Level} {y : Name} :
    y ∈ e.free l ↔ e.skeleton.Uses (.free l y) := by
  rw [← free_phrase]
  exact Phrase.mem_free

end SystemFOmega
