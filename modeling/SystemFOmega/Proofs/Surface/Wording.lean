import SystemFOmega.Proofs.Surface.Freshness
import SystemFOmega.Proofs.Surface.RoundTrip
import SystemFOmega.Proofs.Surface.Shadowing

/-!
# Texts of reduced expressions

A phrase can be read back from its text if its names are words, its numerals are not too long, and
its definitions tell the types and kinds of their values (`Phrase.Legible`). A replacement keeps
this (`Phrase.Puts.legible`), for the names that it makes have the display names of others, and so
does every step of a strategy but for one thing: a strategy that reduces the value of a `let` drops
the type of the value first (`Expr.Run.legible`).

What is read back from the text of a closed phrase is equal to it up to bound names exactly if every
reference has the name of the innermost binder with its display name (`Expr.readsBack_iff`).
-/

namespace SystemFOmega

open Skeleton (Scoping)
open Token (Spells)

/-! ## Legible phrases -/

/-- The words that names of a level are written with. -/
def Level.word : Level → TokenKind
  | .expr => .lowerName
  | .type | .kind => .upperName

/-- A numeral is a natural number, and not too long. -/
def Skeleton.Leaf.Legible : Skeleton.Leaf → Prop
  | .star | .int => True
  | .lit n => ∃ m : Nat, n = m ∧ (Nat.toDigits 10 m).length ≤ Numeral.maxDigits

namespace Phrase

/-- The value of a definition tells its kind or, if `lets` holds, its type. -/
def Annotates (lets : Prop) : Scoping → Phrase → Prop
  | .letIn, a => lets → ∃ v t, a = pair .ann v t
  | .typeIn, a => ∃ v k, a = pair .kinded v k
  | _, _ => True

/-- Names are words of their level, numerals are not too long, and definitions tell the kinds of
their values and, if `lets` holds, the types. -/
def Legible (lets : Prop) : Phrase → Prop
  | leaf c => c.Legible
  | ref l x => Spells l.word x.value
  | pair _ a b => a.Legible lets ∧ b.Legible lets
  | bind s x a b =>
    Spells s.level.word x.value ∧ a.Annotates lets s ∧ a.Legible lets ∧ b.Legible lets

variable {lets : Prop} {l : Level} {z : Name} {p q a a' : Phrase} {c c' : Int} {ms : List Name}
  {s : Scoping}

/-- Numbers play no part. -/
theorem legible_congr (h : q.unnumbered = p.unnumbered) : q.Legible lets ↔ p.Legible lets := by
  have hunnumbered (p : Phrase) : p.unnumbered.Legible lets ↔ p.Legible lets := by
    have hannotates (s : Scoping) (a : Phrase) :
        a.unnumbered.Annotates lets s ↔ a.Annotates lets s := by
      cases s <;> cases a <;> simp [Annotates, unnumbered]
    induction p with
    | leaf c | ref l x => rfl
    | pair o a b ha hb => exact and_congr ha hb
    | bind s x a b ha hb =>
      exact and_congr Iff.rfl (and_congr (hannotates s a) (and_congr ha hb))
  rw [← hunnumbered q, h, hunnumbered p]

namespace Puts

/-- A value that tells its type or kind still does so after a replacement. -/
theorem annotates (h : Puts l z p c a ms a' c') (ha : a.Annotates lets s) :
    a'.Annotates lets s := by
  cases s with
  | letIn =>
    intro hl
    obtain ⟨v, t, rfl⟩ := ha hl
    cases h with
    | pair => exact ⟨_, _, rfl⟩
  | typeIn =>
    obtain ⟨v, k, rfl⟩ := ha
    cases h with
    | pair => exact ⟨_, _, rfl⟩
  | _ => trivial

/-- A replacement by legible phrases in a legible one. -/
theorem legible (h : Puts l z p c a ms a' c') (ha : a.Legible lets) (hp : p.Legible lets) :
    a'.Legible lets := by
  induction h with
  | leaf | miss => exact ha
  | hit => exact hp
  | pair o _ _ iha ihb => exact ⟨iha ha.1 hp, ihb ha.2 hp⟩
  | hidden _ h iha => exact ⟨ha.1, h.annotates ha.2.1, iha ha.2.2.1 hp, ha.2.2.2⟩
  | kept _ _ _ h ihb iha =>
    exact ⟨ha.1, h.annotates ha.2.1, iha ha.2.2.1 hp, ihb ha.2.2.2 hp⟩
  | renamed _ _ hy _ _ h ih₁ ih₂ iha =>
    subst hy
    exact ⟨ha.1, h.annotates ha.2.1, iha ha.2.2.1 hp, ih₂ (ih₁ ha.2.2.2 ha.1) hp⟩

end Puts

end Phrase

/-! ## Kinds, types and expressions -/

section

variable {lets : Prop}

theorem KindExpr.Legible.phrase {k : KindExpr} (h : k.Legible) : k.phrase.Legible lets := by
  induction h with
  | star => trivial
  | var hx => exact hx.1
  | arrow _ _ hj hk => exact ⟨hj, hk⟩

theorem TypeExpr.Legible.phrase {t : TypeExpr} (h : t.Legible) : t.phrase.Legible lets := by
  induction h with
  | int => trivial
  | var hx => exact hx.1
  | arrow _ _ hs ht | app _ _ hs ht => exact ⟨hs, ht⟩
  | bind hx hk _ ht => exact ⟨hx.1, trivial, hk.phrase, ht⟩
  | kinded _ hk ht => exact ⟨ht, hk.phrase⟩

theorem Expr.Legible.phrase {e : Expr} (h : e.Legible) : e.phrase.Legible lets := by
  induction h with
  | lit hn => exact ⟨_, rfl, hn⟩
  | var hx => exact hx.1
  | lam hx ht _ he => exact ⟨hx.1, trivial, ht.phrase, he⟩
  | app _ _ hf ha => exact ⟨hf, ha⟩
  | tlam hx hk _ he => exact ⟨hx.1, trivial, hk.phrase, he⟩
  | tapp _ ht he | ann _ ht he => exact ⟨he, ht.phrase⟩
  | letIn hx ht _ _ hv he => exact ⟨hx.1, fun _ => ⟨_, _, rfl⟩, ⟨hv, ht.phrase⟩, he⟩
  | typeIn hx hk hv _ he => exact ⟨hx.1, ⟨_, _, rfl⟩, ⟨hv.phrase, hk.phrase⟩, he⟩
  | kindIn hx hv _ he => exact ⟨hx.1, trivial, hv.phrase, he⟩

theorem Ident.legible_unnumbered {k : TokenKind} {x : Ident} (h : Spells k x.value) :
    x.unnumbered.Legible k := ⟨h, rfl⟩

theorem KindExpr.legible_unnumbered {k : KindExpr} (h : k.phrase.Legible lets) :
    k.unnumbered.Legible := by
  induction k with
  | star => exact .star
  | var x => exact .var (Ident.legible_unnumbered h)
  | arrow j k hj hk => exact .arrow (hj h.1) (hk h.2)

theorem TypeExpr.legible_unnumbered {t : TypeExpr} (h : t.phrase.Legible lets) :
    t.unnumbered.Legible := by
  induction t with
  | int => exact .int
  | var x => exact .var (Ident.legible_unnumbered h)
  | arrow s t hs ht => exact .arrow (hs h.1) (ht h.2)
  | bind b x k t ih =>
    exact .bind (Ident.legible_unnumbered h.1) (KindExpr.legible_unnumbered h.2.2.1) (ih h.2.2.2)
  | app f a hf ha => exact .app (hf h.1) (ha h.2)
  | kinded t k ih => exact .kinded (ih h.1) (KindExpr.legible_unnumbered h.2)

/-- Every `let` of the expression tells the type of its value. -/
def Expr.annotatesLets : Expr → Bool
  | .lit _ _ | .var _ _ => true
  | .lam _ _ e _ | .tlam _ _ e _ | .tapp e _ _ | .ann e _ _ | .typeIn _ _ e _ | .kindIn _ _ e _ =>
    e.annotatesLets
  | .app f a _ => f.annotatesLets && a.annotatesLets
  | .letIn _ (.ann v _ _) e _ => v.annotatesLets && e.annotatesLets
  | .letIn _ _ _ _ => false

/-- A definition that is annotated has an annotation as its value. -/
theorem Expr.annotatesLets_letIn {x : Ident} {v e : Expr} {l : Option Location}
    (h : (letIn x v e l).annotatesLets) :
    (∃ v' t l', v = .ann v' t l') ∧ v.annotatesLets ∧ e.annotatesLets := by
  cases v with
  | ann v t l' =>
    rw [annotatesLets, Bool.and_eq_true] at h
    exact ⟨⟨v, t, l', rfl⟩, h⟩
  | _ => cases h

/-- An expression whose phrase is legible can be written down without its numbers. -/
theorem Expr.legible_unnumbered {e : Expr} (h : e.phrase.Legible lets)
    (hl : ¬ lets → e.annotatesLets) : e.unnumbered.Legible := by
  induction e with
  | lit n l =>
    obtain ⟨m, rfl, hm⟩ := h
    exact .lit hm
  | var x l => exact .var (Ident.legible_unnumbered h)
  | lam x t e l ih =>
    exact .lam (Ident.legible_unnumbered h.1) (TypeExpr.legible_unnumbered h.2.2.1)
      (ih h.2.2.2 hl)
  | app f a l hf ha =>
    simp only [annotatesLets, Bool.and_eq_true] at hl
    exact .app (hf h.1 fun hn => (hl hn).1) (ha h.2 fun hn => (hl hn).2)
  | tlam x k e l ih =>
    exact .tlam (Ident.legible_unnumbered h.1) (KindExpr.legible_unnumbered h.2.2.1)
      (ih h.2.2.2 hl)
  | tapp e t l ih => exact .tapp (ih h.1 hl) (TypeExpr.legible_unnumbered h.2)
  | ann e t l ih => exact .ann (ih h.1 hl) (TypeExpr.legible_unnumbered h.2)
  | letIn x v e l hv he =>
    have hann : ∃ v' t l', v = .ann v' t l' := by
      by_cases hlets : lets
      · obtain ⟨p, q, hpq⟩ := h.2.1 hlets
        cases v with
        | ann v t l' => exact ⟨v, t, l', rfl⟩
        | _ => simp [phrase] at hpq
      · exact (annotatesLets_letIn (hl hlets)).1
    have hvalue := hv h.2.2.1 fun hn => (annotatesLets_letIn (hl hn)).2.1
    have hbody := he h.2.2.2 fun hn => (annotatesLets_letIn (hl hn)).2.2
    obtain ⟨v, t, l', rfl⟩ := hann
    cases hvalue with
    | ann hv ht => exact .letIn (Ident.legible_unnumbered h.1) ht hv hbody
  | typeIn x v e l ih =>
    have hv := TypeExpr.legible_unnumbered h.2.2.1
    obtain ⟨p, q, hpq⟩ := h.2.1
    cases v with
    | kinded v k =>
      cases hv with
      | kinded hv hk => exact .typeIn (Ident.legible_unnumbered h.1) hk hv (ih h.2.2.2 hl)
    | _ => simp [TypeExpr.phrase] at hpq
  | kindIn x v e l ih =>
    exact .kindIn (Ident.legible_unnumbered h.1) (KindExpr.legible_unnumbered h.2.2.1)
      (ih h.2.2.2 hl)

end

/-! ## Reduction -/

namespace Expr

section

variable {lets : Prop} {s : Strategy} {e e' body : Expr} {c c' : Int} {σ : Replacement}

/-- The contraction of a legible redex is legible. -/
theorem Redex.legible (h : Redex e σ body) (he : e.phrase.Legible lets) (c : Int) :
    (body.replace σ c).1.phrase.Legible lets := by
  have hparts : body.phrase.Legible lets ∧ σ.phrase.Legible lets := by
    cases h with
    | beta | typeBeta => exact ⟨he.1.2.2.2, he.2⟩
    | letIn | typeIn | kindIn => exact ⟨he.2.2.2, he.2.2.1⟩
  obtain ⟨ms, hms⟩ := body.subst_does (σ := σ) (c := c)
  exact hms.legible hparts.1 hparts.2

/-- A step keeps an expression legible. The type of the value of a `let` may only be dropped by a
strategy that reduces the value. -/
theorem Reduces.legible (h : Reduces s c e e' c') (he : e.phrase.Legible (s.eager = false)) :
    e'.phrase.Legible (s.eager = false) := by
  induction h with
  | root h =>
    cases h with
    | erase => exact he.1
    | replace h => exact h.legible he c
  | @within F hF _ _ _ _ ih =>
    cases F with
    | lam | tlam => exact ⟨he.1, trivial, he.2.2.1, ih he.2.2.2⟩
    | fn | tfn => exact ⟨ih he.1, he.2⟩
    | arg => exact ⟨he.1, ih he.2⟩
    | value =>
      have hno (hf : s.eager = false) : False := Bool.noConfusion (hF.symm.trans hf)
      exact ⟨he.1, fun hf => (hno hf).elim, ih he.2.2.1, he.2.2.2⟩
    | ann | body | typeBody | kindBody => cases hF

/-- All steps of a run keep an expression legible. -/
theorem Run.legible (h : Run s (e, c) (e', c')) (he : e.phrase.Legible (s.eager = false)) :
    e'.phrase.Legible (s.eager = false) := by
  generalize hp : (e, c) = p, hq : (e', c') = q at h
  induction h generalizing e' c' with
  | refl =>
    cases hp.trans hq.symm
    exact he
  | @tail p' q' _ hstep ih =>
    cases hq
    exact (reduces_of_step? hstep).legible (@ih p'.1 p'.2 rfl)

end

end Expr

/-! ## Texts -/

theorem KindExpr.print_unnumbered (k : KindExpr) : k.unnumbered.print = k.print := by
  induction k with
  | star | var => rfl
  | arrow j k hj hk =>
    have hj' : j.unnumbered.isArrow = j.isArrow := by cases j <;> rfl
    simp only [unnumbered, print, hj, hk, hj']

/-- The numbers of names are not printed. -/
theorem TypeExpr.print_unnumbered (t : TypeExpr) : t.unnumbered.print = t.print := by
  have hopen (t : TypeExpr) : t.unnumbered.isOpen = t.isOpen := by cases t <;> rfl
  have hhead (t : TypeExpr) : t.unnumbered.isHead = t.isHead := by cases t <;> rfl
  have hword (t : TypeExpr) : t.unnumbered.isWord = t.isWord := by cases t <;> rfl
  induction t with
  | int | var => rfl
  | arrow s t hs ht => simp only [unnumbered, print, hs, ht, hopen]
  | bind b x k t ih =>
    simp only [unnumbered, print, ih, k.print_unnumbered]
    rfl
  | app f a hf ha => simp only [unnumbered, print, hf, ha, hhead, hword]
  | kinded t k ih => simp only [unnumbered, print, ih, k.print_unnumbered]

/-- The numbers of names are not printed. -/
theorem Expr.print_unnumbered (e : Expr) : e.unnumbered.print = e.print := by
  have hhead (e : Expr) : e.unnumbered.isHead = e.isHead := by cases e <;> rfl
  have hatom (e : Expr) : e.unnumbered.isAtom = e.isAtom := by cases e <;> rfl
  fun_induction print e with
  | case1 | case2 => rfl
  | case3 x t e l ih =>
    simp only [unnumbered, print, ih, t.print_unnumbered]
    rfl
  | case4 f a l hf ha => simp only [unnumbered, print, hf, ha, hhead, hatom]
  | case5 x k e l ih =>
    simp only [unnumbered, print, ih, k.print_unnumbered]
    rfl
  | case6 f t l ih => simp only [unnumbered, print, ih, hhead, t.print_unnumbered]
  | case7 e t l ih => simp only [unnumbered, print, ih, t.print_unnumbered]
  | case8 x v t m e l hv he =>
    simp only [unnumbered, print, hv, he, t.print_unnumbered]
    rfl
  | case9 x v e l hne hv he =>
    have hne' : ∀ v' t m, v.unnumbered = .ann v' t m → False := by
      cases v <;> simp_all [unnumbered]
    rw [unnumbered, print, hv, he]
    · rfl
    · exact hne'
  | case10 x v k e l ih =>
    simp only [unnumbered, TypeExpr.unnumbered, print, ih, v.print_unnumbered, k.print_unnumbered]
    rfl
  | case11 x v e l hne ih =>
    have hne' : ∀ v' k, v.unnumbered = .kinded v' k → False := by
      cases v <;> simp_all [TypeExpr.unnumbered]
    rw [unnumbered, print, ih, v.print_unnumbered]
    · rfl
    · exact hne'
  | case12 x k e l ih =>
    simp only [unnumbered, print, ih, k.print_unnumbered]
    rfl

/-- What is read back from the text of a closed expression is renamed to an expression that is equal
to it up to bound names exactly if all of its references resolve. -/
theorem Expr.readsBack_iff {r : Expr} (h : r.unnumbered.Legible) (hr : r.Closed)
    (file : Option String) :
    Parser.ReadsBack (Expr.parse r.print file ·) fun e => ∃ r' c, e.rename {} 1 = .ok r' c ∧
      (r'.AlphaEq r ↔ ∀ v ∈ r.visits [], v.Bound) := by
  rw [← r.print_unnumbered]
  refine (Parser.program_faithful.readsBack h.printed.expr file).mono fun e he => ?_
  refine exists_rename_unnumbered ?_ hr 1
  have hphrase := congrArg Expr.phrase he
  rwa [Expr.phrase_unlocated, Expr.phrase_unlocated, Expr.phrase_unnumbered] at hphrase

end SystemFOmega
