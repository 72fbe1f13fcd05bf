import SystemFOmega.Proofs.Nameless.Typing
import SystemFOmega.Proofs.Surface.Closed
import SystemFOmega.Proofs.Surface.Step

/-!
# Safety of weak reduction

What a step of a strategy that does not reduce under binders can do is said once (`Expr.Weak`). Such
a step from a closed expression keeps every type of its expansion (`Expr.Weak.preserves`), and a
closed expression with a type that has no step is a value of the form that the type asks for
(`Expr.canonical_of_step?_eq_none`). So a run from a closed expression whose expansion has a type
never gets stuck (`Expr.Run.canonical`).
-/

namespace SystemFOmega

open Nameless (Kinded Conv)

/-! ## Keeping types -/

namespace Term

/-- Every type of `e` is one of `e'`. -/
def Preserves (e e' : Term) : Prop := ∀ K G t, HasType K G e t → HasType K G e' t

namespace Preserves

variable {e e' f f' a a' : Term}

theorem refl (e : Term) : Preserves e e := fun _ _ _ h => h

theorem lam (s : Nameless) (h : Preserves e e') : Preserves (lam s e) (lam s e') := by
  intro K G t ht
  obtain ⟨hs, u, hb, hu⟩ := ht.lam_inv
  exact .conv (.lam hs (h _ _ _ hb)) hu ht.kinded

theorem app (hf : Preserves f f') (ha : Preserves a a') : Preserves (app f a) (app f' a') := by
  intro K G t ht
  obtain ⟨s, u, h₁, h₂, hu⟩ := ht.app_inv
  exact .conv (.app (hf _ _ _ h₁) (ha _ _ _ h₂)) hu ht.kinded

theorem tlam (k : Kind) (h : Preserves e e') : Preserves (tlam k e) (tlam k e') := by
  intro K G t ht
  obtain ⟨u, hb, hu⟩ := ht.tlam_inv
  exact .conv (.tlam (h _ _ _ hb)) hu ht.kinded

theorem tapp (s : Nameless) (h : Preserves f f') : Preserves (tapp f s) (tapp f' s) := by
  intro K G t ht
  obtain ⟨k, u, hf, hs, hu⟩ := ht.tapp_inv
  exact .conv (.tapp (h _ _ _ hf) hs) hu ht.kinded

theorem ann (s : Nameless) (h : Preserves e e') : Preserves (ann e s) (ann e' s) := by
  intro K G t ht
  obtain ⟨hb, hu⟩ := ht.ann_inv
  exact .conv (.ann (h _ _ _ hb)) hu ht.kinded

/-! Contractions keep types. -/

/-- An annotation can be dropped. -/
theorem of_ann (e : Term) (s : Nameless) : Preserves (Term.ann e s) e := by
  intro K G t ht
  obtain ⟨hb, hu⟩ := ht.ann_inv
  exact .conv hb hu ht.kinded

/-- The argument is put into the body of a function. -/
theorem beta (s : Nameless) (e a : Term) : Preserves (Term.app (Term.lam s e) a) (e.inst a) := by
  intro K G t ht
  obtain ⟨s', u, hf, ha, hu⟩ := ht.app_inv
  obtain ⟨hs, v, hb, hv⟩ := hf.lam_inv
  obtain ⟨hs', hvu⟩ := hv.arrow_inj
  exact .conv (hb.inst (ha.conv hs'.symm hs)) (hvu.trans hu) ht.kinded

/-- The type is put into the body of a type abstraction. -/
theorem typeBeta (k : Kind) (e : Term) (s : Nameless) :
    Preserves (Term.tapp (Term.tlam k e) s) (e.instType s) := by
  intro K G t ht
  obtain ⟨k', u, hf, hs, hu⟩ := ht.tapp_inv
  obtain ⟨v, hb, hv⟩ := hf.tlam_inv
  obtain ⟨-, rfl, hvu⟩ := hv.bind_inj
  exact .conv (hb.instType hs) ((hvu.inst (.refl _)).trans hu) ht.kinded

end Preserves

end Term

/-- The kinds and types that `ρ` and `ρ'` give to names are the same, and every type of an
expression that `ρ` gives to a name, seen from anywhere, is one of what `ρ'` gives to it. -/
structure Env.Preserves (ρ ρ' : Env) : Prop where
  kinds : ρ.kinds = ρ'.kinds
  types : ρ.types = ρ'.types
  exprs (x : Name) (ξ ζ : Ref → Ref) :
    Term.Preserves ((ρ.exprs x).rename ξ ζ) ((ρ'.exprs x).rename ξ ζ)

namespace Env.Preserves

variable {ρ ρ' : Env}

theorem expand_kind (h : ρ.Preserves ρ') (k : KindExpr) : k.expand ρ = k.expand ρ' := by
  induction k with
  | star => rfl
  | var x => exact congrFun h.kinds x.name
  | arrow j k hj hk => simp only [KindExpr.expand, hj, hk]

theorem rename (h : ρ.Preserves ρ') (ξ ζ : Ref → Ref) :
    (ρ.subst (Nameless.var ∘ ξ) (Term.var ∘ ζ)).Preserves
      (ρ'.subst (Nameless.var ∘ ξ) (Term.var ∘ ζ)) where
  kinds := h.kinds
  types := by simp only [Env.subst, h.types]
  exprs x ξ' ζ' := by
    simp only [Env.subst, ← Term.rename_eq_subst, Term.rename_rename]
    exact h.exprs x _ _

theorem bindType (h : ρ.Preserves ρ') (x : Name) : (ρ.bindType x).Preserves (ρ'.bindType x) where
  kinds := h.kinds
  types := by simp only [Env.bindType, h.types]
  exprs y ξ ζ := by
    simp only [Env.bindType, Term.shiftType, Term.rename_rename]
    exact h.exprs y _ _

theorem bindExpr (h : ρ.Preserves ρ') (x : Name) : (ρ.bindExpr x).Preserves (ρ'.bindExpr x) where
  kinds := h.kinds
  types := h.types
  exprs y ξ ζ := by
    by_cases hy : y = x
    · simp only [Env.bindExpr, hy, Function.update_self]
      exact .refl _
    · simp only [Env.bindExpr, Function.update_of_ne hy, Term.shift, Term.rename_rename]
      exact h.exprs y _ _

theorem defineKind (h : ρ.Preserves ρ') (x : Name) (k : Kind) :
    (ρ.defineKind x k).Preserves (ρ'.defineKind x k) where
  kinds := by simp only [Env.defineKind, h.kinds]
  types := h.types
  exprs := h.exprs

theorem defineType (h : ρ.Preserves ρ') (x : Name) (t : Nameless) :
    (ρ.defineType x t).Preserves (ρ'.defineType x t) where
  kinds := h.kinds
  types := by simp only [Env.defineType, h.types]
  exprs := h.exprs

theorem defineExpr (h : ρ.Preserves ρ') (x : Name) {e e' : Term}
    (he : ∀ ξ ζ, Term.Preserves (e.rename ξ ζ) (e'.rename ξ ζ)) :
    (ρ.defineExpr x e).Preserves (ρ'.defineExpr x e') where
  kinds := h.kinds
  types := h.types
  exprs y ξ ζ := by
    by_cases hy : y = x
    · simpa [Env.defineExpr, hy] using he ξ ζ
    · simpa only [Env.defineExpr, Function.update_of_ne hy] using h.exprs y ξ ζ

/-- Environments that keep the types of their terms give types the same meanings. -/
theorem expand_type (h : ρ.Preserves ρ') (t : TypeExpr) : t.expand ρ = t.expand ρ' := by
  induction t generalizing ρ ρ' with
  | int => rfl
  | var x => exact congrFun h.types x.name
  | arrow s t hs ht | app s t hs ht => simp only [TypeExpr.expand, hs h, ht h]
  | bind b x k t ih => simp only [TypeExpr.expand, h.expand_kind k, ih (h.bindType x.name)]
  | kinded t k ih => simp only [TypeExpr.expand, ih h, h.expand_kind k]

/-- An expression keeps its types where the environment does. -/
theorem expand (h : ρ.Preserves ρ') (e : Expr) : Term.Preserves (e.expand ρ) (e.expand ρ') := by
  induction e generalizing ρ ρ' with
  | lit n _ => exact .refl _
  | var x _ => simpa only [Expr.expand, Term.rename_id] using h.exprs x.name id id
  | lam x t e _ ih =>
    simp only [Expr.expand, h.expand_type t]
    exact .lam _ (ih (h.bindExpr x.name))
  | app f a _ hf ha => exact .app (hf h) (ha h)
  | tlam x k e _ ih =>
    simp only [Expr.expand, h.expand_kind k]
    exact .tlam _ (ih (h.bindType x.name))
  | tapp f t _ ih =>
    simp only [Expr.expand, h.expand_type t]
    exact .tapp _ (ih h)
  | ann e t _ ih =>
    simp only [Expr.expand, h.expand_type t]
    exact .ann _ (ih h)
  | letIn x v e _ hv he =>
    refine he (h.defineExpr x.name fun ξ ζ => ?_)
    simp only [Term.rename_eq_subst, ← Expr.expand_subst]
    exact hv (h.rename ξ ζ)
  | typeIn x v e _ ih =>
    simp only [Expr.expand, h.expand_type v]
    exact ih (h.defineType x.name _)
  | kindIn x v e _ ih =>
    simp only [Expr.expand, h.expand_kind v]
    exact ih (h.defineKind x.name _)

end Env.Preserves

/-! ## Steps -/

namespace Expr

/-- What a step outside of abstractions can do to a closed expression. -/
inductive Weak : Expr → Expr → Prop
  | ann (e : Expr) (t : TypeExpr) (l : Option Location) : Weak (ann e t l) e
  | letValue (x : Ident) {v v' : Expr} (e : Expr) (l : Option Location) :
    Weak v v' → Weak (letIn x v e l) (letIn x v' e l)
  | letIn (x : Ident) (v e : Expr) (l : Option Location) :
    Weak (letIn x v e l) (e.put (.expr x.name v))
  | typeIn (x : Ident) (v : TypeExpr) (e : Expr) (l : Option Location) :
    Weak (typeIn x v e l) (e.put (.type x.name v))
  | kindIn (x : Ident) (v : KindExpr) (e : Expr) (l : Option Location) :
    Weak (kindIn x v e l) (e.put (.kind x.name v))
  | beta (x : Ident) (t : TypeExpr) (e a : Expr) (l l' : Option Location) :
    Weak (app (lam x t e l) a l') (e.put (.expr x.name a))
  | fn {f f' : Expr} (a : Expr) (l : Option Location) : Weak f f' → Weak (app f a l) (app f' a l)
  | arg (f : Expr) {a a' : Expr} (l : Option Location) : Weak a a' → Weak (app f a l) (app f a' l)
  | typeBeta (x : Ident) (k : KindExpr) (e : Expr) (t : TypeExpr) (l l' : Option Location) :
    Weak (tapp (tlam x k e l) t l') (e.put (.type x.name t))
  | typeFn {f f' : Expr} (t : TypeExpr) (l : Option Location) :
    Weak f f' → Weak (tapp f t l) (tapp f' t l)

/-- A closed phrase with two parts has no free names in either. -/
theorem parts_closed {f g : Level → List Name} (h : ∀ m, f m ++ g m = []) :
    (∀ m, f m = []) ∧ ∀ m, g m = [] :=
  ⟨fun m => (List.append_eq_nil_iff.1 (h m)).1, fun m => (List.append_eq_nil_iff.1 (h m)).2⟩

/-- Putting a closed phrase in leaves the counter alone. -/
theorem replace_closed {σ : Replacement} (hσ : ∀ l, σ.free l = []) (e : Expr) (c : Int) :
    e.replace σ c = (e.put σ, c) := by
  rw [replace, subst_closed hσ]
  rfl

/-- What takes the place of a closed redex has its types. -/
theorem Contractum.weak {e e' : Expr} {c c' : Int} (h : Contractum c e e' c') (hc : e.Closed) :
    Weak e e' := by
  cases h with
  | erase _ t l => exact .ann e' t l
  | @replace _ body _ h =>
    cases h with
    | beta x t _ a l m =>
      rw [replace_closed (σ := .expr x.name a) (parts_closed hc).2]
      exact .beta x t body a l m
    | typeBeta x k _ t l m =>
      rw [replace_closed (σ := .type x.name t) (parts_closed hc).2]
      exact .typeBeta x k body t l m
    | letIn x v _ l =>
      rw [replace_closed (σ := .expr x.name v) (parts_closed hc).1]
      exact .letIn x v body l
    | typeIn x v _ l =>
      rw [replace_closed (σ := .type x.name v) (parts_closed hc).1]
      exact .typeIn x v body l
    | kindIn x v _ l =>
      rw [replace_closed (σ := .kind x.name v) (parts_closed hc).1]
      exact .kindIn x v body l

/-- A step that is not made below a binder keeps the types of a closed expression. -/
theorem Reduces.weak {s : Strategy} (hs : s.strong = false) {e e' : Expr} {c c' : Int}
    (h : Reduces s c e e' c') (hc : e.Closed) : Weak e e' := by
  induction h with
  | root h => exact h.weak hc
  | @within F hF _ _ _ _ ih =>
    cases F with
    | fn a l => exact .fn a l (ih (parts_closed hc).1)
    | arg f l => exact .arg f l (ih (parts_closed hc).2)
    | tfn t l => exact .typeFn t l (ih (parts_closed hc).1)
    | value x b l => exact .letValue x b l (ih (parts_closed hc).1)
    | lam | tlam => exact absurd hF (by simp [Frame.enteredBy, hs])
    | ann | body | typeBody | kindBody => cases hF

/-- Steps do not set names free. -/
theorem Weak.closed {e e' : Expr} (h : Weak e e') (hc : e.Closed) : e'.Closed := by
  induction h with
  | ann e t l => exact (parts_closed hc).1
  | letValue x e l _ ih =>
    obtain ⟨hv, he⟩ := parts_closed hc
    exact fun m => List.append_eq_nil_iff.2 ⟨ih hv m, he m⟩
  | letIn x v e l =>
    obtain ⟨hv, he⟩ := parts_closed hc
    exact closed_put (σ := .expr x.name v) hv rfl he
  | typeIn x v e l =>
    exact closed_put (σ := .type x.name v) (parts_closed hc).1 rfl (parts_closed hc).2
  | kindIn x v e l =>
    exact closed_put (σ := .kind x.name v) (parts_closed hc).1 rfl (parts_closed hc).2
  | beta x t e a l l' =>
    obtain ⟨hf, ha⟩ := parts_closed hc
    exact closed_put (σ := .expr x.name a) ha rfl (parts_closed hf).2
  | fn a l _ ih =>
    obtain ⟨hf, ha⟩ := parts_closed hc
    exact fun m => List.append_eq_nil_iff.2 ⟨ih hf m, ha m⟩
  | arg f l _ ih =>
    obtain ⟨hf, ha⟩ := parts_closed hc
    exact fun m => List.append_eq_nil_iff.2 ⟨hf m, ih ha m⟩
  | typeBeta x k e t l l' =>
    obtain ⟨hf, ht⟩ := parts_closed hc
    exact closed_put (σ := .type x.name t) ht rfl (parts_closed hf).2
  | typeFn t l _ ih =>
    obtain ⟨hf, ht⟩ := parts_closed hc
    exact fun m => List.append_eq_nil_iff.2 ⟨ih hf m, ht m⟩

/-- Steps keep types. -/
theorem Weak.preserves {e e' : Expr} (h : Weak e e') (hc : e.Closed) (ρ : Env) :
    Term.Preserves (e.expand ρ) (e'.expand ρ) := by
  induction h generalizing ρ with
  | ann e t l => exact .of_ann _ _
  | @letValue x v v' e l hv ih =>
    -- the definition is expanded in many places, and under binders
    obtain ⟨hcv, -⟩ := parts_closed hc
    refine Env.Preserves.expand (Env.Preserves.defineExpr ⟨rfl, rfl, fun _ _ _ => .refl _⟩ _ ?_) e
    intro ξ ζ
    rw [rename_expand_closed hcv, rename_expand_closed (hv.closed hcv)]
    exact ih hcv ρ
  | letIn x v e l =>
    rw [expand_put (σ := .expr x.name v) (parts_closed hc).1]
    exact .refl _
  | typeIn x v e l =>
    rw [expand_put (σ := .type x.name v) (parts_closed hc).1]
    exact .refl _
  | kindIn x v e l =>
    rw [expand_put (σ := .kind x.name v) (parts_closed hc).1]
    exact .refl _
  | beta x t e a l l' =>
    rw [expand_put (σ := .expr x.name a) (parts_closed hc).2, Env.replace, ← inst_expand]
    exact .beta _ _ _
  | fn a l _ ih => exact .app (ih (parts_closed hc).1 ρ) (.refl _)
  | arg f l _ ih => exact .app (.refl _) (ih (parts_closed hc).2 ρ)
  | typeBeta x k e t l l' =>
    rw [expand_put (σ := .type x.name t) (parts_closed hc).2, Env.replace, ← instType_expand]
    exact .typeBeta _ _ _
  | typeFn t l _ ih => exact .tapp _ (ih (parts_closed hc).1 ρ)

/-! ## Values -/

/-- A value of the form that the type `t` asks for. -/
def Canonical (t : Nameless) : Expr → Prop
  | lit _ _ => Conv .int t
  | lam _ _ _ _ => ∃ s u, Conv (.arrow s u) t
  | tlam _ _ _ _ => ∃ k u, Conv (.bind .all k u) t
  | _ => False

/-- A value of an arrow type is a function. -/
theorem Canonical.lam_of_arrow {e : Expr} {s u : Nameless} (h : Canonical (.arrow s u) e) :
    ∃ x t b l, e = lam x t b l := by
  cases e with
  | lit n l => exact absurd h (Nameless.not_conv_int_arrow s u)
  | lam x t b l => exact ⟨x, t, b, l, rfl⟩
  | tlam x k b l =>
    obtain ⟨k', v, hv⟩ := h
    exact absurd hv.symm (Nameless.not_conv_arrow_bind s u _ _ _)
  | _ => exact h.elim

/-- A value of a universal type is a type abstraction. -/
theorem Canonical.tlam_of_all {e : Expr} {k : Kind} {u : Nameless}
    (h : Canonical (.bind .all k u) e) : ∃ x j b l, e = tlam x j b l := by
  cases e with
  | lit n l => exact absurd h (Nameless.not_conv_int_bind _ _ _)
  | lam x t b l =>
    obtain ⟨s, v, hv⟩ := h
    exact absurd hv (Nameless.not_conv_arrow_bind _ _ _ _ _)
  | tlam x j b l => exact ⟨x, j, b, l, rfl⟩
  | _ => exact h.elim

/-- A closed expression with a type that has no step is a value of that type. -/
theorem canonical_of_step?_eq_none {s : Strategy} {K : Kinds} {G : Types} {ρ : Env} {e : Expr}
    {t : Nameless} {c : Int} (hc : e.Closed) (ht : Term.HasType K G (e.expand ρ) t)
    (h : e.step? s c = none) : e.Canonical t := by
  induction e generalizing t with
  | lit n l => exact ht.lit_inv
  | var x l => exact absurd (hc .expr) (by simp [free])
  | lam x _ e l =>
    obtain ⟨_, u, _, hu⟩ := ht.lam_inv
    exact ⟨_, u, hu⟩
  | tlam x k e l =>
    obtain ⟨u, _, hu⟩ := ht.tlam_inv
    exact ⟨_, u, hu⟩
  | ann | letIn | typeIn | kindIn =>
    have hredex := isRedex_of_step?_eq_none h
    cases hredex
  | app f a l hf =>
    obtain ⟨s, u, htf, _, _⟩ := ht.app_inv
    obtain ⟨hlam, hnone, -⟩ := step?_app_eq_none.1 h
    obtain ⟨x, _, b, _, rfl⟩ := (hf (parts_closed hc).1 htf hnone).lam_of_arrow
    cases hlam
  | tapp f a l hf =>
    obtain ⟨k, u, htf, _, _⟩ := ht.tapp_inv
    obtain ⟨hlam, hnone⟩ := step?_tapp_eq_none.1 h
    obtain ⟨x, _, b, _, rfl⟩ := (hf (parts_closed hc).1 htf hnone).tlam_of_all
    cases hlam

/-! ## Runs -/

/-- Any number of steps, each from the counter that the one before has left. -/
def Run (s : Strategy) : Expr × Int → Expr × Int → Prop :=
  Relation.ReflTransGen fun p q => p.1.step? s p.2 = some q

/-- Where `Expr.reduce` ends there is a run. -/
theorem run_of_reduceFrom {s : Strategy} {n : Nat} {e e' : Expr} {c c' : Int}
    {past hist : List Expr} (h : e.reduceFrom s n c past = ⟨.expr e', c', hist⟩) :
    Run s (e, c) (e', c') := by
  induction n generalizing e c past with
  | zero =>
    cases h
    exact .refl
  | succ n ih =>
    rw [reduceFrom] at h
    split at h
    · cases h
      exact .refl
    · rename_i hstep
      exact .head hstep (ih h)

/-- All steps of a run keep the types of a closed expression. -/
theorem Run.preserves {s : Strategy} (hs : s.strong = false) {e e' : Expr} {c c' : Int}
    (h : Run s (e, c) (e', c')) (hc : e.Closed) {K : Kinds} {G : Types} {ρ : Env} {t : Nameless}
    (ht : Term.HasType K G (e.expand ρ) t) :
    e'.Closed ∧ Term.HasType K G (e'.expand ρ) t := by
  generalize hp : (e, c) = p, hq : (e', c') = q at h
  induction h generalizing e' c' with
  | refl =>
    cases hp.trans hq.symm
    exact ⟨hc, ht⟩
  | @tail p' q' _ hstep ih =>
    cases hq
    obtain ⟨hc', ht'⟩ := @ih p'.1 p'.2 rfl
    have hw := (reduces_of_step? hstep).weak hs hc'
    exact ⟨hw.closed hc', hw.preserves hc' ρ _ _ _ ht'⟩

/-- No run from a closed expression with a type gets stuck. -/
theorem Run.canonical {s : Strategy} (hs : s.strong = false) {e e' : Expr} {c c' : Int}
    (h : Run s (e, c) (e', c')) (hc : e.Closed) {K : Kinds} {G : Types} {ρ : Env} {t : Nameless}
    (ht : Term.HasType K G (e.expand ρ) t) (hn : e'.step? s c' = none) : e'.Canonical t := by
  obtain ⟨hc', ht'⟩ := h.preserves hs hc ht
  exact canonical_of_step?_eq_none hc' ht' hn

end Expr

end SystemFOmega
