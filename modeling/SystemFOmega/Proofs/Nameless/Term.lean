import SystemFOmega.Proofs.Nameless.Basic

/-!
# Nameless expressions

Explicitly annotated expressions without definitions and without the names of their binders. Types
and values have references of their own, so that renaming (`Term.rename`) and substitution
(`Term.subst`) take a map for each. The laws of composition are those that the substitution lemma
for typing and the expansion of definitions need.
-/

namespace SystemFOmega

/-- Expressions without names and definitions. -/
inductive Term where
  | lit (n : Int)
  | var (r : Ref)
  | lam (t : Nameless) (body : Term)
  | app (f a : Term)
  | tlam (k : Kind) (body : Term)
  | tapp (f : Term) (t : Nameless)
  | ann (e : Term) (t : Nameless)
deriving DecidableEq

namespace Term

/-! ## Renaming -/

/-- Renames the references to types by `ξ` and those to values by `ζ`. -/
def rename (ξ ζ : Ref → Ref) : Term → Term
  | lit n => lit n
  | var r => var (ζ r)
  | lam t e => lam (t.rename ξ) (e.rename ξ (Ref.lift ζ))
  | app f a => app (f.rename ξ ζ) (a.rename ξ ζ)
  | tlam k e => tlam k (e.rename (Ref.lift ξ) ζ)
  | tapp f t => tapp (f.rename ξ ζ) (t.rename ξ)
  | ann e t => ann (e.rename ξ ζ) (t.rename ξ)

/-- The expression from under one more binder of a value. -/
def shift (e : Term) : Term := e.rename id Ref.shift

/-- The expression from under one more binder of a type. -/
def shiftType (e : Term) : Term := e.rename Ref.shift id

/-- Two renamings, one after the other, of types and of values at once. -/
theorem rename_rename (ξ ζ ξ' ζ' : Ref → Ref) (e : Term) :
    (e.rename ξ ζ).rename ξ' ζ' = e.rename (ξ' ∘ ξ) (ζ' ∘ ζ) := by
  induction e generalizing ξ ζ ξ' ζ' with
  | lit n => rfl
  | var r => rfl
  | lam t e ih => simp only [rename, ih, Nameless.rename_rename, Ref.lift_comp]
  | app f a hf ha => simp only [rename, hf, ha]
  | tlam k e ih => simp only [rename, ih, Ref.lift_comp]
  | tapp f t ih => simp only [rename, ih, Nameless.rename_rename]
  | ann e t ih => simp only [rename, ih, Nameless.rename_rename]

theorem shift_rename (ξ ζ : Ref → Ref) (e : Term) :
    (e.rename ξ ζ).shift = e.shift.rename ξ (Ref.lift ζ) := by
  rw [shift, shift, rename_rename, rename_rename]
  congr 1
  funext r
  simp

theorem shiftType_rename (ξ ζ : Ref → Ref) (e : Term) :
    (e.rename ξ ζ).shiftType = e.shiftType.rename (Ref.lift ξ) ζ := by
  rw [shiftType, shiftType, rename_rename, rename_rename]
  congr 1
  funext r
  simp

/-! ## Substitution -/

/-- A substitution for values under one more binder of a value. -/
def up (σ : Ref → Term) : Ref → Term
  | .bound 0 => var (.bound 0)
  | .bound (i + 1) => (σ (.bound i)).shift
  | .free x => (σ (.free x)).shift

/-- Puts types for the references to types and values for those to values. -/
def subst (τ : Ref → Nameless) (σ : Ref → Term) : Term → Term
  | lit n => lit n
  | var r => σ r
  | lam t e => lam (t.subst τ) (e.subst τ (up σ))
  | app f a => app (f.subst τ σ) (a.subst τ σ)
  | tlam k e => tlam k (e.subst (Nameless.up τ) (shiftType ∘ σ))
  | tapp f t => tapp (f.subst τ σ) (t.subst τ)
  | ann e t => ann (e.subst τ σ) (t.subst τ)

/-- Puts `a` for the references to the outermost binder of a value, which is taken away. -/
def single (a : Term) : Ref → Term
  | .bound 0 => a
  | .bound (i + 1) => var (.bound i)
  | .free x => var (.free x)

/-- The body of an abstraction over values, applied to `a`. -/
def inst (e a : Term) : Term := e.subst Nameless.var (single a)

/-- The body of an abstraction over types, applied to `t`. -/
def instType (e : Term) (t : Nameless) : Term := e.subst (Nameless.single t) var

@[simp] theorem up_zero (σ : Ref → Term) : up σ (.bound 0) = var (.bound 0) := rfl

@[simp] theorem up_shift (σ : Ref → Term) (r : Ref) : up σ r.shift = (σ r).shift := by
  cases r <;> rfl

@[simp] theorem single_zero (a : Term) : single a (.bound 0) = a := rfl

@[simp] theorem single_shift (a : Term) (r : Ref) : single a r.shift = var r := by
  cases r <;> rfl

theorem up_lift (ζ : Ref → Ref) (σ : Ref → Term) : up σ ∘ Ref.lift ζ = up (σ ∘ ζ) := by
  funext r
  obtain rfl | ⟨s, rfl⟩ := r.zero_or_shift <;> simp

/-- A substitution behind a renaming. -/
theorem subst_rename (ξ ζ : Ref → Ref) (τ : Ref → Nameless) (σ : Ref → Term) (e : Term) :
    (e.rename ξ ζ).subst τ σ = e.subst (τ ∘ ξ) (σ ∘ ζ) := by
  induction e generalizing ξ ζ τ σ with
  | lit n => rfl
  | var r => rfl
  | lam t e ih => simp only [rename, subst, ih, Nameless.subst_rename, up_lift]
  | app f a hf ha => simp only [rename, subst, hf, ha]
  | tlam k e ih =>
    simp only [rename, subst, ih, Nameless.up_lift]
    rfl
  | tapp f t ih => simp only [rename, subst, ih, Nameless.subst_rename]
  | ann e t ih => simp only [rename, subst, ih, Nameless.subst_rename]

theorem rename_up (ξ ζ : Ref → Ref) (σ : Ref → Term) :
    rename ξ (Ref.lift ζ) ∘ up σ = up (rename ξ ζ ∘ σ) := by
  funext r
  obtain rfl | ⟨s, rfl⟩ := r.zero_or_shift
  · simp [rename]
  · simp [shift_rename]

/-- A renaming behind a substitution. -/
theorem rename_subst (ξ ζ : Ref → Ref) (τ : Ref → Nameless) (σ : Ref → Term) (e : Term) :
    (e.subst τ σ).rename ξ ζ = e.subst (Nameless.rename ξ ∘ τ) (rename ξ ζ ∘ σ) := by
  induction e generalizing ξ ζ τ σ with
  | lit n => rfl
  | var r => rfl
  | lam t e ih => simp only [rename, subst, ih, Nameless.rename_subst, rename_up]
  | app f a hf ha => simp only [rename, subst, hf, ha]
  | tlam k e ih =>
    have hσ : rename (Ref.lift ξ) ζ ∘ (shiftType ∘ σ) = shiftType ∘ (rename ξ ζ ∘ σ) := by
      funext r
      simp [shiftType_rename]
    simp only [rename, subst, ih, Nameless.rename_up, hσ]
  | tapp f t ih => simp only [rename, subst, ih, Nameless.rename_subst]
  | ann e t ih => simp only [rename, subst, ih, Nameless.rename_subst]

/-- Under a binder of a value, the substitution for types stays as it is. -/
theorem shift_subst (τ : Ref → Nameless) (σ : Ref → Term) (e : Term) :
    (e.subst τ σ).shift = e.shift.subst τ (up σ) := by
  rw [shift, shift, rename_subst, subst_rename]
  congr 1
  · funext r
    simp
  · funext r
    simp [shift]

/-- Under a binder of a type, types in the values that are put in are moved up. -/
theorem shiftType_subst (τ : Ref → Nameless) (σ : Ref → Term) (e : Term) :
    (e.subst τ σ).shiftType = e.shiftType.subst (Nameless.up τ) (shiftType ∘ σ) := by
  rw [shiftType, shiftType, rename_subst, subst_rename]
  congr 1
  funext r
  simp [Nameless.shift]

theorem up_var : up var = var := by
  funext r
  obtain rfl | ⟨s, rfl⟩ := r.zero_or_shift <;> simp [shift, rename]

@[simp] theorem subst_var (e : Term) : e.subst Nameless.var var = e := by
  induction e with
  | lit n => rfl
  | var r => rfl
  | lam t e ih => simp only [subst, Nameless.subst_var, up_var, ih]
  | app f a hf ha => simp only [subst, hf, ha]
  | tlam k e ih =>
    have hσ : shiftType ∘ var = var := rfl
    simp only [subst, Nameless.up_var, hσ, ih]
  | tapp f t ih => simp only [subst, Nameless.subst_var, ih]
  | ann e t ih => simp only [subst, Nameless.subst_var, ih]

/-- A renaming is a substitution of references. -/
theorem rename_eq_subst (ξ ζ : Ref → Ref) (e : Term) :
    e.rename ξ ζ = e.subst (Nameless.var ∘ ξ) (var ∘ ζ) := by
  rw [← subst_rename, subst_var]

@[simp] theorem rename_id (e : Term) : e.rename id id = e := by
  rw [rename_eq_subst, Function.comp_id, Function.comp_id, subst_var]

/-- Nothing refers to the binder that `shift` steps under. -/
@[simp] theorem inst_shift (e a : Term) : e.shift.inst a = e := by
  have hσ : single a ∘ Ref.shift = var := by
    funext r
    simp
  rw [inst, shift, subst_rename, Function.comp_id, hσ, subst_var]

/-- Nothing is put for a binder that is not used. -/
@[simp] theorem instType_shiftType (e : Term) (t : Nameless) : e.shiftType.instType t = e := by
  have hτ : Nameless.single t ∘ Ref.shift = Nameless.var := by
    funext r
    simp
  rw [instType, shiftType, subst_rename, Function.comp_id, hτ, subst_var]

end Term

end SystemFOmega
