import SystemFOmega.Core.Ty

/-!
# Nameless types

A nameless type is a core type without the names of its binders and without the kinds of its
nodes. A reference counts the binders between it and its own (`Ref.bound`), or is a free name
(`Ref.free`). A count that leads out of the type is a reference to a context.

Renaming (`Nameless.rename`) and substitution (`Nameless.subst`) act on all references at once, so
that opening a binder, closing one and putting a type for a name are all instances of them. The
laws of composition (`rename_rename`, `subst_rename`, `rename_subst`, `subst_subst`) and the
congruence on the references that occur (`subst_congr`) are all that later proofs use.
-/

namespace SystemFOmega

/-- A reference of a nameless phrase. -/
inductive Ref where
  | bound (i : Nat)
  | free (x : Name)
deriving DecidableEq

namespace Ref

/-- The same reference from under one more binder. -/
@[grind]
def shift : Ref → Ref
  | bound i => bound (i + 1)
  | free x => free x

/-- A renaming under one more binder. -/
@[grind]
def lift (ξ : Ref → Ref) : Ref → Ref
  | bound 0 => bound 0
  | bound (i + 1) => (ξ (bound i)).shift
  | free x => (ξ (free x)).shift

/-- Makes the free name `x` the reference to a new binder around everything. -/
@[grind]
def close (x : Name) : Ref → Ref
  | bound i => bound (i + 1)
  | free y => if y = x then bound 0 else free y

@[simp] theorem lift_zero (ξ : Ref → Ref) : lift ξ (bound 0) = bound 0 := rfl

@[simp] theorem lift_shift (ξ : Ref → Ref) (r : Ref) : lift ξ r.shift = (ξ r).shift := by
  cases r <;> rfl

/-- A reference under a binder is the binder's own or one from outside. -/
theorem zero_or_shift (r : Ref) : r = bound 0 ∨ ∃ s : Ref, r = s.shift := by
  match r with
  | bound 0 => exact .inl rfl
  | bound (i + 1) => exact .inr ⟨bound i, rfl⟩
  | free x => exact .inr ⟨free x, rfl⟩

theorem shift_injective {r s : Ref} (h : r.shift = s.shift) : r = s := by
  cases r <;> cases s <;> simp_all [shift]

theorem shift_ne_zero (r : Ref) : r.shift ≠ bound 0 := by
  cases r <;> simp [shift]

theorem close_of_ne {x : Name} {r : Ref} (h : r ≠ free x) : close x r = r.shift := by
  cases r with
  | bound i => rfl
  | free y =>
    have hy : y ≠ x := fun e => h (by rw [e])
    simp [close, shift, hy]

@[simp] theorem close_self (x : Name) : close x (free x) = bound 0 := by simp [close]

theorem lift_injective {ξ : Ref → Ref} (h : ∀ ⦃r s⦄, ξ r = ξ s → r = s) ⦃r s : Ref⦄
    (he : lift ξ r = lift ξ s) : r = s := by
  obtain rfl | ⟨r, rfl⟩ := r.zero_or_shift <;> obtain rfl | ⟨s, rfl⟩ := s.zero_or_shift
  · rfl
  · exact absurd (by simpa using he.symm) (shift_ne_zero (ξ s))
  · exact absurd (by simpa using he) (shift_ne_zero (ξ r))
  · have hrs : ξ r = ξ s := shift_injective (by simpa using he)
    rw [h hrs]

/-- Closing over a name confuses no two references. -/
theorem close_injective (x : Name) ⦃r s : Ref⦄ (he : close x r = close x s) : r = s := by
  by_cases hr : r = free x <;> by_cases hs : s = free x
  · rw [hr, hs]
  · rw [hr, close_self, close_of_ne hs] at he
    exact absurd he.symm (shift_ne_zero s)
  · rw [hs, close_self, close_of_ne hr] at he
    exact absurd he (shift_ne_zero r)
  · rw [close_of_ne hr, close_of_ne hs] at he
    exact shift_injective he

/-- Under a binder, two renamings are still one. -/
theorem lift_comp (ξ ζ : Ref → Ref) : lift ζ ∘ lift ξ = lift (ζ ∘ ξ) := by
  funext r
  obtain rfl | ⟨s, rfl⟩ := r.zero_or_shift <;> simp

end Ref

/-- Types without names of binders and without kinds at each type. -/
inductive Nameless where
  | int
  | var (r : Ref)
  | arrow (left right : Nameless)
  | bind (b : Binder) (k : Kind) (body : Nameless)
  | app (f a : Nameless)
deriving DecidableEq

namespace Nameless

/-! ## Renaming and substitution -/

/-- Puts other references for those of a type. Under a binder they are moved up by one. -/
@[grind]
def rename (ξ : Ref → Ref) : Nameless → Nameless
  | int => int
  | var r => var (ξ r)
  | arrow s t => arrow (s.rename ξ) (t.rename ξ)
  | bind b k t => bind b k (t.rename (Ref.lift ξ))
  | app f a => app (f.rename ξ) (a.rename ξ)

/-- The type from under one more binder. -/
def shift (t : Nameless) : Nameless := t.rename Ref.shift

/-- A substitution under one more binder. -/
@[grind]
def up (σ : Ref → Nameless) : Ref → Nameless
  | .bound 0 => var (.bound 0)
  | .bound (i + 1) => (σ (.bound i)).shift
  | .free x => (σ (.free x)).shift

/-- Puts types for the references of a type, all at once. -/
@[grind]
def subst (σ : Ref → Nameless) : Nameless → Nameless
  | int => int
  | var r => σ r
  | arrow s t => arrow (s.subst σ) (t.subst σ)
  | bind b k t => bind b k (t.subst (up σ))
  | app f a => app (f.subst σ) (a.subst σ)

/-- Puts `a` for the references to the outermost binder, which is taken away. -/
@[grind]
def single (a : Nameless) : Ref → Nameless
  | .bound 0 => a
  | .bound (i + 1) => var (.bound i)
  | .free x => var (.free x)

/-- The body `t` of a binder with `a` for the name that it binds. -/
def inst (t a : Nameless) : Nameless := t.subst (single a)

/-- Puts `a` for the free name `x`. -/
@[grind]
def put (x : Name) (a : Nameless) : Ref → Nameless
  | .bound i => var (.bound i)
  | .free y => if y = x then a else var (.free y)

@[simp] theorem up_zero (σ : Ref → Nameless) : up σ (.bound 0) = var (.bound 0) := rfl

@[simp] theorem up_shift (σ : Ref → Nameless) (r : Ref) : up σ r.shift = (σ r).shift := by
  cases r <;> rfl

@[simp] theorem single_zero (a : Nameless) : single a (.bound 0) = a := rfl

@[simp] theorem single_shift (a : Nameless) (r : Ref) : single a r.shift = var r := by
  cases r <;> rfl

@[simp] theorem put_self (x : Name) (a : Nameless) : put x a (.free x) = a := by simp [put]

theorem put_of_ne {x : Name} {a : Nameless} {r : Ref} (h : r ≠ .free x) : put x a r = var r := by
  cases r with
  | bound i => rfl
  | free y =>
    have hy : y ≠ x := fun e => h (by rw [e])
    simp [put, hy]

/-! ## Composition -/

/-- Two renamings, one after the other. -/
theorem rename_rename (ξ ζ : Ref → Ref) (t : Nameless) :
    (t.rename ξ).rename ζ = t.rename (ζ ∘ ξ) := by
  induction t generalizing ξ ζ with
  | int => rfl
  | var r => rfl
  | arrow s t hs ht => simp only [rename, hs, ht]
  | bind b k t ht => simp only [rename, ht, Ref.lift_comp]
  | app f a hf ha => simp only [rename, hf, ha]

/-- A renaming that confuses no two references confuses no two types. -/
theorem rename_injective {ξ : Ref → Ref} (h : ∀ ⦃r s⦄, ξ r = ξ s → r = s) ⦃t u : Nameless⦄
    (he : t.rename ξ = u.rename ξ) : t = u := by
  induction t generalizing ξ u with
  | int => cases u <;> simp_all [rename]
  | var r =>
    cases u with
    | var s => rw [h (var.inj he)]
    | _ => cases he
  | arrow s t hs ht =>
    cases u with
    | arrow s' t' =>
      obtain ⟨h₁, h₂⟩ := arrow.inj he
      rw [hs h h₁, ht h h₂]
    | _ => cases he
  | bind b k t ht =>
    cases u with
    | bind b' k' t' =>
      obtain ⟨rfl, rfl, h₁⟩ := bind.inj he
      rw [ht (Ref.lift_injective h) h₁]
    | _ => cases he
  | app f a hf ha =>
    cases u with
    | app f' a' =>
      obtain ⟨h₁, h₂⟩ := app.inj he
      rw [hf h h₁, ha h h₂]
    | _ => cases he

theorem up_lift (ξ : Ref → Ref) (σ : Ref → Nameless) : up σ ∘ Ref.lift ξ = up (σ ∘ ξ) := by
  funext r
  obtain rfl | ⟨s, rfl⟩ := r.zero_or_shift <;> simp

/-- A substitution behind a renaming. -/
theorem subst_rename (ξ : Ref → Ref) (σ : Ref → Nameless) (t : Nameless) :
    (t.rename ξ).subst σ = t.subst (σ ∘ ξ) := by
  induction t generalizing ξ σ with
  | int => rfl
  | var r => rfl
  | arrow s t hs ht => simp only [rename, subst, hs, ht]
  | bind b k t ht => simp only [rename, subst, ht, up_lift]
  | app f a hf ha => simp only [rename, subst, hf, ha]

theorem shift_rename (ξ : Ref → Ref) (t : Nameless) :
    (t.rename ξ).shift = t.shift.rename (Ref.lift ξ) := by
  rw [shift, shift, rename_rename, rename_rename]
  congr 1
  funext r
  simp

theorem rename_up (ξ : Ref → Ref) (σ : Ref → Nameless) :
    rename (Ref.lift ξ) ∘ up σ = up (rename ξ ∘ σ) := by
  funext r
  obtain rfl | ⟨s, rfl⟩ := r.zero_or_shift
  · simp [rename]
  · simp [shift_rename]

/-- A renaming behind a substitution. -/
theorem rename_subst (ξ : Ref → Ref) (σ : Ref → Nameless) (t : Nameless) :
    (t.subst σ).rename ξ = t.subst (rename ξ ∘ σ) := by
  induction t generalizing ξ σ with
  | int => rfl
  | var r => rfl
  | arrow s t hs ht => simp only [rename, subst, hs, ht]
  | bind b k t ht => simp only [rename, subst, ht, rename_up]
  | app f a hf ha => simp only [rename, subst, hf, ha]

/-- A substitution goes under a binder. -/
theorem shift_subst (σ : Ref → Nameless) (t : Nameless) :
    (t.subst σ).shift = t.shift.subst (up σ) := by
  rw [shift, shift, rename_subst, subst_rename]
  congr 1
  funext r
  simp [shift]

theorem subst_up (σ τ : Ref → Nameless) : subst (up τ) ∘ up σ = up (subst τ ∘ σ) := by
  funext r
  obtain rfl | ⟨s, rfl⟩ := r.zero_or_shift
  · simp [subst]
  · simp [shift_subst]

/-- Two substitutions, one after the other. -/
theorem subst_subst (σ τ : Ref → Nameless) (t : Nameless) :
    (t.subst σ).subst τ = t.subst (subst τ ∘ σ) := by
  induction t generalizing σ τ with
  | int => rfl
  | var r => rfl
  | arrow s t hs ht => simp only [subst, hs, ht]
  | bind b k t ht => simp only [subst, ht, subst_up]
  | app f a hf ha => simp only [subst, hf, ha]

theorem up_var : up var = var := by
  funext r
  obtain rfl | ⟨s, rfl⟩ := r.zero_or_shift <;> simp [shift, rename]

@[simp] theorem subst_var (t : Nameless) : t.subst var = t := by
  induction t with
  | int => rfl
  | var r => rfl
  | arrow s t hs ht => simp only [subst, hs, ht]
  | bind b k t ht => simp only [subst, up_var, ht]
  | app f a hf ha => simp only [subst, hf, ha]

/-- A renaming is a substitution of references. -/
theorem rename_eq_subst (ξ : Ref → Ref) (t : Nameless) : t.rename ξ = t.subst (var ∘ ξ) := by
  rw [← subst_rename, subst_var]

@[simp] theorem rename_id (t : Nameless) : t.rename id = t := by
  rw [rename_eq_subst, Function.comp_id, subst_var]

/-- Nothing refers to the binder that `shift` steps under. -/
@[simp] theorem inst_shift (t a : Nameless) : t.shift.inst a = t := by
  rw [inst, shift, subst_rename, show single a ∘ Ref.shift = var by funext r; simp, subst_var]

/-- To put something for the outermost binder and to substitute may be done in either order. -/
theorem subst_inst (σ : Ref → Nameless) (t a : Nameless) :
    (t.inst a).subst σ = (t.subst (up σ)).inst (a.subst σ) := by
  rw [inst, inst, subst_subst, subst_subst]
  congr 1
  funext r
  obtain rfl | ⟨s, rfl⟩ := r.zero_or_shift
  · simp [subst]
  · simpa [subst, inst] using (inst_shift (σ s) (a.subst σ)).symm

theorem rename_inst (ξ : Ref → Ref) (t a : Nameless) :
    (t.inst a).rename ξ = (t.rename (Ref.lift ξ)).inst (a.rename ξ) := by
  rw [rename_eq_subst, subst_inst, rename_eq_subst ξ a, rename_eq_subst _ t]
  congr 2
  funext r
  obtain rfl | ⟨s, rfl⟩ := r.zero_or_shift <;> simp [shift, rename]

/-! ## The references that occur -/

/-- Whether `r`, seen from outside, occurs in a type. -/
@[grind]
def Uses (r : Ref) : Nameless → Prop
  | int => False
  | var s => r = s
  | arrow s t => s.Uses r ∨ t.Uses r
  | bind _ _ t => t.Uses r.shift
  | app f a => f.Uses r ∨ a.Uses r

/-- Substitutions that agree on the references of a type do the same to it. -/
theorem subst_congr {σ τ : Ref → Nameless} {t : Nameless} (h : ∀ r, t.Uses r → σ r = τ r) :
    t.subst σ = t.subst τ := by
  induction t generalizing σ τ with
  | int => rfl
  | var r => exact h r rfl
  | arrow s t hs ht =>
    simp only [subst, hs fun r hr => h r (.inl hr), ht fun r hr => h r (.inr hr)]
  | bind b k t ht =>
    refine congrArg (bind b k) (ht fun r hr => ?_)
    obtain rfl | ⟨s, rfl⟩ := r.zero_or_shift
    · rfl
    · simp [h s hr]
  | app f a hf ha =>
    simp only [subst, hf fun r hr => h r (.inl hr), ha fun r hr => h r (.inr hr)]

/-- Only the references that a type uses matter to a renaming. -/
theorem rename_congr {ξ ζ : Ref → Ref} {t : Nameless} (h : ∀ r, t.Uses r → ξ r = ζ r) :
    t.rename ξ = t.rename ζ := by
  rw [rename_eq_subst, rename_eq_subst]
  exact subst_congr fun r hr => by simp [h r hr]

theorem uses_rename {ξ : Ref → Ref} {t : Nameless} {r : Ref} :
    (t.rename ξ).Uses r ↔ ∃ s, t.Uses s ∧ r = ξ s := by
  induction t generalizing ξ r with
  | int => simp [rename, Uses]
  | var s => simp [rename, Uses]
  | arrow s t hs ht => simp only [rename, Uses, hs, ht, or_and_right, exists_or]
  | bind b k t ht =>
    simp only [rename, Uses, ht]
    constructor
    · rintro ⟨s, hs, he⟩
      obtain rfl | ⟨s, rfl⟩ := s.zero_or_shift
      · exact absurd he (Ref.shift_ne_zero r)
      · exact ⟨s, hs, Ref.shift_injective (by simpa using he)⟩
    · rintro ⟨s, hs, rfl⟩
      exact ⟨s.shift, hs, by simp⟩
  | app f a hf ha => simp only [rename, Uses, hf, ha, or_and_right, exists_or]

/-- What occurs after a substitution has come in by it. -/
theorem uses_subst {σ : Ref → Nameless} {t : Nameless} {r : Ref} (h : (t.subst σ).Uses r) :
    ∃ s, t.Uses s ∧ (σ s).Uses r := by
  induction t generalizing σ r with
  | int => cases h
  | var s => exact ⟨s, rfl, h⟩
  | arrow s t hs ht | app s t hs ht =>
    rcases h with h | h
    · obtain ⟨q, hq, hr⟩ := hs h
      exact ⟨q, .inl hq, hr⟩
    · obtain ⟨q, hq, hr⟩ := ht h
      exact ⟨q, .inr hq, hr⟩
  | bind b k t ht =>
    obtain ⟨q, hq, hr⟩ := ht h
    obtain rfl | ⟨s, rfl⟩ := q.zero_or_shift
    · exact absurd hr (Ref.shift_ne_zero r)
    · rw [up_shift, shift, uses_rename] at hr
      obtain ⟨p, hp, he⟩ := hr
      exact ⟨s, hq, Ref.shift_injective he ▸ hp⟩

/-! ## Opening and closing -/

/-- A name is bound and put back again. -/
theorem inst_close (x : Name) (t : Nameless) :
    (t.rename (Ref.close x)).inst (var (.free x)) = t := by
  rw [inst, subst_rename]
  refine Eq.trans (congrArg (t.subst ·) ?_) (subst_var t)
  funext r
  by_cases h : r = .free x
  · subst h
    simp
  · simp [Ref.close_of_ne h]

/-- Closing undoes opening with a name that the binder does not have inside. -/
theorem close_inst {x : Name} {b : Binder} {k : Kind} {t : Nameless}
    (h : ¬ (bind b k t).Uses (.free x)) :
    (t.inst (var (.free x))).rename (Ref.close x) = t := by
  rw [inst, rename_subst]
  refine Eq.trans (subst_congr fun r hr => ?_) (subst_var t)
  obtain rfl | ⟨s, rfl⟩ := r.zero_or_shift
  · simp [rename]
  · have hs : s ≠ .free x := by
      rintro rfl
      exact h hr
    simp [rename, Ref.close_of_ne hs]

end Nameless

end SystemFOmega
