import SystemFOmega.Proofs.Nameless.Reduction

/-!
# Kinds of nameless types

The kinding rules of the calculus, on nameless types, in a context that gives references their
kinds. A type has at most one kind (`Kinded.unique`), substitution and steps keep it
(`Kinded.subst`, `Kinded.step`), and a normal type without references is no application
(`Kinded.not_app_of_normal`).

An ascription of a kind is the identity operator of that kind, applied (`Nameless.ascribe`).
-/

namespace SystemFOmega

/-- The kinds of the references of a context. -/
abbrev Kinds := Ref → Option Kind

namespace Kinds

/-- Nothing in scope. -/
def empty : Kinds := fun _ => none

/-- The context under a binder of kind `k`. -/
def push (K : Kinds) (k : Kind) : Kinds
  | .bound 0 => some k
  | .bound (i + 1) => K (.bound i)
  | .free x => K (.free x)

@[simp] theorem push_zero (K : Kinds) (k : Kind) : K.push k (.bound 0) = some k := rfl

@[simp] theorem push_shift (K : Kinds) (k : Kind) (r : Ref) : K.push k r.shift = K r := by
  cases r <;> rfl

end Kinds

namespace Nameless

/-- The kinds of types. An application has a kind if the operator takes arguments of the kind of its
argument. -/
inductive Kinded : Kinds → Nameless → Kind → Prop
  | int {K : Kinds} : Kinded K int .star
  | var {K : Kinds} {r : Ref} {k : Kind} : K r = some k → Kinded K (var r) k
  | arrow {K : Kinds} {s t : Nameless} :
    Kinded K s .star → Kinded K t .star → Kinded K (arrow s t) .star
  | all {K : Kinds} {k : Kind} {t : Nameless} :
    Kinded (K.push k) t .star → Kinded K (bind .all k t) .star
  | lam {K : Kinds} {k l : Kind} {t : Nameless} :
    Kinded (K.push k) t l → Kinded K (bind .lam k t) (.arrow k l)
  | app {K : Kinds} {j k : Kind} {f a : Nameless} :
    Kinded K f (.arrow j k) → Kinded K a j → Kinded K (app f a) k

namespace Kinded

/-- A type has at most one kind. -/
theorem unique {K : Kinds} {t : Nameless} {k l : Kind} (h : Kinded K t k) (h' : Kinded K t l) :
    k = l := by
  induction h generalizing l with
  | int =>
    cases h'
    rfl
  | var hr =>
    cases h' with
    | var hr' => exact Option.some.inj (hr.symm.trans hr')
  | arrow =>
    cases h'
    rfl
  | all =>
    cases h'
    rfl
  | lam _ ih =>
    cases h' with
    | lam h => rw [ih h]
  | app _ _ ih _ =>
    cases h' with
    | app hf _ => exact (Kind.arrow.inj (ih hf)).2

/-! What a kind of a type says of its parts. -/

/-- What a type with a kind refers to is in the context. -/
theorem exists_of_uses {K : Kinds} {t : Nameless} {k : Kind} {r : Ref} (h : Kinded K t k)
    (hr : t.Uses r) : ∃ l, K r = some l := by
  induction h generalizing r with
  | int => exact hr.elim
  | var h =>
    obtain rfl : r = _ := hr
    exact ⟨_, h⟩
  | arrow _ _ hs ht | app _ _ hs ht => exact hr.elim hs ht
  | all _ ih | lam _ ih => simpa using ih hr

theorem arrow_inv {K : Kinds} {s t : Nameless} {k : Kind} (h : Kinded K (Nameless.arrow s t) k) :
    Kinded K s .star ∧ Kinded K t .star := by
  cases h with
  | arrow hs ht => exact ⟨hs, ht⟩

theorem all_inv {K : Kinds} {j k : Kind} {t : Nameless} (h : Kinded K (bind .all j t) k) :
    Kinded (K.push j) t .star := by
  cases h with
  | all ht => exact ht

theorem lam_inv {K : Kinds} {j k : Kind} {t : Nameless} (h : Kinded K (bind .lam j t) k) :
    ∃ l, Kinded (K.push j) t l := by
  cases h with
  | lam ht => exact ⟨_, ht⟩

theorem app_inv {K : Kinds} {f a : Nameless} {k : Kind} (h : Kinded K (Nameless.app f a) k) :
    ∃ j, Kinded K f (.arrow j k) ∧ Kinded K a j := by
  cases h with
  | app hf ha => exact ⟨_, hf, ha⟩

/-- Only the kinds of references that occur play a part. -/
theorem rename {K K' : Kinds} {t : Nameless} {k : Kind} {ξ : Ref → Ref} (h : Kinded K t k)
    (hξ : ∀ r l, t.Uses r → K r = some l → K' (ξ r) = some l) : Kinded K' (t.rename ξ) k := by
  have hlift {t : Nameless} {b : Binder} {k : Kind} {K K' : Kinds} {ξ : Ref → Ref}
      (hξ : ∀ r l, (Nameless.bind b k t).Uses r → K r = some l → K' (ξ r) = some l)
      (r : Ref) (l : Kind) (hr : t.Uses r) (h : K.push k r = some l) :
      K'.push k (Ref.lift ξ r) = some l := by
    obtain rfl | ⟨s, rfl⟩ := r.zero_or_shift
    · exact h
    · simpa using hξ s l hr (by simpa using h)
  induction h generalizing K' ξ with
  | int => exact .int
  | var hr => exact .var (hξ _ _ rfl hr)
  | arrow _ _ hs ht =>
    exact .arrow (hs fun r l hr => hξ r l (.inl hr)) (ht fun r l hr => hξ r l (.inr hr))
  | all _ ih => exact .all (ih (hlift (b := .all) hξ))
  | lam _ ih => exact .lam (ih (hlift (b := .lam) hξ))
  | app _ _ hf ha =>
    exact .app (hf fun r l hr => hξ r l (.inl hr)) (ha fun r l hr => hξ r l (.inr hr))

theorem shift {K : Kinds} {t : Nameless} {k : Kind} (j : Kind) (h : Kinded K t k) :
    Kinded (K.push j) t.shift k :=
  h.rename fun r l _ hr => by simpa using hr

/-- The kind of a renamed type is that of the type. -/
theorem of_rename {K K' : Kinds} {t : Nameless} {k : Kind} {ξ : Ref → Ref}
    (h : Kinded K' (t.rename ξ) k) (hξ : ∀ r, K' (ξ r) = K r) : Kinded K t k := by
  have hlift {K K' : Kinds} {ξ : Ref → Ref} (hξ : ∀ r, K' (ξ r) = K r) (k : Kind) (r : Ref) :
      K'.push k (Ref.lift ξ r) = K.push k r := by
    obtain rfl | ⟨s, rfl⟩ := r.zero_or_shift
    · rfl
    · simp [hξ]
  induction t generalizing K K' k ξ with
  | int =>
    cases h
    exact .int
  | var r =>
    cases h with
    | var hr => exact .var (by rwa [hξ] at hr)
  | arrow s t hs ht =>
    cases h with
    | arrow h₁ h₂ => exact .arrow (hs h₁ hξ) (ht h₂ hξ)
  | bind b l t ih =>
    cases h with
    | all h => exact .all (ih h (hlift hξ l))
    | lam h => exact .lam (ih h (hlift hξ l))
  | app f a hf ha =>
    cases h with
    | app h₁ h₂ => exact .app (hf h₁ hξ) (ha h₂ hξ)

/-- A binder that is not used may be left out. -/
theorem of_shift {K : Kinds} {t : Nameless} {j k : Kind} (h : Kinded (K.push j) t.shift k) :
    Kinded K t k :=
  h.of_rename fun r => by simp

/-- Kinding is kept by substitutions of types of the right kinds for the references that are
used. -/
theorem subst {K K' : Kinds} {t : Nameless} {k : Kind} {σ : Ref → Nameless} (h : Kinded K t k)
    (hσ : ∀ r l, t.Uses r → K r = some l → Kinded K' (σ r) l) : Kinded K' (t.subst σ) k := by
  have hup {t : Nameless} {b : Binder} {k : Kind} {K K' : Kinds} {σ : Ref → Nameless}
      (hσ : ∀ r l, (Nameless.bind b k t).Uses r → K r = some l → Kinded K' (σ r) l)
      (r : Ref) (l : Kind) (hr : t.Uses r) (h : K.push k r = some l) :
      Kinded (K'.push k) (up σ r) l := by
    obtain rfl | ⟨s, rfl⟩ := r.zero_or_shift
    · exact .var h
    · rw [up_shift]
      exact (hσ s l hr (by simpa using h)).shift k
  induction h generalizing K' σ with
  | int => exact .int
  | var hr => exact hσ _ _ rfl hr
  | arrow _ _ hs ht =>
    exact .arrow (hs fun r l hr => hσ r l (.inl hr)) (ht fun r l hr => hσ r l (.inr hr))
  | all _ ih => exact .all (ih (hup (b := .all) hσ))
  | lam _ ih => exact .lam (ih (hup (b := .lam) hσ))
  | app _ _ hf ha =>
    exact .app (hf fun r l hr => hσ r l (.inl hr)) (ha fun r l hr => hσ r l (.inr hr))

/-- A type of the right kind is put for the outermost binder. -/
theorem inst {K : Kinds} {t a : Nameless} {j k : Kind} (ht : Kinded (K.push j) t k)
    (ha : Kinded K a j) : Kinded K (t.inst a) k := by
  refine ht.subst fun r l _ hr => ?_
  obtain rfl | ⟨s, rfl⟩ := r.zero_or_shift
  · obtain rfl := Option.some.inj hr
    exact ha
  · rw [single_shift]
    exact .var (by simpa using hr)

/-- Steps keep kinds. -/
theorem step {K : Kinds} {t u : Nameless} {k : Kind} (h : Kinded K t k) (hs : Step t u) :
    Kinded K u k := by
  induction hs generalizing K k with
  | beta l t a =>
    cases h with
    | app hf ha =>
      cases hf with
      | lam ht => exact ht.inst ha
  | arrowLeft t _ ih =>
    cases h with
    | arrow hs ht => exact .arrow (ih hs) ht
  | arrowRight s _ ih =>
    cases h with
    | arrow hs ht => exact .arrow hs (ih ht)
  | body b l _ ih =>
    cases h with
    | all ht => exact .all (ih ht)
    | lam ht => exact .lam (ih ht)
  | fn a _ ih =>
    cases h with
    | app hf ha => exact .app (ih hf) ha
  | arg f _ ih =>
    cases h with
    | app hf ha => exact .app hf (ih ha)

/-- Contraction keeps kinds. -/
theorem steps {K : Kinds} {t u : Nameless} {k : Kind} (h : Kinded K t k) (hs : Steps t u) :
    Kinded K u k := by
  induction hs with
  | refl => exact h
  | tail _ hstep ih => exact ih.step hstep

/-! ## Closed normal types -/

/-- A normal type without references is no application. -/
theorem not_app_of_normal {K : Kinds} {t : Nameless} {k : Kind} (h : Kinded K t k)
    (hn : Normal t) (hc : ∀ r, ¬ t.Uses r) (f a : Nameless) : t ≠ Nameless.app f a := by
  induction h generalizing f a with
  | int | arrow | all | lam => simp
  | var hr => exact absurd rfl (hc _)
  | @app K j k g b hg hb ih _ =>
    rintro -
    have hgn : Normal g := fun u hu => hn _ (.fn b hu)
    have hgc (r : Ref) : ¬ g.Uses r := fun h => hc r (.inl h)
    cases hg with
    | var hr => exact hgc _ rfl
    | lam ht => exact hn _ (.beta _ _ b)
    | app hg' ha' => exact ih hgn hgc _ _ rfl

end Kinded

/-! ## Ascription -/

/-- The type `t`, which has to have the kind `k`. -/
def ascribe (t : Nameless) (k : Kind) : Nameless := app (bind .lam k (var (.bound 0))) t

/-- A type beside a kind has this kind, if any. -/
theorem kinded_ascribe_iff {K : Kinds} {t : Nameless} {k l : Kind} :
    Kinded K (t.ascribe k) l ↔ l = k ∧ Kinded K t k := by
  constructor
  · intro h
    cases h with
    | app hf ht =>
      cases hf with
      | lam hb =>
        cases hb with
        | var hr => exact ⟨(Option.some.inj hr).symm, ht⟩
  · rintro ⟨rfl, ht⟩
    exact .app (.lam (.var rfl)) ht

/-- A type beside a kind is convertible to the type. -/
theorem ascribe_conv (t : Nameless) (k : Kind) : Conv (t.ascribe k) t :=
  .of_steps (.single (.beta k (var (.bound 0)) t))

theorem subst_ascribe (σ : Ref → Nameless) (t : Nameless) (k : Kind) :
    (t.ascribe k).subst σ = (t.subst σ).ascribe k := rfl

end Nameless

end SystemFOmega
