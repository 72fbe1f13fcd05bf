import SystemFOmega.Proofs.Nameless.Kinding
import SystemFOmega.Proofs.Nameless.Term

/-!
# Types of nameless expressions

The declarative typing rules of the calculus (`Term.HasType`): expressions carry the types of their
parameters, and an expression of a type has every convertible type of kind `*` as well. Each rule
but that of conversion is for one form of expressions, which the generation lemmas
(`HasType.lam_inv`, …) turn around: what a derivation says of an expression, up to conversion. So an
expression has one type up to conversion (`HasType.unique`). Types are kept by renaming and by
substitution (`HasType.rename`, `HasType.subst`).
-/

namespace SystemFOmega

/-- The types of the references to values of a context. -/
abbrev Types := Ref → Option Nameless

namespace Types

/-- Nothing in scope. -/
def empty : Types := fun _ => none

/-- The context under a binder of a value of type `t`. -/
def push (G : Types) (t : Nameless) : Types
  | .bound 0 => some t
  | .bound (i + 1) => G (.bound i)
  | .free x => G (.free x)

/-- The context under a binder of a type. -/
def shift (G : Types) : Types := fun r => (G r).map Nameless.shift

@[simp] theorem push_zero (G : Types) (t : Nameless) : G.push t (.bound 0) = some t := rfl

@[simp] theorem push_shift (G : Types) (t : Nameless) (r : Ref) : G.push t r.shift = G r := by
  cases r <;> rfl

theorem shift_eq_some {G : Types} {r : Ref} {t : Nameless} :
    G.shift r = some t ↔ ∃ s, G r = some s ∧ s.shift = t :=
  Option.map_eq_some_iff

end Types

namespace Term

open Nameless (Kinded Conv)

/-- `HasType K G e t`: in the context of the kinds `K` and the types `G`, the expression `e` has the
type `t`. The context is not asked to be well-formed; the type of a reference has to be. -/
inductive HasType : Kinds → Types → Term → Nameless → Prop
  | lit {K : Kinds} {G : Types} (n : Int) : HasType K G (lit n) .int
  | var {K : Kinds} {G : Types} {r : Ref} {t : Nameless} :
    G r = some t → Kinded K t .star → HasType K G (var r) t
  | lam {K : Kinds} {G : Types} {s t : Nameless} {e : Term} :
    Kinded K s .star → HasType K (G.push s) e t → HasType K G (lam s e) (.arrow s t)
  | app {K : Kinds} {G : Types} {s t : Nameless} {f a : Term} :
    HasType K G f (.arrow s t) → HasType K G a s → HasType K G (app f a) t
  | tlam {K : Kinds} {G : Types} {k : Kind} {t : Nameless} {e : Term} :
    HasType (K.push k) G.shift e t → HasType K G (tlam k e) (.bind .all k t)
  | tapp {K : Kinds} {G : Types} {k : Kind} {t a : Nameless} {f : Term} :
    HasType K G f (.bind .all k t) → Kinded K a k → HasType K G (tapp f a) (t.inst a)
  | ann {K : Kinds} {G : Types} {t : Nameless} {e : Term} :
    HasType K G e t → HasType K G (ann e t) t
  | conv {K : Kinds} {G : Types} {s t : Nameless} {e : Term} :
    HasType K G e s → Conv s t → Kinded K t .star → HasType K G e t

namespace HasType

/-- A type of an expression has the kind `*`. -/
theorem kinded {K : Kinds} {G : Types} {e : Term} {t : Nameless} (h : HasType K G e t) :
    Kinded K t .star := by
  induction h with
  | lit n => exact .int
  | var _ ht => exact ht
  | lam hs _ ih => exact .arrow hs ih
  | app _ _ hf _ =>
    cases hf with
    | arrow _ ht => exact ht
  | tlam _ ih => exact .all ih
  | tapp _ ha hf =>
    cases hf with
    | all ht => exact ht.inst ha
  | ann _ ih => exact ih
  | conv _ _ ht _ => exact ht

/-! ## Generation -/

variable {K : Kinds} {G : Types} {t : Nameless}

/-- A numeral has the type of integers only, up to conversion. -/
theorem lit_inv {n : Int} (h : HasType K G (Term.lit n) t) : Conv .int t := by
  generalize he : Term.lit n = e at h
  induction h with
  | lit => exact .refl _
  | conv _ hc _ ih => exact (ih he).trans hc
  | _ => cases he

/-- A reference has the type that the context gives to it, up to conversion. -/
theorem var_inv {r : Ref} (h : HasType K G (Term.var r) t) :
    ∃ s, G r = some s ∧ Kinded K s .star ∧ Conv s t := by
  generalize he : Term.var r = e at h
  induction h with
  | var hr hk =>
    cases he
    exact ⟨_, hr, hk, .refl _⟩
  | conv _ hc _ ih =>
    obtain ⟨s, hr, hk, hs⟩ := ih he
    exact ⟨s, hr, hk, hs.trans hc⟩
  | _ => cases he

/-- An abstraction has an arrow type from the type that it is written with. -/
theorem lam_inv {s : Nameless} {e : Term} (h : HasType K G (Term.lam s e) t) :
    Kinded K s .star ∧ ∃ u, HasType K (G.push s) e u ∧ Conv (.arrow s u) t := by
  generalize he : Term.lam s e = e' at h
  induction h with
  | lam hs hb =>
    cases he
    exact ⟨hs, _, hb, .refl _⟩
  | conv _ hc _ ih =>
    obtain ⟨hs, u, hb, hu⟩ := ih he
    exact ⟨hs, u, hb, hu.trans hc⟩
  | _ => cases he

/-- In an application, the function has an arrow type from the type of the argument. -/
theorem app_inv {f a : Term} (h : HasType K G (Term.app f a) t) :
    ∃ s u, HasType K G f (.arrow s u) ∧ HasType K G a s ∧ Conv u t := by
  generalize he : Term.app f a = e at h
  induction h with
  | app hf ha =>
    cases he
    exact ⟨_, _, hf, ha, .refl _⟩
  | conv _ hc _ ih =>
    obtain ⟨s, u, hf, ha, hu⟩ := ih he
    exact ⟨s, u, hf, ha, hu.trans hc⟩
  | _ => cases he

/-- An abstraction over a type has a universal type over the kind that it is written with. -/
theorem tlam_inv {k : Kind} {e : Term} (h : HasType K G (Term.tlam k e) t) :
    ∃ u, HasType (K.push k) G.shift e u ∧ Conv (.bind .all k u) t := by
  generalize he : Term.tlam k e = e' at h
  induction h with
  | tlam hb =>
    cases he
    exact ⟨_, hb, .refl _⟩
  | conv _ hc _ ih =>
    obtain ⟨u, hb, hu⟩ := ih he
    exact ⟨u, hb, hu.trans hc⟩
  | _ => cases he

/-- An application to a type has the body of a universal type, with the argument put in. -/
theorem tapp_inv {f : Term} {a : Nameless} (h : HasType K G (Term.tapp f a) t) :
    ∃ k u, HasType K G f (.bind .all k u) ∧ Kinded K a k ∧ Conv (u.inst a) t := by
  generalize he : Term.tapp f a = e at h
  induction h with
  | tapp hf ha =>
    cases he
    exact ⟨_, _, hf, ha, .refl _⟩
  | conv _ hc _ ih =>
    obtain ⟨k, u, hf, ha, hu⟩ := ih he
    exact ⟨k, u, hf, ha, hu.trans hc⟩
  | _ => cases he

/-- An expression that is put beside a type has this type. -/
theorem ann_inv {e : Term} {s : Nameless} (h : HasType K G (Term.ann e s) t) :
    HasType K G e s ∧ Conv s t := by
  generalize he : Term.ann e s = e' at h
  induction h with
  | ann hb =>
    cases he
    exact ⟨hb, .refl _⟩
  | conv _ hc _ ih =>
    obtain ⟨hb, hu⟩ := ih he
    exact ⟨hb, hu.trans hc⟩
  | _ => cases he

/-- An expression has one type, up to conversion. -/
theorem unique {e : Term} {t u : Nameless} (ht : HasType K G e t) (hu : HasType K G e u) :
    Conv t u := by
  induction ht generalizing u with
  | lit n => exact hu.lit_inv
  | var hr _ =>
    obtain ⟨s, hr', _, hs⟩ := hu.var_inv
    obtain rfl := Option.some.inj (hr.symm.trans hr')
    exact hs
  | lam _ _ ih =>
    obtain ⟨_, v, hb, hv⟩ := hu.lam_inv
    exact (Conv.arrow (.refl _) (ih hb)).trans hv
  | app _ _ ih _ =>
    obtain ⟨s, v, hf, _, hv⟩ := hu.app_inv
    exact (ih hf).arrow_inj.2.trans hv
  | tlam _ ih =>
    obtain ⟨v, hb, hv⟩ := hu.tlam_inv
    exact (Conv.bind _ _ (ih hb)).trans hv
  | tapp _ _ ih =>
    obtain ⟨k, v, hf, _, hv⟩ := hu.tapp_inv
    exact ((ih hf).bind_inj.2.2.inst (.refl _)).trans hv
  | ann _ _ => exact hu.ann_inv.2
  | conv _ hc _ ih => exact hc.symm.trans (ih hu)

/-! ## Renaming and substitution -/

/-- Typing is kept by renamings that respect the contexts. -/
theorem rename {K' : Kinds} {G' : Types} {e : Term} {ξ ζ : Ref → Ref} (h : HasType K G e t)
    (hξ : ∀ r k, K r = some k → K' (ξ r) = some k)
    (hζ : ∀ r s, G r = some s → G' (ζ r) = some (s.rename ξ)) :
    HasType K' G' (e.rename ξ ζ) (t.rename ξ) := by
  induction h generalizing K' G' ξ ζ with
  | lit n => exact .lit n
  | var hr hk => exact .var (hζ _ _ hr) (hk.rename fun r l _ => hξ r l)
  | lam hs _ ih =>
    refine .lam (hs.rename fun r l _ => hξ r l) (ih hξ fun r u hr => ?_)
    obtain rfl | ⟨r, rfl⟩ := r.zero_or_shift
    · obtain rfl := Option.some.inj hr
      rfl
    · simpa using hζ r u (by simpa using hr)
  | app _ _ hf ha => exact .app (hf hξ hζ) (ha hξ hζ)
  | tlam _ ih =>
    refine .tlam (ih (fun r l hr => ?_) fun r u hr => ?_)
    · obtain rfl | ⟨r, rfl⟩ := r.zero_or_shift
      · exact hr
      · simpa using hξ r l (by simpa using hr)
    · obtain ⟨s, hs, rfl⟩ := Types.shift_eq_some.1 hr
      exact Types.shift_eq_some.2 ⟨_, hζ r s hs, Nameless.shift_rename ξ s⟩
  | tapp _ ha ih =>
    rw [Nameless.rename_inst]
    exact .tapp (ih hξ hζ) (ha.rename fun r l _ => hξ r l)
  | ann _ ih => exact .ann (ih hξ hζ)
  | conv _ hc hk ih => exact .conv (ih hξ hζ) (hc.rename ξ) (hk.rename fun r l _ => hξ r l)

/-- A renaming that keeps references apart brings no types: those of a renamed expression are its
own, renamed, up to conversion. -/
theorem of_rename {K' : Kinds} {G' : Types} {e : Term} {ξ ζ : Ref → Ref}
    (h : HasType K' G' (e.rename ξ ζ) t) (hinj : ∀ ⦃r s⦄, ξ r = ξ s → r = s)
    (hξ : ∀ r, K' (ξ r) = K r) (hζ : ∀ r, G' (ζ r) = (G r).map (Nameless.rename ξ)) :
    ∃ u, HasType K G e u ∧ Conv (u.rename ξ) t := by
  induction e generalizing K G K' G' ξ ζ t with
  | lit n => exact ⟨_, .lit n, h.lit_inv⟩
  | var r =>
    obtain ⟨s, hr, hk, hs⟩ := h.var_inv
    rw [hζ] at hr
    obtain ⟨u, hu, rfl⟩ := Option.map_eq_some_iff.1 hr
    exact ⟨u, .var hu (hk.of_rename hξ), hs⟩
  | lam s e ih =>
    obtain ⟨hs, v, hb, hv⟩ := h.lam_inv
    have hζ' (r : Ref) : G'.push (s.rename ξ) (Ref.lift ζ r) =
        (G.push s r).map (Nameless.rename ξ) := by
      obtain rfl | ⟨r, rfl⟩ := r.zero_or_shift
      · rfl
      · simp [hζ]
    obtain ⟨u, hu, huv⟩ := ih hb hinj hξ hζ'
    exact ⟨.arrow s u, .lam (hs.of_rename hξ) hu, (Conv.arrow (.refl _) huv).trans hv⟩
  | app f a hf ha =>
    obtain ⟨s, v, htf, hta, hv⟩ := h.app_inv
    obtain ⟨u, hu, huv⟩ := hf htf hinj hξ hζ
    -- the type of `f` is an arrow only after steps, which it takes before it is renamed
    obtain ⟨s', v', hsteps, hs', hv'⟩ := huv.arrow_of_rename
    have hf' : HasType K G f (.arrow s' v') := hu.conv (.of_steps hsteps) (hu.kinded.steps hsteps)
    obtain ⟨w, hw, hws⟩ := ha hta hinj hξ hζ
    have ha' : HasType K G a s' := by
      refine hw.conv (.of_rename hinj (hws.trans hs'.symm)) ?_
      cases hf'.kinded with
      | arrow hk _ => exact hk
    exact ⟨v', .app hf' ha', hv'.trans hv⟩
  | tlam k e ih =>
    obtain ⟨v, hb, hv⟩ := h.tlam_inv
    have hξ' (r : Ref) : K'.push k (Ref.lift ξ r) = K.push k r := by
      obtain rfl | ⟨r, rfl⟩ := r.zero_or_shift
      · rfl
      · simp [hξ]
    have hζ' (r : Ref) : G'.shift (ζ r) = (G.shift r).map (Nameless.rename (Ref.lift ξ)) := by
      simp [Types.shift, hζ, Function.comp_def, Nameless.shift_rename]
    obtain ⟨u, hu, huv⟩ := ih hb (Ref.lift_injective hinj) hξ' hζ'
    exact ⟨.bind .all k u, .tlam hu, (Conv.bind _ _ huv).trans hv⟩
  | tapp f a ih =>
    obtain ⟨k, v, htf, ha, hv⟩ := h.tapp_inv
    obtain ⟨u, hu, huv⟩ := ih htf hinj hξ hζ
    obtain ⟨v', hsteps, hv'⟩ := huv.bind_of_rename
    have hf' : HasType K G f (.bind .all k v') :=
      hu.conv (.of_steps hsteps) (hu.kinded.steps hsteps)
    refine ⟨v'.inst a, .tapp hf' (ha.of_rename hξ), ?_⟩
    rw [Nameless.rename_inst]
    exact (hv'.inst (.refl _)).trans hv
  | ann e s ih =>
    obtain ⟨hb, hs⟩ := h.ann_inv
    obtain ⟨u, hu, hus⟩ := ih hb hinj hξ hζ
    exact ⟨s, .ann (hu.conv (.of_rename hinj hus) (hb.kinded.of_rename hξ)), hs⟩

theorem shift {e : Term} (s : Nameless) (h : HasType K G e t) : HasType K (G.push s) e.shift t := by
  have hren : HasType K (G.push s) e.shift (t.rename id) :=
    h.rename (fun _ _ hr => hr) fun r u hr => by simpa using hr
  rwa [Nameless.rename_id] at hren

theorem shiftType {e : Term} (k : Kind) (h : HasType K G e t) :
    HasType (K.push k) G.shift e.shiftType t.shift :=
  h.rename (fun r l hr => by simpa using hr) fun r s hr => Types.shift_eq_some.2 ⟨s, hr, rfl⟩

/-- Typing is kept by substitutions of types of the right kinds and of values of the right types. -/
theorem subst {K' : Kinds} {G' : Types} {e : Term} {τ : Ref → Nameless} {σ : Ref → Term}
    (h : HasType K G e t) (hτ : ∀ r k, K r = some k → Kinded K' (τ r) k)
    (hσ : ∀ r s, G r = some s → Kinded K s .star → HasType K' G' (σ r) (s.subst τ)) :
    HasType K' G' (e.subst τ σ) (t.subst τ) := by
  induction h generalizing K' G' τ σ with
  | lit n => exact .lit n
  | var hr hk => exact hσ _ _ hr hk
  | lam hs _ ih =>
    have hs' := hs.subst fun r l _ => hτ r l
    refine .lam hs' (ih hτ fun r u hr hu => ?_)
    obtain rfl | ⟨r, rfl⟩ := r.zero_or_shift
    · obtain rfl := Option.some.inj hr
      exact .var rfl hs'
    · rw [up_shift]
      exact (hσ r u (by simpa using hr) hu).shift _
  | app _ _ hf ha => exact .app (hf hτ hσ) (ha hτ hσ)
  | @tlam _ _ k _ _ _ ih =>
    refine .tlam (ih (fun r l hr => ?_) fun r u hr hu => ?_)
    · obtain rfl | ⟨r, rfl⟩ := r.zero_or_shift
      · exact .var hr
      · rw [Nameless.up_shift]
        exact (hτ r l (by simpa using hr)).shift k
    · obtain ⟨s, hs, rfl⟩ := Types.shift_eq_some.1 hr
      rw [← Nameless.shift_subst]
      exact (hσ r s hs hu.of_shift).shiftType k
  | tapp _ ha ih =>
    rw [Nameless.subst_inst]
    exact .tapp (ih hτ hσ) (ha.subst fun r l _ => hτ r l)
  | ann _ ih => exact .ann (ih hτ hσ)
  | conv _ hc hk ih => exact .conv (ih hτ hσ) (hc.subst τ) (hk.subst fun r l _ => hτ r l)

/-- A value of the right type is put for the outermost binder. -/
theorem inst {e a : Term} {s : Nameless} (h : HasType K (G.push s) e t) (ha : HasType K G a s) :
    HasType K G (e.inst a) t := by
  have hsub : HasType K G (e.inst a) (t.subst Nameless.var) := by
    refine h.subst (fun _ _ hr => .var hr) fun r u hr hu => ?_
    rw [Nameless.subst_var]
    obtain rfl | ⟨r, rfl⟩ := r.zero_or_shift
    · obtain rfl := Option.some.inj hr
      exact ha
    · rw [single_shift]
      exact .var (by simpa using hr) hu
  rwa [Nameless.subst_var] at hsub

/-- A type of the right kind is put for the outermost binder, also in the type. -/
theorem instType {e : Term} {k : Kind} {a : Nameless} (h : HasType (K.push k) G.shift e t)
    (ha : Kinded K a k) : HasType K G (e.instType a) (t.inst a) := by
  refine h.subst (fun r l hr => ?_) fun r u hr hu => ?_
  · obtain rfl | ⟨r, rfl⟩ := r.zero_or_shift
    · obtain rfl := Option.some.inj hr
      exact ha
    · rw [Nameless.single_shift]
      exact .var (by simpa using hr)
  · obtain ⟨s, hs, rfl⟩ := Types.shift_eq_some.1 hr
    rw [show s.shift.subst (Nameless.single a) = s from Nameless.inst_shift s a]
    exact .var hs hu.of_shift

end HasType

end Term

end SystemFOmega
