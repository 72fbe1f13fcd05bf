import Mathlib.Logic.Relation
import SystemFOmega.Proofs.Nameless.Basic

/-!
# Reduction of nameless types

A step contracts one redex, an operator that is applied, anywhere in a type. Types that steps
connect, forwards or backwards, are convertible (`Nameless.Conv`): on nameless types this is
equality up to beta and alpha. Reduction is confluent (`Steps.join`), by parallel reduction and
complete developments, so convertible types have a common reduct (`conv_iff_join`) and the head of
an arrow or of a universal type is never lost (`Conv.arrow_inj`, `Conv.bind_inj`).
-/

namespace SystemFOmega.Nameless

open Relation

/-- Contracts one redex. -/
inductive Step : Nameless → Nameless → Prop
  | beta (k : Kind) (t a : Nameless) : Step (app (bind .lam k t) a) (t.inst a)
  | arrowLeft {s s' : Nameless} (t : Nameless) : Step s s' → Step (arrow s t) (arrow s' t)
  | arrowRight (s : Nameless) {t t' : Nameless} : Step t t' → Step (arrow s t) (arrow s t')
  | body (b : Binder) (k : Kind) {t t' : Nameless} : Step t t' → Step (bind b k t) (bind b k t')
  | fn {f f' : Nameless} (a : Nameless) : Step f f' → Step (app f a) (app f' a)
  | arg (f : Nameless) {a a' : Nameless} : Step a a' → Step (app f a) (app f a')

/-- Any number of steps. -/
abbrev Steps : Nameless → Nameless → Prop := ReflTransGen Step

/-- Equality up to beta. -/
def Conv : Nameless → Nameless → Prop := EqvGen Step

/-- No redex is left. -/
def Normal (t : Nameless) : Prop := ∀ u, ¬ Step t u

/-! ## Steps in context -/

theorem Steps.arrow {s s' t t' : Nameless} (hs : Steps s s') (ht : Steps t t') :
    Steps (arrow s t) (arrow s' t') :=
  (hs.lift (Nameless.arrow · t) fun _ _ => .arrowLeft t).trans
    (ht.lift (Nameless.arrow s') fun _ _ => .arrowRight s')

theorem Steps.bind (b : Binder) (k : Kind) {t t' : Nameless} (h : Steps t t') :
    Steps (bind b k t) (bind b k t') :=
  h.lift (Nameless.bind b k) fun _ _ => .body b k

theorem Steps.app {f f' a a' : Nameless} (hf : Steps f f') (ha : Steps a a') :
    Steps (app f a) (app f' a') :=
  (hf.lift (Nameless.app · a) fun _ _ => .fn a).trans (ha.lift (Nameless.app f') fun _ _ => .arg f')

/-- A step stays one when something is put for references. -/
theorem Step.subst {t u : Nameless} (h : Step t u) (σ : Ref → Nameless) :
    Step (t.subst σ) (u.subst σ) := by
  induction h generalizing σ with
  | beta k t a =>
    rw [subst_inst]
    exact .beta k _ _
  | arrowLeft t _ ih => exact .arrowLeft _ (ih σ)
  | arrowRight s _ ih => exact .arrowRight _ (ih σ)
  | body b k _ ih => exact .body b k (ih (up σ))
  | fn a _ ih => exact .fn _ (ih σ)
  | arg f _ ih => exact .arg _ (ih σ)

theorem Step.rename {t u : Nameless} (h : Step t u) (ξ : Ref → Ref) :
    Step (t.rename ξ) (u.rename ξ) := by
  rw [rename_eq_subst, rename_eq_subst]
  exact h.subst _

theorem Steps.subst {t u : Nameless} (h : Steps t u) (σ : Ref → Nameless) :
    Steps (t.subst σ) (u.subst σ) :=
  h.lift (Nameless.subst σ) fun _ _ h => h.subst σ

theorem Steps.rename {t u : Nameless} (h : Steps t u) (ξ : Ref → Ref) :
    Steps (t.rename ξ) (u.rename ξ) :=
  h.lift (Nameless.rename ξ) fun _ _ h => h.rename ξ

/-- A step brings in no references. -/
theorem Step.uses {t u : Nameless} {r : Ref} (h : Step t u) (hr : u.Uses r) : t.Uses r := by
  induction h generalizing r with
  | beta k t a =>
    obtain ⟨q, hq, hr⟩ := uses_subst hr
    obtain rfl | ⟨s, rfl⟩ := q.zero_or_shift
    · exact .inr hr
    · rw [single_shift] at hr
      obtain rfl : r = s := hr
      exact .inl hq
  | arrowLeft t _ ih | fn t _ ih => exact hr.imp_left ih
  | arrowRight s _ ih | arg s _ ih => exact hr.imp_right ih
  | body b k _ ih => exact ih hr

/-- Contraction brings no references in. -/
theorem Steps.uses {t u : Nameless} {r : Ref} (h : Steps t u) (hr : u.Uses r) : t.Uses r := by
  induction h with
  | refl => exact hr
  | tail _ hstep ih => exact ih (hstep.uses hr)

/-- Renaming makes no redexes. -/
theorem Step.of_rename {t v : Nameless} {ξ : Ref → Ref} (h : Step (t.rename ξ) v) :
    ∃ u, Step t u ∧ v = u.rename ξ := by
  induction t generalizing ξ v with
  | int => cases h
  | var r => cases h
  | arrow s t hs ht =>
    cases h with
    | arrowLeft _ h =>
      obtain ⟨u, hu, rfl⟩ := hs h
      exact ⟨_, .arrowLeft t hu, rfl⟩
    | arrowRight _ h =>
      obtain ⟨u, hu, rfl⟩ := ht h
      exact ⟨_, .arrowRight s hu, rfl⟩
  | bind b k t ht =>
    cases h with
    | body _ _ h =>
      obtain ⟨u, hu, rfl⟩ := ht h
      exact ⟨_, .body b k hu, rfl⟩
  | app f a hf ha =>
    rw [Nameless.rename] at h
    -- the function is an abstraction only if it was one before the renaming
    generalize hg : f.rename ξ = g at h
    cases h with
    | beta k t =>
      cases f with
      | bind b l t₀ =>
        obtain ⟨rfl, rfl, rfl⟩ := Nameless.bind.inj hg
        exact ⟨_, .beta l t₀ a, (rename_inst ξ t₀ a).symm⟩
      | _ => simp [Nameless.rename] at hg
    | fn _ h =>
      subst hg
      obtain ⟨u, hu, rfl⟩ := hf h
      exact ⟨_, .fn a hu, rfl⟩
    | arg _ h =>
      subst hg
      obtain ⟨u, hu, rfl⟩ := ha h
      exact ⟨_, .arg f hu, rfl⟩

/-- Steps from a renamed type are those of the type, renamed. -/
theorem Steps.of_rename {t v : Nameless} {ξ : Ref → Ref} (h : Steps (t.rename ξ) v) :
    ∃ u, Steps t u ∧ v = u.rename ξ := by
  induction h with
  | refl => exact ⟨t, .refl, rfl⟩
  | tail _ hs ih =>
    obtain ⟨u, hu, rfl⟩ := ih
    obtain ⟨w, hw, rfl⟩ := hs.of_rename
    exact ⟨w, hu.tail hw, rfl⟩

/-- What is put in may reduce wherever it is put. -/
theorem subst_steps {σ τ : Ref → Nameless} (h : ∀ r, Steps (σ r) (τ r)) (t : Nameless) :
    Steps (t.subst σ) (t.subst τ) := by
  induction t generalizing σ τ with
  | int => exact .refl
  | var r => exact h r
  | arrow s t hs ht => exact (hs h).arrow (ht h)
  | bind b k t ht =>
    refine (ht fun r => ?_).bind b k
    obtain rfl | ⟨s, rfl⟩ := r.zero_or_shift
    · exact .refl
    · rw [up_shift, up_shift]
      exact (h s).rename _
  | app f a hf ha => exact (hf h).app (ha h)

/-- Steps in what is put for a binder can be taken after it is put in. -/
theorem inst_steps (t : Nameless) {a a' : Nameless} (h : Steps a a') :
    Steps (t.inst a) (t.inst a') := by
  refine subst_steps (fun r => ?_) t
  obtain rfl | ⟨s, rfl⟩ := r.zero_or_shift
  · exact h
  · rw [single_shift, single_shift]

/-! ## Confluence -/

/-- Contracts some of the redexes of a type, all at once. -/
inductive Par : Nameless → Nameless → Prop
  | int : Par int int
  | var (r : Ref) : Par (var r) (var r)
  | arrow {s s' t t' : Nameless} : Par s s' → Par t t' → Par (arrow s t) (arrow s' t')
  | bind (b : Binder) (k : Kind) {t t' : Nameless} : Par t t' → Par (bind b k t) (bind b k t')
  | app {f f' a a' : Nameless} : Par f f' → Par a a' → Par (app f a) (app f' a')
  | beta (k : Kind) {t t' a a' : Nameless} : Par t t' → Par a a' →
    Par (app (bind .lam k t) a) (t'.inst a')

/-- Contracts all redexes of a type. -/
@[grind]
def develop : Nameless → Nameless
  | int => int
  | var r => var r
  | arrow s t => arrow s.develop t.develop
  | bind b k t => bind b k t.develop
  | app (bind .lam _ t) a => t.develop.inst a.develop
  | app f a => app f.develop a.develop

namespace Par

theorem refl (t : Nameless) : Par t t := by
  induction t with
  | int => exact .int
  | var r => exact .var r
  | arrow s t hs ht => exact .arrow hs ht
  | bind b k t ht => exact .bind b k ht
  | app f a hf ha => exact .app hf ha

/-- One step is a parallel step. -/
theorem of_step {t u : Nameless} (h : Step t u) : Par t u := by
  induction h with
  | beta k t a => exact .beta k (refl t) (refl a)
  | arrowLeft t _ ih => exact .arrow ih (refl t)
  | arrowRight s _ ih => exact .arrow (refl s) ih
  | body b k _ ih => exact .bind b k ih
  | fn a _ ih => exact .app ih (refl a)
  | arg f _ ih => exact .app (refl f) ih

/-- A parallel step is a number of steps. -/
theorem steps {t u : Nameless} (h : Par t u) : Steps t u := by
  induction h with
  | int => exact .refl
  | var r => exact .refl
  | arrow _ _ hs ht => exact hs.arrow ht
  | bind b k _ ht => exact ht.bind b k
  | app _ _ hf ha => exact hf.app ha
  | beta k _ _ ht ha => exact ((ht.bind .lam k).app ha).tail (.beta k _ _)

theorem rename {t u : Nameless} (h : Par t u) (ξ : Ref → Ref) : Par (t.rename ξ) (u.rename ξ) := by
  induction h generalizing ξ with
  | int => exact .int
  | var r => exact .var _
  | arrow _ _ hs ht => exact .arrow (hs ξ) (ht ξ)
  | bind b k _ ht => exact .bind b k (ht _)
  | app _ _ hf ha => exact .app (hf ξ) (ha ξ)
  | beta k _ _ ht ha =>
    rw [rename_inst]
    exact .beta k (ht _) (ha ξ)

/-- Parallel steps may be taken in a type and in everything that is put into it at once. -/
theorem subst {t u : Nameless} (h : Par t u) {σ τ : Ref → Nameless} (hσ : ∀ r, Par (σ r) (τ r)) :
    Par (t.subst σ) (u.subst τ) := by
  have hup {σ τ : Ref → Nameless} (hσ : ∀ r, Par (σ r) (τ r)) (r : Ref) :
      Par (up σ r) (up τ r) := by
    obtain rfl | ⟨s, rfl⟩ := r.zero_or_shift
    · exact .var _
    · rw [up_shift, up_shift]
      exact (hσ s).rename _
  induction h generalizing σ τ with
  | int => exact .int
  | var r => exact hσ r
  | arrow _ _ hs ht => exact .arrow (hs hσ) (ht hσ)
  | bind b k _ ht => exact .bind b k (ht (hup hσ))
  | app _ _ hf ha => exact .app (hf hσ) (ha hσ)
  | beta k _ _ ht ha =>
    rw [subst_inst]
    exact .beta k (ht (hup hσ)) (ha hσ)

theorem inst {t t' a a' : Nameless} (ht : Par t t') (ha : Par a a') :
    Par (t.inst a) (t'.inst a') := by
  refine ht.subst fun r => ?_
  obtain rfl | ⟨s, rfl⟩ := r.zero_or_shift
  · exact ha
  · rw [single_shift, single_shift]
    exact .var s

/-- Whatever is contracted, contracting all redexes of `t` comes after it. -/
theorem develop {t u : Nameless} (h : Par t u) : Par u t.develop := by
  induction h with
  | int => exact .int
  | var r => exact .var r
  | arrow _ _ hs ht => exact .arrow hs ht
  | bind b k _ ht => exact .bind b k ht
  | @app f f' a a' hf _ ihf iha =>
    -- only an operator in front makes a redex that `u` still has
    match f, hf, ihf with
    | .bind .lam k t, .bind _ _ _, ihf =>
      cases ihf with
      | bind _ _ ht => exact .beta k ht iha
    | .bind .all k t, _, ihf => exact .app ihf iha
    | .int, _, ihf | .var _, _, ihf | .arrow _ _, _, ihf | .app _ _, _, ihf => exact .app ihf iha
  | beta k _ _ ht ha => exact ht.inst ha

end Par

/-- Steps are parallel steps, one after the other. -/
theorem steps_iff_pars {t u : Nameless} : Steps t u ↔ ReflTransGen Par t u :=
  ⟨ReflTransGen.mono (fun _ _ => Par.of_step) t u,
    fun h => by
      induction h with
      | refl => exact .refl
      | tail _ hp ih => exact ih.trans hp.steps⟩

/-- Reduction is confluent. -/
theorem Steps.join {t u v : Nameless} (hu : Steps t u) (hv : Steps t v) :
    ∃ w, Steps u w ∧ Steps v w := by
  obtain ⟨w, huw, hvw⟩ := church_rosser
    (fun a b c (hb : Par a b) hc => ⟨a.develop, .single hb.develop, .single hc.develop⟩)
    (steps_iff_pars.1 hu) (steps_iff_pars.1 hv)
  exact ⟨w, steps_iff_pars.2 huw, steps_iff_pars.2 hvw⟩

/-! ## Convertible types -/

namespace Conv

theorem refl (t : Nameless) : Conv t t := EqvGen.refl t

theorem symm {s t : Nameless} (h : Conv s t) : Conv t s := EqvGen.symm _ _ h

theorem trans {s t u : Nameless} (h₁ : Conv s t) (h₂ : Conv t u) : Conv s u :=
  EqvGen.trans _ _ _ h₁ h₂

theorem of_steps {s t : Nameless} (h : Steps s t) : Conv s t :=
  EqvGen.reflTransGen_le_eqvGen _ s t h

end Conv

/-- Two types are convertible just if steps lead from both to one type. -/
theorem conv_iff_join {s t : Nameless} : Conv s t ↔ ∃ u, Steps s u ∧ Steps t u := by
  constructor
  · intro h
    induction h with
    | rel s t h => exact ⟨t, .single h, .refl⟩
    | refl t => exact ⟨t, .refl, .refl⟩
    | symm s t _ ih =>
      obtain ⟨u, hs, ht⟩ := ih
      exact ⟨u, ht, hs⟩
    | trans s t v _ _ ih₁ ih₂ =>
      obtain ⟨u₁, hs, ht₁⟩ := ih₁
      obtain ⟨u₂, ht₂, hv⟩ := ih₂
      obtain ⟨w, h₁, h₂⟩ := ht₁.join ht₂
      exact ⟨w, hs.trans h₁, hv.trans h₂⟩
  · rintro ⟨u, hs, ht⟩
    exact (Conv.of_steps hs).trans (Conv.of_steps ht).symm

namespace Conv

theorem arrow {s s' t t' : Nameless} (hs : Conv s s') (ht : Conv t t') :
    Conv (arrow s t) (arrow s' t') := by
  obtain ⟨u, h₁, h₂⟩ := conv_iff_join.1 hs
  obtain ⟨v, h₃, h₄⟩ := conv_iff_join.1 ht
  exact conv_iff_join.2 ⟨_, h₁.arrow h₃, h₂.arrow h₄⟩

theorem bind (b : Binder) (k : Kind) {t t' : Nameless} (h : Conv t t') :
    Conv (bind b k t) (bind b k t') := by
  obtain ⟨u, h₁, h₂⟩ := conv_iff_join.1 h
  exact conv_iff_join.2 ⟨_, h₁.bind b k, h₂.bind b k⟩

theorem app {f f' a a' : Nameless} (hf : Conv f f') (ha : Conv a a') :
    Conv (app f a) (app f' a') := by
  obtain ⟨u, h₁, h₂⟩ := conv_iff_join.1 hf
  obtain ⟨v, h₃, h₄⟩ := conv_iff_join.1 ha
  exact conv_iff_join.2 ⟨_, h₁.app h₃, h₂.app h₄⟩

theorem subst {s t : Nameless} (h : Conv s t) (σ : Ref → Nameless) :
    Conv (s.subst σ) (t.subst σ) := by
  obtain ⟨u, h₁, h₂⟩ := conv_iff_join.1 h
  exact conv_iff_join.2 ⟨_, h₁.subst σ, h₂.subst σ⟩

theorem rename {s t : Nameless} (h : Conv s t) (ξ : Ref → Ref) :
    Conv (s.rename ξ) (t.rename ξ) := by
  rw [rename_eq_subst, rename_eq_subst]
  exact h.subst _

/-- Different references stay different, so that nothing becomes convertible. -/
theorem of_rename {s t : Nameless} {ξ : Ref → Ref} (hξ : ∀ ⦃r s⦄, ξ r = ξ s → r = s)
    (h : Conv (s.rename ξ) (t.rename ξ)) : Conv s t := by
  obtain ⟨u, h₁, h₂⟩ := conv_iff_join.1 h
  obtain ⟨v, hv, rfl⟩ := h₁.of_rename
  obtain ⟨w, hw, he⟩ := h₂.of_rename
  obtain rfl := rename_injective hξ he
  exact conv_iff_join.2 ⟨v, hv, hw⟩

theorem inst {t t' a a' : Nameless} (ht : Conv t t') (ha : Conv a a') :
    Conv (t.inst a) (t'.inst a') := by
  obtain ⟨u, h₁, h₂⟩ := conv_iff_join.1 ha
  refine (ht.subst (single a)).trans (conv_iff_join.2 ⟨t'.inst u, ?_, inst_steps t' h₂⟩)
  exact inst_steps t' h₁

end Conv

/-! ## Heads that steps keep -/

theorem Steps.int_inv {u : Nameless} (h : Steps int u) : u = int := by
  induction h with
  | refl => rfl
  | tail _ hs ih =>
    subst ih
    cases hs

/-- Steps from an arrow stay in its parts. -/
theorem Steps.arrow_inv {s t u : Nameless} (h : Steps (Nameless.arrow s t) u) :
    ∃ s' t', u = Nameless.arrow s' t' ∧ Steps s s' ∧ Steps t t' := by
  induction h with
  | refl => exact ⟨s, t, rfl, .refl, .refl⟩
  | tail _ hstep ih =>
    obtain ⟨s', t', rfl, hs, ht⟩ := ih
    cases hstep with
    | arrowLeft _ h => exact ⟨_, t', rfl, hs.tail h, ht⟩
    | arrowRight _ h => exact ⟨s', _, rfl, hs, ht.tail h⟩

/-- Steps from a binder stay in its body. -/
theorem Steps.bind_inv {b : Binder} {k : Kind} {t u : Nameless}
    (h : Steps (Nameless.bind b k t) u) : ∃ t', u = Nameless.bind b k t' ∧ Steps t t' := by
  induction h with
  | refl => exact ⟨t, rfl, .refl⟩
  | tail _ hstep ih =>
    obtain ⟨t', rfl, ht⟩ := ih
    cases hstep with
    | body _ _ h => exact ⟨_, rfl, ht.tail h⟩

/-- Arrows are convertible only if their parts are. -/
theorem Conv.arrow_inj {s t s' t' : Nameless}
    (h : Conv (Nameless.arrow s t) (Nameless.arrow s' t')) : Conv s s' ∧ Conv t t' := by
  obtain ⟨u, h₁, h₂⟩ := conv_iff_join.1 h
  obtain ⟨v, w, rfl, hs, ht⟩ := h₁.arrow_inv
  obtain ⟨v', w', he, hs', ht'⟩ := h₂.arrow_inv
  obtain ⟨rfl, rfl⟩ := Nameless.arrow.inj he
  exact ⟨conv_iff_join.2 ⟨v, hs, hs'⟩, conv_iff_join.2 ⟨w, ht, ht'⟩⟩

/-- Binders are convertible only if they are of one sort and one kind and their bodies are
convertible. -/
theorem Conv.bind_inj {b b' : Binder} {k k' : Kind} {t t' : Nameless}
    (h : Conv (Nameless.bind b k t) (Nameless.bind b' k' t')) : b = b' ∧ k = k' ∧ Conv t t' := by
  obtain ⟨u, h₁, h₂⟩ := conv_iff_join.1 h
  obtain ⟨v, rfl, ht⟩ := h₁.bind_inv
  obtain ⟨v', he, ht'⟩ := h₂.bind_inv
  obtain ⟨rfl, rfl, rfl⟩ := Nameless.bind.inj he
  exact ⟨rfl, rfl, conv_iff_join.2 ⟨v, ht, ht'⟩⟩

/-- A renamed type that is convertible to an arrow was so before. -/
theorem Conv.arrow_of_rename {u s t : Nameless} {ξ : Ref → Ref}
    (h : Conv (u.rename ξ) (Nameless.arrow s t)) :
    ∃ s' t', Steps u (Nameless.arrow s' t') ∧ Conv (s'.rename ξ) s ∧ Conv (t'.rename ξ) t := by
  obtain ⟨v, h₁, h₂⟩ := conv_iff_join.1 h
  obtain ⟨s₁, t₁, rfl, hs, ht⟩ := h₂.arrow_inv
  obtain ⟨u', hu, he⟩ := h₁.of_rename
  cases u' with
  | arrow s' t' =>
    obtain ⟨rfl, rfl⟩ := Nameless.arrow.inj he
    exact ⟨s', t', hu, (Conv.of_steps hs).symm, (Conv.of_steps ht).symm⟩
  | _ => cases he

/-- If a renamed type is convertible to a binder, then steps lead from the type to one. -/
theorem Conv.bind_of_rename {u t : Nameless} {b : Binder} {k : Kind} {ξ : Ref → Ref}
    (h : Conv (u.rename ξ) (Nameless.bind b k t)) :
    ∃ t', Steps u (Nameless.bind b k t') ∧ Conv (t'.rename (Ref.lift ξ)) t := by
  obtain ⟨v, h₁, h₂⟩ := conv_iff_join.1 h
  obtain ⟨t₁, rfl, ht⟩ := h₂.bind_inv
  obtain ⟨u', hu, he⟩ := h₁.of_rename
  cases u' with
  | bind b' k' t' =>
    obtain ⟨rfl, rfl, rfl⟩ := Nameless.bind.inj he
    exact ⟨t', hu, (Conv.of_steps ht).symm⟩
  | _ => cases he

theorem not_conv_int_arrow (s t : Nameless) : ¬ Conv int (Nameless.arrow s t) := by
  intro h
  obtain ⟨u, h₁, h₂⟩ := conv_iff_join.1 h
  obtain rfl := h₁.int_inv
  obtain ⟨_, _, he, _⟩ := h₂.arrow_inv
  cases he

theorem not_conv_int_bind (b : Binder) (k : Kind) (t : Nameless) :
    ¬ Conv int (Nameless.bind b k t) := by
  intro h
  obtain ⟨u, h₁, h₂⟩ := conv_iff_join.1 h
  obtain rfl := h₁.int_inv
  obtain ⟨_, he, _⟩ := h₂.bind_inv
  cases he

theorem not_conv_arrow_bind (s t : Nameless) (b : Binder) (k : Kind) (u : Nameless) :
    ¬ Conv (Nameless.arrow s t) (Nameless.bind b k u) := by
  intro h
  obtain ⟨v, h₁, h₂⟩ := conv_iff_join.1 h
  obtain ⟨_, _, rfl, _⟩ := h₁.arrow_inv
  obtain ⟨_, he, _⟩ := h₂.bind_inv
  cases he

/-! ## Normal types -/

theorem Normal.eq_of_steps {t u : Nameless} (ht : Normal t) (h : Steps t u) : u = t := by
  cases h.cases_head with
  | inl h => exact h.symm
  | inr h =>
    obtain ⟨v, hv, -⟩ := h
    exact absurd hv (ht v)

/-- What a type that is convertible to a normal type reduces to. -/
theorem Normal.steps_of_conv {s t : Nameless} (ht : Normal t) (h : Conv s t) : Steps s t := by
  obtain ⟨u, h₁, h₂⟩ := conv_iff_join.1 h
  rwa [ht.eq_of_steps h₂] at h₁

theorem Normal.arrow_left {s t : Nameless} (h : Normal (Nameless.arrow s t)) : Normal s :=
  fun _ hs => h _ (.arrowLeft t hs)

theorem Normal.rename {t : Nameless} (ht : Normal t) (ξ : Ref → Ref) : Normal (t.rename ξ) := by
  intro v hv
  obtain ⟨u, hu, -⟩ := hv.of_rename
  exact ht u hu

/-- Normal forms that are convertible are the same. -/
theorem Normal.eq_of_conv {s t : Nameless} (hs : Normal s) (ht : Normal t) (h : Conv s t) : s = t :=
  (hs.eq_of_steps (ht.steps_of_conv h)).symm

end SystemFOmega.Nameless
