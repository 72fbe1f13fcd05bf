import Mathlib.Logic.Relation
import SystemFOmega.Proofs.Skeleton.Basic

/-!
# Reduction of skeletons

Three rules contract a skeleton at its root: an abstraction that is applied, at the level of
expressions or of types, takes its argument (`Contract.beta`), a definition of a value, type or kind
is inlined (`Contract.inline`), and an annotation is dropped (`Contract.erase`). A step contracts
one part, at any position.

The rules do not overlap, so contracting any set of redexes at once (`Par`) is always followed by
contracting them all (`develop`), and reduction is confluent (`Steps.join`). Its normal forms are
unique (`Steps.unique`).
-/

namespace SystemFOmega.Skeleton

open Relation

/-- The abstraction that an application is contracted with. -/
def Pairing.operator : Pairing → Option Scoping
  | .app => some .lam
  | .tapp => some .tlam
  | _ => none

/-- Whether the first part is what the bound name stands for. -/
def Scoping.defines : Scoping → Bool
  | .letIn | .typeIn | .kindIn => true
  | _ => false

/-- Contracts a skeleton at its root. -/
inductive Contract : Skeleton → Skeleton → Prop
  | beta {o : Pairing} {s : Scoping} (h : o.operator = some s) (t e a : Skeleton) :
    Contract (pair o (bind s t e) a) (e.inst s.level a)
  | inline {s : Scoping} (h : s.defines) (v e : Skeleton) :
    Contract (bind s v e) (e.inst s.level v)
  | erase (e t : Skeleton) : Contract (pair .ann e t) e

/-- Contracts one part of a skeleton. -/
inductive Step : Skeleton → Skeleton → Prop
  | root {t u : Skeleton} : Contract t u → Step t u
  | left (o : Pairing) {a a' : Skeleton} (b : Skeleton) : Step a a' →
    Step (pair o a b) (pair o a' b)
  | right (o : Pairing) (a : Skeleton) {b b' : Skeleton} : Step b b' →
    Step (pair o a b) (pair o a b')
  | outer (s : Scoping) {a a' : Skeleton} (b : Skeleton) : Step a a' →
    Step (bind s a b) (bind s a' b)
  | body (s : Scoping) (a : Skeleton) {b b' : Skeleton} : Step b b' →
    Step (bind s a b) (bind s a b')

/-- Any number of steps. -/
abbrev Steps : Skeleton → Skeleton → Prop := ReflTransGen Step

/-- No part can be contracted. -/
def Normal (t : Skeleton) : Prop := ∀ u, ¬ Step t u

/-- What can be applied defines nothing: the rules do not overlap. -/
theorem Pairing.not_defines {o : Pairing} {s : Scoping} (h : o.operator = some s) :
    s.defines = false := by
  cases o <;> cases h <;> rfl

/-- A pair is contracted by the abstraction that is its first part, or is an annotation. -/
theorem Contract.pair_inv {o : Pairing} {f a u : Skeleton} (h : Contract (pair o f a) u) :
    (∃ s t e, o.operator = some s ∧ f = bind s t e ∧ u = e.inst s.level a) ∨ o = .ann ∧ u = f := by
  cases h with
  | beta h t e => exact .inl ⟨_, t, e, h, rfl, rfl⟩
  | erase => exact .inr ⟨rfl, rfl⟩

/-- A redex has one contractum. -/
theorem Contract.unique {t u v : Skeleton} (hu : Contract t u) (hv : Contract t v) : u = v := by
  cases hu with
  | beta h t e a =>
    cases hv with
    | beta => rfl
    | erase => cases h
  | inline h v e =>
    cases hv with
    | inline => rfl
  | erase =>
    cases hv with
    | beta h => cases h
    | erase => rfl

/-! ## Steps in context -/

theorem Steps.pair (o : Pairing) {a a' b b' : Skeleton} (ha : Steps a a') (hb : Steps b b') :
    Steps (pair o a b) (pair o a' b') :=
  (ha.lift (Skeleton.pair o · b) fun _ _ => .left o b).trans
    (hb.lift (Skeleton.pair o a') fun _ _ => .right o a')

theorem Steps.bind (s : Scoping) {a a' b b' : Skeleton} (ha : Steps a a') (hb : Steps b b') :
    Steps (bind s a b) (bind s a' b') :=
  (ha.lift (Skeleton.bind s · b) fun _ _ => .outer s b).trans
    (hb.lift (Skeleton.bind s a') fun _ _ => .body s a')

/-- A redex stays one when something is put for references. -/
theorem Contract.subst {t u : Skeleton} (h : Contract t u) (σ : Mark → Skeleton) :
    Contract (t.subst σ) (u.subst σ) := by
  cases h with
  | beta h t e a =>
    rw [subst_inst]
    exact .beta h _ _ _
  | inline h v e =>
    rw [subst_inst]
    exact .inline h _ _
  | erase e t => exact .erase _ _

theorem Step.subst {t u : Skeleton} (h : Step t u) (σ : Mark → Skeleton) :
    Step (t.subst σ) (u.subst σ) := by
  induction h generalizing σ with
  | root h => exact .root (h.subst σ)
  | left o b _ ih => exact .left o _ (ih σ)
  | right o a _ ih => exact .right o _ (ih σ)
  | outer s b _ ih => exact .outer s _ (ih σ)
  | body s a _ ih => exact .body s _ (ih _)

theorem Step.rename {t u : Skeleton} (h : Step t u) (ξ : Mark → Mark) :
    Step (t.rename ξ) (u.rename ξ) := by
  rw [rename_eq_subst, rename_eq_subst]
  exact h.subst _

/-- Contraction brings no references in. -/
theorem Contract.uses {t u : Skeleton} {r : Mark} (h : Contract t u) (hr : u.Uses r) :
    t.Uses r := by
  cases h with
  | beta h t e a =>
    rcases uses_inst hr with hr | hr
    · exact .inl (.inr hr)
    · exact .inr hr
  | inline h v e => exact (uses_inst hr).symm
  | erase e t => exact .inl hr

/-- A step brings in no references. -/
theorem Step.uses {t u : Skeleton} {r : Mark} (h : Step t u) (hr : u.Uses r) : t.Uses r := by
  induction h generalizing r with
  | root h => exact h.uses hr
  | left _ _ _ ih | outer _ _ _ ih => exact hr.imp_left ih
  | right _ _ _ ih | body _ _ _ ih => exact hr.imp_right ih

theorem Steps.uses {t u : Skeleton} {r : Mark} (h : Steps t u) (hr : u.Uses r) : t.Uses r := by
  induction h with
  | refl => exact hr
  | tail _ hstep ih => exact ih (hstep.uses hr)

/-- Renaming makes no redexes. -/
theorem Contract.of_rename {t v : Skeleton} {ξ : Mark → Mark} (h : Contract (t.rename ξ) v) :
    ∃ u, Contract t u ∧ v = u.rename ξ := by
  cases t with
  | leaf c => cases h
  | ref r => cases h
  | pair o f a =>
    rw [Skeleton.rename] at h
    generalize hg : f.rename ξ = g at h
    cases h with
    | beta h t e =>
      cases f with
      | bind s t₀ e₀ =>
        obtain ⟨rfl, rfl, rfl⟩ := Skeleton.bind.inj hg
        exact ⟨_, .beta h t₀ e₀ a, (rename_inst _ ξ a e₀).symm⟩
      | _ => simp [Skeleton.rename] at hg
    | erase e t => exact ⟨f, .erase f a, hg.symm⟩
  | bind s a e =>
    cases h with
    | inline h => exact ⟨_, .inline h a e, (rename_inst _ ξ a e).symm⟩

/-- A step from a renamed phrase is one of the phrase, renamed. -/
theorem Step.of_rename {t v : Skeleton} {ξ : Mark → Mark} (h : Step (t.rename ξ) v) :
    ∃ u, Step t u ∧ v = u.rename ξ := by
  induction t generalizing ξ v with
  | leaf c =>
    cases h with
    | root h => cases h
  | ref r =>
    cases h with
    | root h => cases h
  | pair o a b ha hb =>
    cases h with
    | root h =>
      obtain ⟨u, hu, rfl⟩ := Contract.of_rename h
      exact ⟨u, .root hu, rfl⟩
    | left _ _ h =>
      obtain ⟨u, hu, rfl⟩ := ha h
      exact ⟨_, .left o b hu, rfl⟩
    | right _ _ h =>
      obtain ⟨u, hu, rfl⟩ := hb h
      exact ⟨_, .right o a hu, rfl⟩
  | bind s a b ha hb =>
    cases h with
    | root h =>
      obtain ⟨u, hu, rfl⟩ := Contract.of_rename h
      exact ⟨u, .root hu, rfl⟩
    | outer _ _ h =>
      obtain ⟨u, hu, rfl⟩ := ha h
      exact ⟨_, .outer s b hu, rfl⟩
    | body _ _ h =>
      obtain ⟨u, hu, rfl⟩ := hb h
      exact ⟨_, .body s a hu, rfl⟩

/-- An abstraction stays one, whatever is contracted in it. -/
theorem Steps.abstraction {s : Scoping} (hs : s.defines = false) {a e u : Skeleton}
    (h : Steps (.bind s a e) u) : ∃ a' e', u = .bind s a' e' := by
  induction h with
  | refl => exact ⟨a, e, rfl⟩
  | tail _ hstep ih =>
    obtain ⟨a', e', rfl⟩ := ih
    cases hstep with
    | root h =>
      cases h with
      | inline h => simp [hs] at h
    | outer _ _ h => exact ⟨_, _, rfl⟩
    | body _ _ h => exact ⟨_, _, rfl⟩

theorem Steps.eq_of_normal {t u : Skeleton} (h : Steps t u) (ht : t.Normal) : u = t := by
  rcases h.cases_head with rfl | ⟨w, hw, -⟩
  · rfl
  · exact absurd hw (ht w)

/-! ## Confluence -/

/-- Contracts some of the redexes of a skeleton, all at once. -/
inductive Par : Skeleton → Skeleton → Prop
  | leaf (c : Leaf) : Par (leaf c) (leaf c)
  | ref (r : Mark) : Par (ref r) (ref r)
  | pair (o : Pairing) {a a' b b' : Skeleton} : Par a a' → Par b b' →
    Par (pair o a b) (pair o a' b')
  | bind (s : Scoping) {a a' b b' : Skeleton} : Par a a' → Par b b' →
    Par (bind s a b) (bind s a' b')
  | beta {o : Pairing} {s : Scoping} (h : o.operator = some s) (t : Skeleton)
    {e e' a a' : Skeleton} : Par e e' → Par a a' → Par (pair o (bind s t e) a) (e'.inst s.level a')
  | inline {s : Scoping} (h : s.defines) {v v' e e' : Skeleton} : Par v v' → Par e e' →
    Par (bind s v e) (e'.inst s.level v')
  | erase (t : Skeleton) {e e' : Skeleton} : Par e e' → Par (pair .ann e t) e'

/-- Contracts all redexes of a skeleton. -/
def develop : Skeleton → Skeleton
  | leaf c => leaf c
  | ref r => ref r
  | pair .ann e _ => e.develop
  | pair o (bind s t e) a =>
    if o.operator = some s then e.develop.inst s.level a.develop
    else pair o (bind s t e).develop a.develop
  | pair o a b => pair o a.develop b.develop
  | bind s a e =>
    if s.defines then e.develop.inst s.level a.develop else bind s a.develop e.develop

/-- A complete development contracts a redex after its parts. -/
theorem develop_beta {o : Pairing} {s : Scoping} (h : o.operator = some s) (t e a : Skeleton) :
    (pair o (bind s t e) a).develop = e.develop.inst s.level a.develop := by
  have ho : o ≠ .ann := by
    rintro rfl
    cases h
  simp [develop, h]

theorem develop_pair {o : Pairing} {a : Skeleton} (b : Skeleton) (ho : o ≠ .ann)
    (h : ∀ s t e, a = bind s t e → o.operator ≠ some s) :
    (pair o a b).develop = pair o a.develop b.develop := by
  cases a with
  | bind s t e => simp [develop, h s t e rfl]
  | _ => simp [develop]

namespace Par

theorem refl (t : Skeleton) : Par t t := by
  induction t with
  | leaf c => exact .leaf c
  | ref r => exact .ref r
  | pair o a b ha hb => exact .pair o ha hb
  | bind s a b ha hb => exact .bind s ha hb

/-- One step is a parallel step. -/
theorem of_step {t u : Skeleton} (h : Step t u) : Par t u := by
  induction h with
  | root h =>
    cases h with
    | beta h t e a => exact .beta h t (refl e) (refl a)
    | inline h v e => exact .inline h (refl v) (refl e)
    | erase _ t => exact .erase t (refl _)
  | left o b _ ih => exact .pair o ih (refl b)
  | right o a _ ih => exact .pair o (refl a) ih
  | outer s b _ ih => exact .bind s ih (refl b)
  | body s a _ ih => exact .bind s (refl a) ih

/-- A parallel step is a number of steps. -/
theorem steps {t u : Skeleton} (h : Par t u) : Steps t u := by
  induction h with
  | leaf c => exact .refl
  | ref r => exact .refl
  | pair o _ _ ha hb => exact ha.pair o hb
  | bind s _ _ ha hb => exact ha.bind s hb
  | beta h t _ _ he ha =>
    exact (Steps.pair _ (Steps.bind _ .refl he) ha).tail (.root (.beta h t _ _))
  | inline h _ _ hv he => exact (hv.bind _ he).tail (.root (.inline h _ _))
  | erase t _ he => exact .head (.root (.erase _ t)) he

theorem rename {t u : Skeleton} (h : Par t u) (ξ : Mark → Mark) :
    Par (t.rename ξ) (u.rename ξ) := by
  induction h generalizing ξ with
  | leaf c => exact .leaf c
  | ref r => exact .ref _
  | pair o _ _ ha hb => exact .pair o (ha ξ) (hb ξ)
  | bind s _ _ ha hb => exact .bind s (ha ξ) (hb _)
  | beta h t _ _ he ha =>
    rw [rename_inst]
    exact .beta h _ (he _) (ha ξ)
  | inline h _ _ hv he =>
    rw [rename_inst]
    exact .inline h (hv ξ) (he _)
  | erase t _ he => exact .erase _ (he ξ)

theorem up {σ τ : Mark → Skeleton} (h : ∀ r, Par (σ r) (τ r)) (l : Level) (r : Mark) :
    Par (up l σ r) (up l τ r) :=
  up_related .ref (fun _ _ h => h.rename _) h r

/-- Parallel steps may be taken in a phrase and in everything that is put into it at once. -/
theorem subst {t u : Skeleton} (h : Par t u) {σ τ : Mark → Skeleton} (hσ : ∀ r, Par (σ r) (τ r)) :
    Par (t.subst σ) (u.subst τ) := by
  induction h generalizing σ τ with
  | leaf c => exact .leaf c
  | ref r => exact hσ r
  | pair o _ _ ha hb => exact .pair o (ha hσ) (hb hσ)
  | bind s _ _ ha hb => exact .bind s (ha hσ) (hb (up hσ s.level))
  | @beta o s h t _ _ _ _ _ _ he ha =>
    rw [subst_inst]
    exact .beta h _ (he (up hσ s.level)) (ha hσ)
  | @inline s h _ _ _ _ _ _ hv he =>
    rw [subst_inst]
    exact .inline h (hv hσ) (he (up hσ s.level))
  | erase t _ he => exact .erase _ (he hσ)

theorem inst {t t' a a' : Skeleton} (l : Level) (ht : Par t t') (ha : Par a a') :
    Par (t.inst l a) (t'.inst l a') :=
  ht.subst (single_related .ref ha)

/-- Only the parts of an abstraction are contracted. -/
theorem of_abstraction {s : Scoping} (hs : s.defines = false) {a e u : Skeleton}
    (h : Par (Skeleton.bind s a e) u) :
    ∃ a' e', u = Skeleton.bind s a' e' ∧ Par a a' ∧ Par e e' := by
  cases h with
  | bind _ ha he => exact ⟨_, _, rfl, ha, he⟩
  | inline h => simp [hs] at h

/-- Whatever is contracted, contracting all redexes of `t` comes after it. -/
theorem develop {t u : Skeleton} (h : Par t u) : Par u t.develop := by
  induction h with
  | leaf c => exact .leaf c
  | ref r => exact .ref r
  | @pair o a a' b b' ha hb iha ihb =>
    -- the redexes at the root that `u` still has
    by_cases ho : o = .ann
    · subst ho
      exact .erase b' iha
    by_cases hβ : ∃ s t e, a = Skeleton.bind s t e ∧ o.operator = some s
    · obtain ⟨s, t, e, rfl, h⟩ := hβ
      have hs := Pairing.not_defines h
      obtain ⟨t', e', rfl, -, -⟩ := ha.of_abstraction hs
      rw [Skeleton.develop, if_neg (by simp [hs])] at iha
      obtain ⟨_, _, heq, -, he⟩ := iha.of_abstraction hs
      obtain ⟨-, -, rfl⟩ := Skeleton.bind.inj heq
      rw [develop_beta h]
      exact .beta h t' he ihb
    · rw [develop_pair b ho fun s t e ha h => hβ ⟨s, t, e, ha, h⟩]
      exact .pair o iha ihb
  | @bind s a a' e e' _ _ iha ihe =>
    rw [Skeleton.develop]
    split
    case isTrue h => exact .inline h iha ihe
    case isFalse => exact .bind s iha ihe
  | @beta o s h t e e' a a' _ _ ihe iha =>
    rw [develop_beta h]
    exact ihe.inst s.level iha
  | @inline s h v v' e e' _ _ ihv ihe =>
    rw [Skeleton.develop, if_pos h]
    exact ihe.inst s.level ihv
  | erase t _ ihe => exact ihe

end Par

/-- Steps are parallel steps, one after the other. -/
theorem steps_iff_pars {t u : Skeleton} : Steps t u ↔ ReflTransGen Par t u :=
  ⟨ReflTransGen.mono (fun _ _ => Par.of_step) t u,
    fun h => by
      induction h with
      | refl => exact .refl
      | tail _ hp ih => exact ih.trans hp.steps⟩

/-- Steps from one skeleton can be brought together again. -/
theorem Steps.join {t u v : Skeleton} (hu : Steps t u) (hv : Steps t v) :
    ∃ w, Steps u w ∧ Steps v w := by
  obtain ⟨w, huw, hvw⟩ := church_rosser (r := Par)
    (fun a b c hab hac => ⟨a.develop, .single hab.develop, .single hac.develop⟩)
    (steps_iff_pars.1 hu) (steps_iff_pars.1 hv)
  exact ⟨w, steps_iff_pars.2 huw, steps_iff_pars.2 hvw⟩

/-- All ways to a normal form end in the same one. -/
theorem Steps.unique {t u v : Skeleton} (hu : Steps t u) (hv : Steps t v) (hun : u.Normal)
    (hvn : v.Normal) : u = v := by
  obtain ⟨w, huw, hvw⟩ := hu.join hv
  rw [← huw.eq_of_normal hun, hvw.eq_of_normal hvn]

end SystemFOmega.Skeleton
