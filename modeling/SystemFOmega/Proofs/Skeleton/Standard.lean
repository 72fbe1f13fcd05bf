import SystemFOmega.Proofs.Skeleton.Reduction

/-!
# Leftmost reduction finds the normal form

A skeleton's head is its root or, in an application that is not contracted, the head of what is
applied. Any steps can be put in a standard order (`Standard`): first at the head, until the
outermost form of the result is there, then in its parts, each in a standard order again. Such a
list of steps can be followed by one more step anywhere (`Standard.tail`), so it can do what any
steps do (`Steps.standard`). When nothing is left to contract at its end, it contracts the leftmost
redex at every step (`Standard.leftmosts`).
-/

namespace SystemFOmega.Skeleton

open Relation

/-- Contracts the head. -/
inductive Head : Skeleton → Skeleton → Prop
  | root {t u : Skeleton} : Contract t u → Head t u
  | fn {o : Pairing} (h : o.operator.isSome) {f f' : Skeleton} (a : Skeleton) : Head f f' →
    Head (pair o f a) (pair o f' a)

/-- Any number of steps at the head. -/
abbrev Heads : Skeleton → Skeleton → Prop := ReflTransGen Head

/-- Steps in the standard order: at the head first, then inside what has come to stand there. -/
inductive Standard : Skeleton → Skeleton → Prop
  | leaf {t : Skeleton} (c : Leaf) : Heads t (leaf c) → Standard t (leaf c)
  | ref {t : Skeleton} (r : Mark) : Heads t (ref r) → Standard t (ref r)
  | pair {t : Skeleton} (o : Pairing) {a a' b b' : Skeleton} : Heads t (pair o a b) →
    Standard a a' → Standard b b' → Standard t (pair o a' b')
  | bind {t : Skeleton} (s : Scoping) {a a' b b' : Skeleton} : Heads t (bind s a b) →
    Standard a a' → Standard b b' → Standard t (bind s a' b')

/-- Contracts the redex that starts furthest to the left: the whole before its parts, and the first
part before the second. -/
inductive Leftmost : Skeleton → Skeleton → Prop
  | root {t u : Skeleton} : Contract t u → Leftmost t u
  | left {o : Pairing} {a a' b : Skeleton} (h : ∀ u, ¬ Contract (pair o a b) u) : Leftmost a a' →
    Leftmost (pair o a b) (pair o a' b)
  | right {o : Pairing} {a b b' : Skeleton} (h : ∀ u, ¬ Contract (pair o a b) u) (ha : a.Normal) :
    Leftmost b b' → Leftmost (pair o a b) (pair o a b')
  | outer {s : Scoping} {a a' b : Skeleton} (h : ∀ u, ¬ Contract (bind s a b) u) : Leftmost a a' →
    Leftmost (bind s a b) (bind s a' b)
  | body {s : Scoping} {a b b' : Skeleton} (h : ∀ u, ¬ Contract (bind s a b) u) (ha : a.Normal) :
    Leftmost b b' → Leftmost (bind s a b) (bind s a b')

/-! ## The head -/

/-- The head stays one when something is put for references. -/
theorem Head.subst {t u : Skeleton} (h : Head t u) (σ : Mark → Skeleton) :
    Head (t.subst σ) (u.subst σ) := by
  induction h with
  | root h => exact .root (h.subst σ)
  | fn h a _ ih => exact .fn h _ ih

theorem Heads.subst {t u : Skeleton} (h : Heads t u) (σ : Mark → Skeleton) :
    Heads (t.subst σ) (u.subst σ) :=
  h.lift (Skeleton.subst σ) fun _ _ h => h.subst σ

theorem Heads.fn {o : Pairing} (h : o.operator.isSome) {f f' : Skeleton} (a : Skeleton)
    (hf : Heads f f') : Heads (pair o f a) (pair o f' a) :=
  hf.lift (Skeleton.pair o · a) fun _ _ => .fn h a

/-! ## Steps in the standard order -/

namespace Standard

theorem refl (t : Skeleton) : Standard t t := by
  induction t with
  | leaf c => exact .leaf c .refl
  | ref r => exact .ref r .refl
  | pair o a b ha hb => exact .pair o .refl ha hb
  | bind s a b ha hb => exact .bind s .refl ha hb

/-- Steps at the head may come before standard ones. -/
theorem heads {t u v : Skeleton} (h : Heads t u) (hu : Standard u v) : Standard t v := by
  cases hu with
  | leaf c hu => exact .leaf c (h.trans hu)
  | ref r hu => exact .ref r (h.trans hu)
  | pair o hu ha hb => exact .pair o (h.trans hu) ha hb
  | bind s hu ha hb => exact .bind s (h.trans hu) ha hb

theorem rename {t u : Skeleton} (h : Standard t u) (ξ : Mark → Mark) :
    Standard (t.rename ξ) (u.rename ξ) := by
  have hheads {t u : Skeleton} (h : Heads t u) (ξ : Mark → Mark) :
      Heads (t.rename ξ) (u.rename ξ) := by
    rw [rename_eq_subst, rename_eq_subst]
    exact h.subst _
  induction h generalizing ξ with
  | leaf c h => exact .leaf c (hheads h ξ)
  | ref r h => exact .ref _ (hheads h ξ)
  | pair o h _ _ ha hb => exact .pair o (hheads h ξ) (ha ξ) (hb ξ)
  | bind s h _ _ ha hb => exact .bind s (hheads h ξ) (ha ξ) (hb _)

/-- Standard reductions may be put into a standard reduction. -/
theorem subst {t u : Skeleton} (h : Standard t u) {σ τ : Mark → Skeleton}
    (hσ : ∀ r, Standard (σ r) (τ r)) : Standard (t.subst σ) (u.subst τ) := by
  induction h generalizing σ τ with
  | leaf c h => exact .leaf c (h.subst σ)
  | ref r h => exact heads (h.subst σ) (hσ r)
  | pair o h _ _ ha hb => exact .pair o (h.subst σ) (ha hσ) (hb hσ)
  | bind s h _ _ ha hb =>
    have hup := up_related (fun _ => refl _) (fun _ _ h => h.rename (Mark.shift s.level)) hσ
    exact .bind s (h.subst σ) (ha hσ) (hb hup)

theorem inst {t t' a a' : Skeleton} (l : Level) (ht : Standard t t') (ha : Standard a a') :
    Standard (t.inst l a) (t'.inst l a') :=
  ht.subst (single_related (fun _ => refl _) ha)

/-- A redex that steps in the standard order lead to can be contracted at the head, before the steps
inside it. -/
theorem tail_root {t u v : Skeleton} (h : Standard t u) (hv : Contract u v) : Standard t v := by
  cases hv with
  | beta ho _ e a =>
    cases h with
    | pair _ h hf ha =>
      cases hf with
      | bind _ hf _ he =>
        -- the steps that made an abstraction of the operator were at the head of the whole
        have hhead := h.trans (hf.fn (by simp [ho]) _)
        exact heads (hhead.tail (.root (.beta ho _ _ _))) (he.inst _ ha)
  | inline hs v e =>
    cases h with
    | bind _ h hv he => exact heads (h.tail (.root (.inline hs _ _))) (he.inst _ hv)
  | erase _ u =>
    cases h with
    | pair _ h he _ => exact heads (h.tail (.root (.erase _ _))) he

/-- One more step anywhere finds its place in the standard order. -/
theorem tail {t u v : Skeleton} (h : Standard t u) (hv : Step u v) : Standard t v := by
  induction h generalizing v with
  | leaf c h =>
    cases hv with
    | root hv => exact tail_root (.leaf c h) hv
  | ref r h =>
    cases hv with
    | root hv => exact tail_root (.ref r h) hv
  | pair o h ha hb iha ihb =>
    cases hv with
    | root hv => exact tail_root (.pair o h ha hb) hv
    | left _ _ hv => exact .pair o h (iha hv) hb
    | right _ _ hv => exact .pair o h ha (ihb hv)
  | bind s h ha hb iha ihb =>
    cases hv with
    | root hv => exact tail_root (.bind s h ha hb) hv
    | outer _ _ hv => exact .bind s h (iha hv) hb
    | body _ _ hv => exact .bind s h ha (ihb hv)

end Standard

/-- Any steps can be put in the standard order. -/
theorem Steps.standard {t u : Skeleton} (h : Steps t u) : Standard t u := by
  induction h with
  | refl => exact .refl t
  | tail _ hstep ih => exact ih.tail hstep

/-! ## The leftmost redex -/

theorem Leftmost.step {t u : Skeleton} (h : Leftmost t u) : Step t u := by
  induction h with
  | root h => exact .root h
  | left _ _ ih => exact .left _ _ ih
  | right _ _ _ ih => exact .right _ _ ih
  | outer _ _ ih => exact .outer _ _ ih
  | body _ _ _ ih => exact .body _ _ ih

/-- Renaming leaves the leftmost redex where it is. -/
theorem Leftmost.of_rename {t v : Skeleton} {ξ : Mark → Mark} (h : Leftmost (t.rename ξ) v) :
    ∃ u, Leftmost t u ∧ v = u.rename ξ := by
  -- a redex further left would be one in the renamed tree as well
  have hroot {t : Skeleton} {ξ : Mark → Mark} (h : ∀ u, ¬ Contract (t.rename ξ) u) (u : Skeleton) :
      ¬ Contract t u := by
    intro hu
    rw [rename_eq_subst] at h
    exact h _ (hu.subst _)
  have hnormal {a : Skeleton} {ξ : Mark → Mark} (h : (a.rename ξ).Normal) : a.Normal :=
    fun u hu => h _ (hu.rename ξ)
  induction t generalizing ξ v with
  | leaf c =>
    cases h with
    | root h => cases h
  | ref r =>
    cases h with
    | root h => cases h
  | pair o a b ha hb =>
    cases h with
    | root h =>
      obtain ⟨u, hu, rfl⟩ := Contract.of_rename h
      exact ⟨u, .root hu, rfl⟩
    | left hn h =>
      obtain ⟨u, hu, rfl⟩ := ha h
      exact ⟨_, .left (hroot (t := .pair o a b) hn) hu, rfl⟩
    | right hn han h =>
      obtain ⟨u, hu, rfl⟩ := hb h
      exact ⟨_, .right (hroot (t := .pair o a b) hn) (hnormal han) hu, rfl⟩
  | bind s a b ha hb =>
    cases h with
    | root h =>
      obtain ⟨u, hu, rfl⟩ := Contract.of_rename h
      exact ⟨u, .root hu, rfl⟩
    | outer hn h =>
      obtain ⟨u, hu, rfl⟩ := ha h
      exact ⟨_, .outer (hroot (t := .bind s a b) hn) hu, rfl⟩
    | body hn han h =>
      obtain ⟨u, hu, rfl⟩ := hb h
      exact ⟨_, .body (hroot (t := .bind s a b) hn) (hnormal han) hu, rfl⟩

/-- What is applied has no head redex when the application itself is one. -/
theorem Head.not_contract {o : Pairing} {f f' : Skeleton} (ho : o.operator.isSome) (h : Head f f')
    (a u : Skeleton) : ¬ Contract (pair o f a) u := by
  intro hu
  cases hu with
  | beta hs t e =>
    cases h with
    | root h =>
      cases h with
      | inline hd => simp [Pairing.not_defines hs] at hd
  | erase => cases ho

/-- The head is the leftmost redex. -/
theorem Head.leftmost {t u : Skeleton} (h : Head t u) : Leftmost t u := by
  induction h with
  | root h => exact .root h
  | fn ho a hf ih => exact .left (hf.not_contract ho a) ih

theorem Heads.leftmosts {t u : Skeleton} (h : Heads t u) : ReflTransGen Leftmost t u :=
  ReflTransGen.mono (fun _ _ => Head.leftmost) t u h

namespace Normal

variable {o : Pairing} {s : Scoping} {a b : Skeleton}

theorem left (h : (pair o a b).Normal) : a.Normal := fun _ ha => h _ (.left o b ha)

theorem right (h : (pair o a b).Normal) : b.Normal := fun _ hb => h _ (.right o a hb)

theorem outer (h : (bind s a b).Normal) : a.Normal := fun _ ha => h _ (.outer s b ha)

theorem body (h : (bind s a b).Normal) : b.Normal := fun _ hb => h _ (.body s a hb)

/-- A normal form is no redex. -/
theorem not_contract {t : Skeleton} (h : t.Normal) (u : Skeleton) : ¬ Contract t u :=
  fun hu => h u (.root hu)

end Normal

/-- A pair that becomes normal by steps in its parts is never contracted as a whole. -/
theorem Steps.not_contract_pair {o : Pairing} {a a' b b' : Skeleton} (ha : Steps a a')
    (hn : (Skeleton.pair o a' b').Normal) (u : Skeleton) : ¬ Contract (.pair o a b) u := by
  intro hu
  cases hu with
  | beta hs t e =>
    obtain ⟨t', e', rfl⟩ := ha.abstraction (Pairing.not_defines hs)
    exact hn.not_contract _ (.beta hs t' e' b')
  | erase => exact hn.not_contract _ (.erase a' b')

theorem Normal.not_contract_bind {s : Scoping} {a' b' : Skeleton}
    (hn : (Skeleton.bind s a' b').Normal) (a b u : Skeleton) : ¬ Contract (.bind s a b) u := by
  intro hu
  cases hu with
  | inline hs => exact hn.not_contract _ (.inline hs a' b')

/-- Leftmost steps in the parts of a pair, the first part to its normal form before the second, are
leftmost steps of the pair. -/
theorem leftmosts_pair {o : Pairing} {a a' b b' : Skeleton} (hn : (pair o a' b').Normal)
    (ha : ReflTransGen Leftmost a a') (hb : ReflTransGen Leftmost b b') :
    ReflTransGen Leftmost (pair o a b) (pair o a' b') := by
  have hleft : ReflTransGen Leftmost (pair o a b) (pair o a' b) := by
    induction ha using ReflTransGen.head_induction_on with
    | refl => exact .refl
    | head h htail ih =>
      -- an abstraction there would still be one at the end, where the pair is normal
      have hsteps : Steps _ a' :=
        .head h.step (ReflTransGen.mono (fun _ _ => Leftmost.step) _ _ htail)
      exact .head (.left (hsteps.not_contract_pair hn) h) ih
  exact hleft.trans (hb.lift (pair o a') fun _ _ h =>
    .right (Steps.not_contract_pair .refl hn) hn.left h)

/-- In a binder whose normal form is known, the leftmost redex is in the first part until that is
normal. -/
theorem leftmosts_bind {s : Scoping} {a a' b b' : Skeleton} (hn : (bind s a' b').Normal)
    (ha : ReflTransGen Leftmost a a') (hb : ReflTransGen Leftmost b b') :
    ReflTransGen Leftmost (bind s a b) (bind s a' b') :=
  (ha.lift (bind s · b) fun _ _ h => .outer (hn.not_contract_bind _ _) h).trans
    (hb.lift (bind s a') fun _ _ h => .body (hn.not_contract_bind _ _) hn.outer h)

/-- Steps in the standard order to a normal form contract the leftmost redex each time. -/
theorem Standard.leftmosts {t u : Skeleton} (h : Standard t u) (hn : u.Normal) :
    ReflTransGen Leftmost t u := by
  induction h with
  | leaf c h => exact h.leftmosts
  | ref r h => exact h.leftmosts
  | pair o h _ _ ha hb => exact h.leftmosts.trans (leftmosts_pair hn (ha hn.left) (hb hn.right))
  | bind s h _ _ ha hb => exact h.leftmosts.trans (leftmosts_bind hn (ha hn.outer) (hb hn.body))

/-- Leftmost reduction reaches every normal form that any steps reach. -/
theorem Steps.leftmosts {t u : Skeleton} (h : Steps t u) (hn : u.Normal) :
    ReflTransGen Leftmost t u :=
  h.standard.leftmosts hn

end SystemFOmega.Skeleton
