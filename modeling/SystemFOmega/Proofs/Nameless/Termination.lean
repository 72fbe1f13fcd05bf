import SystemFOmega.Proofs.Nameless.Kinding

/-!
# Types with a kind normalize

Every type that has a kind is strongly normalizing: it starts no infinite sequence of steps
(`Kinded.sn`). The proof is by reducibility. A type is reducible at `*` if it is strongly
normalizing, and at an arrow kind if, under any renaming, it takes reducible arguments to reducible
results; renamings are there because a substitution that goes under a binder is shifted.

For algorithms that also go into the parts of a type, `SN.acc_smaller` adds to the steps the step
from a type to one of its parts.
-/

namespace SystemFOmega.Nameless

open Relation

/-- No infinite sequence of steps starts here. -/
def SN (t : Nameless) : Prop := Acc (fun u t => Step t u) t

namespace SN

theorem step {t u : Nameless} (h : SN t) (hs : Step t u) : SN u := Acc.inv h hs

theorem of_normal {t : Nameless} (h : Normal t) : SN t :=
  .intro t fun u hu => absurd hu (h u)

/-- What maps steps to steps reflects strong normalization. -/
theorem of_map {t : Nameless} (g : Nameless → Nameless)
    (hg : ∀ {u v}, Step u v → Step (g u) (g v)) (h : SN (g t)) : SN t := by
  generalize he : g t = w at h
  induction h generalizing t with
  | intro w _ ih =>
    subst he
    exact .intro t fun u hu => ih (g u) (hg hu) rfl

/-- Termination does not depend on which references there are. -/
theorem rename {t : Nameless} (h : SN t) (ξ : Ref → Ref) : SN (t.rename ξ) := by
  induction h with
  | intro t _ ih =>
    refine .intro _ fun v hv => ?_
    obtain ⟨u, hu, rfl⟩ := hv.of_rename
    exact ih u hu

theorem arrow {s t : Nameless} (hs : SN s) (ht : SN t) : SN (arrow s t) := by
  induction hs generalizing t with
  | intro s hs ihs =>
    induction ht with
    | intro t ht iht =>
      refine .intro _ fun v hv => ?_
      cases hv with
      | arrowLeft _ h => exact ihs _ h (.intro t ht)
      | arrowRight _ h => exact iht _ h

theorem bind (b : Binder) (k : Kind) {t : Nameless} (ht : SN t) : SN (bind b k t) := by
  induction ht with
  | intro t _ ih =>
    refine .intro _ fun v hv => ?_
    cases hv with
    | body _ _ h => exact ih _ h

end SN

/-! ## Reducibility -/

/-- Reducible at a kind. -/
def Red : Kind → Nameless → Prop
  | .star, t => SN t
  | .arrow j k, t => ∀ (ξ : Ref → Ref) (a : Nameless), Red j a → Red k (app (t.rename ξ) a)

/-- A type that makes no redex when it is applied. -/
def Neutral (t : Nameless) : Prop := ∀ k u, t ≠ bind .lam k u

theorem Neutral.rename {t : Nameless} (h : Neutral t) (ξ : Ref → Ref) : Neutral (t.rename ξ) := by
  intro k u he
  cases t with
  | bind b l t =>
    obtain ⟨rfl, -, -⟩ := Nameless.bind.inj he
    exact h l t rfl
  | _ => simp [Nameless.rename] at he

/-- What reducibility at a kind is good for. -/
structure Candidate (k : Kind) : Prop where
  sn {t : Nameless} : Red k t → SN t
  step {t u : Nameless} : Red k t → Step t u → Red k u
  expand {t : Nameless} : Neutral t → (∀ u, Step t u → Red k u) → Red k t

theorem Candidate.var {k : Kind} (h : Candidate k) (r : Ref) : Red k (var r) :=
  h.expand (by simp [Neutral]) fun u hu => by cases hu

/-- A neutral type all of whose reducts take reducible arguments takes them too. -/
theorem Candidate.expand_app {j k : Kind} (hj : Candidate j) (hk : Candidate k) {t a : Nameless}
    (hn : Neutral t) (ht : ∀ u, Step t u → ∀ a, Red j a → Red k (app u a)) (ha : Red j a) :
    Red k (app t a) := by
  have hsn := hj.sn ha
  revert ha
  induction hsn with
  | intro a _ ih =>
    intro ha
    refine hk.expand (by simp [Neutral]) fun v hv => ?_
    cases hv with
    | beta l u _ => exact absurd rfl (hn l u)
    | fn _ h => exact ht _ h a ha
    | arg _ h => exact ih _ h (hj.step ha h)

/-- Reducibility at every kind has the properties of a candidate. -/
theorem candidate (k : Kind) : Candidate k := by
  induction k with
  | star => exact ⟨id, SN.step, fun _ h => .intro _ h⟩
  | arrow j k hj hk =>
    refine ⟨fun {t} h => ?_, fun h hs ξ a ha => ?_, fun {t} hn h ξ a ha => ?_⟩
    · have hsn := hk.sn (h id _ (hj.var (.bound 0)))
      rw [rename_id] at hsn
      exact SN.of_map (app · (Nameless.var (.bound 0))) (.fn _) hsn
    · exact hk.step (h ξ a ha) (.fn a (hs.rename ξ))
    · refine hj.expand_app hk (hn.rename ξ) (fun v hv a ha => ?_) ha
      obtain ⟨u, hu, rfl⟩ := hv.of_rename
      exact h u hu ξ a ha

/-- Reducible types terminate. -/
theorem Red.sn {k : Kind} {t : Nameless} (h : Red k t) : SN t := (candidate k).sn h

/-- Steps lead from reducible types to reducible types. -/
theorem Red.steps {k : Kind} {t u : Nameless} (h : Red k t) (hs : Steps t u) : Red k u := by
  induction hs with
  | refl => exact h
  | tail _ hstep ih => exact (candidate k).step ih hstep

theorem Red.rename {k : Kind} {t : Nameless} (h : Red k t) (ξ : Ref → Ref) :
    Red k (t.rename ξ) := by
  cases k with
  | star => exact SN.rename h ξ
  | arrow j k =>
    intro ζ a ha
    rw [rename_rename]
    exact h _ a ha

/-- A redex is reducible if its contraction is. -/
theorem Red.beta {k l : Kind} {t a : Nameless} (ht : SN t) (ha : SN a) (h : Red k (t.inst a)) :
    Red k (app (bind .lam l t) a) := by
  induction ht generalizing a with
  | intro t ht iht =>
    induction ha with
    | intro a ha iha =>
      refine (candidate k).expand (by simp [Neutral]) fun v hv => ?_
      cases hv with
      | beta => exact h
      | fn _ hf =>
        cases hf with
        | body _ _ hb => exact iht _ hb (.intro a ha) ((candidate k).step h (hb.subst _))
      | arg _ hb => exact iha _ hb (h.steps (inst_steps t (.single hb)))

/-- An operator is reducible if its body is, with every reducible argument. -/
theorem Red.lam {j k l : Kind} {t : Nameless}
    (h : ∀ (ξ : Ref → Ref) a, Red j a → Red k ((t.rename (Ref.lift ξ)).inst a)) :
    Red (.arrow j k) (bind .lam l t) := by
  intro ξ a ha
  have hbody : SN (t.rename (Ref.lift ξ)) :=
    SN.of_map (·.inst (Nameless.var (.bound 0))) (fun hs => hs.subst _)
      (h ξ _ ((candidate j).var (.bound 0))).sn
  exact Red.beta hbody ha.sn (h ξ a ha)

/-- A type with a kind is reducible, whatever reducible types stand for its references. -/
theorem Kinded.red {K : Kinds} {t : Nameless} {k : Kind} (h : Kinded K t k) {σ : Ref → Nameless}
    (hσ : ∀ r l, K r = some l → Red l (σ r)) : Red k (t.subst σ) := by
  have hup {K : Kinds} {k : Kind} {σ : Ref → Nameless} (hσ : ∀ r l, K r = some l → Red l (σ r))
      (r : Ref) (l : Kind) (hr : K.push k r = some l) : Red l (up σ r) := by
    obtain rfl | ⟨s, rfl⟩ := r.zero_or_shift
    · exact (candidate l).var _
    · rw [up_shift]
      exact (hσ s l (by simpa using hr)).rename _
  induction h generalizing σ with
  | int => exact SN.of_normal fun u hu => by cases hu
  | var hr => exact hσ _ _ hr
  | arrow _ _ hs ht => exact SN.arrow (hs hσ) (ht hσ)
  | all _ ih => exact SN.bind _ _ (ih (hup hσ))
  | @lam K k l t _ ih =>
    refine Red.lam fun ξ a ha => ?_
    -- the renamed body, instantiated, is one substitution in the body
    rw [Nameless.inst, rename_subst, subst_subst]
    refine ih fun r m hr => ?_
    obtain rfl | ⟨s, rfl⟩ := r.zero_or_shift
    · obtain rfl := Option.some.inj hr
      exact ha
    · have hs := (hσ s m (by simpa using hr)).rename ξ
      rw [Function.comp_apply, Function.comp_apply, up_shift, ← shift_rename]
      exact (congrArg (Red m) (inst_shift _ a)).mpr hs
  | app _ _ hf ha =>
    have h := hf hσ id _ (ha hσ)
    rwa [rename_id] at h

/-- A type that has a kind terminates, in whatever order redexes are contracted. -/
theorem Kinded.sn {K : Kinds} {t : Nameless} {k : Kind} (h : Kinded K t k) : SN t := by
  have hr := h.red (σ := Nameless.var) fun r l _ => (candidate l).var r
  rw [subst_var] at hr
  exact hr.sn

/-! ## Parts of a type -/

/-- `u` is an immediate part of a type. -/
inductive Part : Nameless → Nameless → Prop
  | left (s t : Nameless) : Part s (arrow s t)
  | right (s t : Nameless) : Part t (arrow s t)
  | body (b : Binder) (k : Kind) (t : Nameless) : Part t (bind b k t)
  | fn (f a : Nameless) : Part f (app f a)
  | arg (f a : Nameless) : Part a (app f a)

/-- `u` comes from a type by a step, or is a part of it. -/
def Smaller (u t : Nameless) : Prop := Step t u ∨ Part u t

theorem smaller_of_steps {t u v : Nameless} (hs : Steps t u) (h : Step u v) :
    TransGen Smaller v t := by
  induction hs using ReflTransGen.head_induction_on with
  | refl => exact .single (.inl h)
  | head hstep _ ih => exact ih.tail (.inl hstep)

/-- The parts of a reduct are smaller. -/
theorem smaller_of_part {t u v : Nameless} (hs : Steps t u) (h : Part v u) :
    TransGen Smaller v t := by
  induction hs using ReflTransGen.head_induction_on with
  | refl => exact .single (.inr h)
  | head hstep _ ih => exact ih.tail (.inl hstep)

/-- A step in a part is a step. -/
theorem Part.step {u u' t : Nameless} (h : Part u t) (hs : Step u u') :
    ∃ t', Step t t' ∧ Part u' t' := by
  cases h with
  | left _ t => exact ⟨_, .arrowLeft t hs, .left _ _⟩
  | right s _ => exact ⟨_, .arrowRight s hs, .right _ _⟩
  | body b k _ => exact ⟨_, .body b k hs, .body _ _ _⟩
  | fn _ a => exact ⟨_, .fn a hs, .fn _ _⟩
  | arg f _ => exact ⟨_, .arg f hs, .arg _ _⟩

/-- A step in a part of a part is a step. -/
theorem step_of_parts {u u' t : Nameless} (h : ReflTransGen Part u t) (hs : Step u u') :
    ∃ t', Step t t' ∧ ReflTransGen Part u' t' := by
  induction h with
  | refl => exact ⟨u', hs, .refl⟩
  | tail _ hp ih =>
    obtain ⟨v, hv, huv⟩ := ih
    obtain ⟨w, hw, hvw⟩ := hp.step hv
    exact ⟨w, hw, huv.tail hvw⟩

/-- Going into parts between the steps makes no infinite sequence either. -/
theorem SN.acc_smaller {t : Nameless} (h : SN t) : Acc Smaller t := by
  suffices hparts : ∀ u, ReflTransGen Part u t → Acc Smaller u from hparts t .refl
  induction h with
  | intro t _ ih =>
    intro u hu
    -- a step in a part of `t` is a step of `t`; a part of a part is smaller
    induction u with
    | int | var =>
      refine .intro _ fun v hv => ?_
      rcases hv with hv | hv <;> cases hv
    | arrow s t hs ht =>
      refine .intro _ fun v hv => ?_
      rcases hv with hv | hv
      · obtain ⟨w, hw, hvw⟩ := step_of_parts hu hv
        exact ih w hw v hvw
      · cases hv with
        | left => exact hs (.head (.left _ _) hu)
        | right => exact ht (.head (.right _ _) hu)
    | bind b k t ht =>
      refine .intro _ fun v hv => ?_
      rcases hv with hv | hv
      · obtain ⟨w, hw, hvw⟩ := step_of_parts hu hv
        exact ih w hw v hvw
      · cases hv with
        | body => exact ht (.head (.body _ _ _) hu)
    | app f a hf ha =>
      refine .intro _ fun v hv => ?_
      rcases hv with hv | hv
      · obtain ⟨w, hw, hvw⟩ := step_of_parts hu hv
        exact ih w hw v hvw
      · cases hv with
        | fn => exact hf (.head (.fn _ _) hu)
        | arg => exact ha (.head (.arg _ _) hu)

end SystemFOmega.Nameless
