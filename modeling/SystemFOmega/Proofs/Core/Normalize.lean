import SystemFOmega.Proofs.Core.Nameless
import SystemFOmega.Proofs.Nameless.Normalizer

/-!
# Normalizing core types

A run of the normalizer on a core type goes in step with the run on its nameless form
(`Ty.normalizeFrom_tracks`): it ends in the same way, with the same fuel left, and with a type
whose nameless form is the result there. The names of binders and the counter play no part.
-/

namespace SystemFOmega

/-- A result on core types, without names and counter. -/
def Normalizer.forget {α β : Type} (f : α → β) :
    EStateM.Result Exhausted Normalizer α → EStateM.Result Exhausted (Option Int) β
  | .ok a s => .ok (f a) s.remaining
  | .error e s => .error e s.remaining

open Normalizer (forget)

namespace Ty

/-- The run `m` goes in step with the run `n`, which does without names. -/
def Tracks {α β : Type} (f : α → β) (m : Normalize α) (n : Nameless.Normalize β) : Prop :=
  ∀ s : Normalizer, forget f (m s) = n s.remaining

namespace Tracks

variable {α β α' β' : Type} {f : α → β} {g : α' → β'}

theorem pure (f : α → β) (a : α) : Tracks f (pure a) (pure (f a)) := fun _ => rfl

theorem throw (f : α → β) (e : Exhausted) : Tracks f (throw e) (throw e) := fun _ => rfl

/-- One computation after the other is tracked if both are. -/
theorem bind {m : Normalize α} {n : Nameless.Normalize β} {k : α → Normalize α'}
    {l : β → Nameless.Normalize β'} (hm : Tracks f m n) (hk : ∀ a, Tracks g (k a) (l (f a))) :
    Tracks g (m >>= k) (n >>= l) := by
  intro s
  have h := hm s
  show forget g (EStateM.bind m k s) = EStateM.bind n l s.remaining
  unfold EStateM.bind
  rw [← h]
  cases m s with
  | ok a s' => exact hk a s'
  | error e s' => rfl

end Tracks

/-- A step is paid from the fuel, if there is any left. -/
theorem spend_some (n c : Int) : spend ⟨some n, c⟩ =
    if n ≤ 0 then .error .fuel ⟨some n, c⟩ else .ok () ⟨some (n - 1), c⟩ := by
  show (if n ≤ 0 then throw .fuel
    else modify fun s => { s with remaining := some (n - 1) } : Normalize Unit) ⟨some n, c⟩ = _
  by_cases h : n ≤ 0
  · rw [if_pos h, if_pos h]
    rfl
  · rw [if_neg h, if_neg h]
    rfl

theorem spend_tracks : Tracks id spend Nameless.spend := by
  rintro ⟨fuel, c⟩
  cases fuel with
  | none => rfl
  | some n =>
    show forget id (spend ⟨some n, c⟩) =
        (if n ≤ 0 then throw .fuel else set (some (n - 1)) : Nameless.Normalize Unit) (some n)
    rw [spend_some]
    by_cases h : n ≤ 0
    · rw [if_pos h, if_pos h]
      rfl
    · rw [if_neg h, if_neg h]
      rfl

/-- A contraction puts the argument for the name that the operator binds. -/
theorem contract_tracks (x : Name) (body a : Ty) (k : Kind) :
    Tracks nameless (contract x body a k) do
      Nameless.spend
      return (body.nameless.rename (Ref.close x)).inst a.nameless := by
  refine spend_tracks.bind fun _ s => ?_
  show EStateM.Result.ok ((body.subst x a s.supply).1.withKind k).nameless s.remaining = _
  rw [nameless_withKind, nameless_subst_eq_inst]
  rfl

/-- Weak head reduction of a type with names does what that of the type without names does. -/
theorem weakHead_tracks (d : Nat) (t : Ty) :
    Tracks nameless (weakHead d t) (Nameless.weakHead d t.nameless) := by
  induction d generalizing t with
  | zero =>
    cases t with
    | app f a k => exact .throw _ _
    | _ => exact .pure nameless _
  | succ d ih =>
    cases t with
    | app f a k =>
      refine spend_tracks.bind fun _ => (ih f).bind fun f' => ?_
      cases f' with
      | bind b x xk body l =>
        cases b with
        | all => exact .pure nameless _
        | lam =>
          have h := (contract_tracks x body a k).bind fun r => ih r
          rwa [bind_assoc] at h
      | _ => exact .pure nameless _
    | _ => exact .pure nameless _

/-- The second part of a visit, where `go` visits the parts. -/
def visit (go : Ty → Normalize Ty) : Ty → Normalize Ty
  | .int k => return .int k
  | .var x k => return .var x k
  | .arrow s t k => return .arrow (← go s) (← go t) k
  | .bind b x xk t k => return .bind b x xk (← go t) k
  | .app f a k => do
    let f' ← go f
    let a' ← go a
    match f' with
    | .bind .lam x _ body _ => go (← contract x body a' k)
    | _ => return .app f' a' k

/-- Going into the parts of a type is tracked if what is done there is, and if it does not depend on
which names are free. -/
theorem visit_tracks {go : Ty → Normalize Ty} {go' : Nameless → Nameless.Normalize Nameless}
    (hgo : ∀ t, Tracks nameless (go t) (go' t.nameless))
    (hclose : ∀ x t, go' (t.rename (Ref.close x)) = Nameless.rename (Ref.close x) <$> go' t)
    (t : Ty) :
    Tracks nameless (visit go t) (Nameless.visit go' t.nameless) := by
  cases t with
  | int k => exact .pure nameless _
  | var x k => exact .pure nameless _
  | arrow s t k => exact (hgo s).bind fun s' => (hgo t).bind fun t' => .pure nameless _
  | bind b x xk t k =>
    simp only [nameless, Nameless.visit, hclose, bind_map_left]
    exact (hgo t).bind fun t' => .pure nameless _
  | app f a k =>
    refine (hgo f).bind fun f' => (hgo a).bind fun a' => ?_
    cases f' with
    | bind b x xk body l =>
      cases b with
      | all => exact .pure nameless _
      | lam =>
        have h := (contract_tracks x body a' k).bind fun r => hgo r
        rwa [bind_assoc] at h
    | _ => exact .pure nameless _

/-- Normalization of a type with names does what that of the type without names does, at the same
cost. -/
theorem normalizeFrom_tracks (o : Order) (d : Nat) (t : Ty) :
    Tracks nameless (normalizeFrom o d t) (Nameless.normalizeFrom o d t.nameless) := by
  induction d generalizing t with
  | zero => exact .throw _ _
  | succ d ih =>
    refine spend_tracks.bind fun _ => ?_
    have hvisit := visit_tracks ih fun x t => Nameless.normalizeFrom_rename _ o d t
    cases o with
    | normal => exact (weakHead_tracks d t).bind hvisit
    | applicative => exact (Tracks.pure nameless t).bind hvisit

/-! ## What a run gives -/

variable {o : Order} {fuel : Option Int} {c : Int} {d e : Nat} {t t' : Ty} {s : Normalizer}

/-- What normalization gives is a normal form that contraction reaches. -/
theorem normalize_sound (h : t.normalize o fuel c d = .ok t' s) :
    Nameless.Steps t.nameless t'.nameless ∧ Nameless.Normal t'.nameless := by
  have htr := normalizeFrom_tracks o d t ⟨fuel, c⟩
  rw [show normalizeFrom o d t ⟨fuel, c⟩ = .ok t' s from h] at htr
  exact Nameless.normalizeFrom_sound htr.symm

/-- Normalization brings no free names in. -/
theorem normalize_freeVars (h : t.normalize o fuel c d = .ok t' s) : t'.freeVars ⊆ t.freeVars := by
  intro x hx
  rw [← uses_nameless_free] at hx ⊢
  exact (normalize_sound h).1.uses hx

/-! ## Depth -/

/-- The second run has more depth: it does the same as the first, unless that nests too deep. -/
abbrev Deepens {α : Type} (m m' : Normalize α) : Prop := Run.AgreeUnless (· = .depth) m m'

theorem throw_deepens {α : Type} (m : Normalize α) : Deepens (throw .depth) m :=
  fun s => .inr ⟨.depth, s, rfl, rfl⟩

/-- A deeper bound gives the same where the bound was deep enough. -/
theorem weakHead_deepens (hde : d ≤ e) (t : Ty) : Deepens (weakHead d t) (weakHead e t) := by
  induction d generalizing e t with
  | zero =>
    cases t with
    | app f a k => exact throw_deepens _
    | _ => cases e <;> exact .refl _
  | succ d ih =>
    obtain ⟨e, rfl⟩ : ∃ e', e = e' + 1 := ⟨e - 1, by omega⟩
    have hde : d ≤ e := by omega
    cases t with
    | app f a k =>
      refine .bind (.refl spend) fun _ => .bind (ih hde f) fun f' => ?_
      split
      · exact .bind (.refl _) fun r => ih hde r
      · exact .refl _
    | _ => exact .refl _

theorem visit_deepens {go go' : Ty → Normalize Ty} (hgo : ∀ t, Deepens (go t) (go' t)) (t : Ty) :
    Deepens (visit go t) (visit go' t) := by
  cases t with
  | int | var => exact .refl _
  | arrow s t k => exact .bind (hgo s) fun _ => .bind (hgo t) fun _ => .refl _
  | bind b x xk t k => exact .bind (hgo t) fun _ => .refl _
  | app f a k =>
    refine .bind (hgo f) fun f' => .bind (hgo a) fun a' => ?_
    split
    · exact .bind (.refl _) hgo
    · exact .refl _

/-- A deeper bound gives the same normal form. -/
theorem normalizeFrom_deepens (o : Order) (hde : d ≤ e) (t : Ty) :
    Deepens (normalizeFrom o d t) (normalizeFrom o e t) := by
  induction d generalizing e t with
  | zero => exact throw_deepens _
  | succ d ih =>
    obtain ⟨e, rfl⟩ : ∃ e', e = e' + 1 := ⟨e - 1, by omega⟩
    have hde : d ≤ e := by omega
    refine .bind (.refl spend) fun _ => ?_
    cases o with
    | normal => exact .bind (weakHead_deepens hde t) (visit_deepens (ih hde))
    | applicative => exact .bind (.refl (pure t)) (visit_deepens (ih hde))

/-- A run that ends well is the same with more depth. -/
theorem normalize_mono (hde : d ≤ e) (h : t.normalize o fuel c d = .ok t' s) :
    t.normalize o fuel c e = .ok t' s :=
  (normalizeFrom_deepens o hde t).eq_of_ne h nofun

/-- Without a bound on the fuel, a type with a kind has a normal form if the depth allows it. -/
theorem normalize_ends (o : Order) (c : Int) {K : Kinds} {k : Kind}
    (h : Nameless.Kinded K t.nameless k) : ∃ d t' s, t.normalize o none c d = .ok t' s := by
  obtain ⟨d, u, hu⟩ := h.normalizes o
  refine ⟨d, ?_⟩
  have htr := normalizeFrom_tracks o d t ⟨none, c⟩
  rw [hu] at htr
  show ∃ t' s, normalizeFrom o d t ⟨none, c⟩ = .ok t' s
  cases hrun : normalizeFrom o d t ⟨none, c⟩ with
  | ok t' s => exact ⟨t', s, rfl⟩
  | error e s =>
    rw [hrun] at htr
    cases htr

end Ty

end SystemFOmega
