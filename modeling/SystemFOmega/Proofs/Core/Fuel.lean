import SystemFOmega.Proofs.Core.Kinding

/-!
# Fuel

A run with bounded fuel does what the run without a bound does, as long as the fuel lasts
(`Ty.Metered`): the unbounded run has a cost, a run with less fuel ends with `Exhausted.fuel`, and a
run with more ends as the unbounded one, with the rest of the fuel. So a type has a normal form
within some fuel exactly if it has one without a bound, and a well-kinded type has one
(`Ty.WellKinded.terminates`).

A property of runs that the single steps have, and sequences if their parts do, is one of
normalization as a whole (`Ty.Sustained`).
-/

namespace SystemFOmega

/-- The result of a run that has the fuel `left` at its end. -/
def Normalizer.endWith {α : Type} (left : Option Int) :
    EStateM.Result Exhausted Int α → EStateM.Result Exhausted Normalizer α
  | .ok a c => .ok a ⟨left, c⟩
  | .error e c => .error e ⟨left, c⟩

open Normalizer (endWith)

namespace Ty

/-! ## Properties of all runs -/

/-- Runs that have `d` levels of depth satisfy `M d`, if their steps do, and sequences do if their
parts do. -/
structure Sustained (M : Nat → {α : Type} → Normalize α → Prop) : Prop where
  pure (d : Nat) {α : Type} (a : α) : M d (pure a : Normalize α)
  bind {d : Nat} {α β : Type} {m : Normalize α} {k : α → Normalize β} :
    M d m → (∀ a, M d (k a)) → M d (m >>= k)
  contract (d : Nat) (x : Name) (body a : Ty) (k : Kind) : M d (contract x body a k)
  depth : M 0 (throw .depth : Normalize Ty)
  /-- A visit takes one unit of fuel and leaves one level less. -/
  descend {d : Nat} {m : Normalize Ty} : M d m → M (d + 1) (spend >>= fun _ => m)

namespace Sustained

variable {M : Nat → {α : Type} → Normalize α → Prop} (hM : Sustained M)
include hM

theorem weakHead (d : Nat) (t : Ty) : M d (weakHead d t) := by
  induction d generalizing t with
  | zero =>
    cases t with
    | app f a k => exact hM.depth
    | _ => exact hM.pure 0 _
  | succ d ih =>
    cases t with
    | app f a k =>
      refine hM.descend (hM.bind (ih f) fun f' => ?_)
      split
      · exact hM.bind (hM.contract d _ _ _ _) ih
      · exact hM.pure d _
    | _ => exact hM.pure (d + 1) _

theorem visit {d : Nat} {go : Ty → Normalize Ty} (hgo : ∀ t, M d (go t)) (t : Ty) :
    M d (visit go t) := by
  cases t with
  | int k => exact hM.pure d _
  | var x k => exact hM.pure d _
  | arrow s t k => exact hM.bind (hgo s) fun s' => hM.bind (hgo t) fun t' => hM.pure d _
  | bind b x xk t k => exact hM.bind (hgo t) fun t' => hM.pure d _
  | app f a k =>
    refine hM.bind (hgo f) fun f' => hM.bind (hgo a) fun a' => ?_
    split
    · exact hM.bind (hM.contract d _ _ _ _) hgo
    · exact hM.pure d _

/-- What the steps of normalization sustain, normalization sustains. -/
theorem normalizeFrom (o : Order) (d : Nat) (t : Ty) : M d (normalizeFrom o d t) := by
  induction d generalizing t with
  | zero => exact hM.depth
  | succ d ih =>
    refine hM.descend ?_
    cases o with
    | normal => exact hM.bind (hM.weakHead d t) (hM.visit ih)
    | applicative => exact hM.bind (hM.pure d t) (hM.visit ih)

end Sustained

/-! ## The cost of a run -/

/-- From the counter `c`, the run without a bound has the result `r`, and it takes `n` units of
fuel. -/
structure Costs {α : Type} (m : Normalize α) (c : Int) (r : EStateM.Result Exhausted Int α)
    (n : Nat) : Prop where
  unbounded : m ⟨none, c⟩ = endWith none r
  enough {f : Int} : n ≤ f → m ⟨some f, c⟩ = endWith (some (f - n)) r
  short {f : Int} : 0 ≤ f → f < n → ∃ c', m ⟨some f, c⟩ = .error .fuel ⟨some 0, c'⟩

/-- From every counter, the run has a cost. -/
def Metered {α : Type} (m : Normalize α) : Prop := ∀ c, ∃ r n, Costs m c r n

section

variable {α β : Type} {m : Normalize α} {k : α → Normalize β} {c c' : Int} {n n' : Nat}

/-- The cost of a sequence is that of both parts. -/
theorem Costs.bind_ok {a : α} {r : EStateM.Result Exhausted Int β} (hm : Costs m c (.ok a c') n)
    (hk : Costs (k a) c' r n') : Costs (m >>= k) c r (n + n') := by
  refine ⟨?_, fun {f} hf => ?_, fun {f} hf hlt => ?_⟩
  · rw [Run.bind_of_ok k hm.unbounded]
    exact hk.unbounded
  · rw [Run.bind_of_ok k (hm.enough (by omega)), hk.enough (by omega)]
    congr 2
    omega
  · by_cases hn : n ≤ f
    · rw [Run.bind_of_ok k (hm.enough hn)]
      exact hk.short (by omega) (by omega)
    · obtain ⟨c₁, h₁⟩ := hm.short hf (by omega)
      exact ⟨c₁, Run.bind_of_error k h₁⟩

/-- A sequence ends where its first part fails. -/
theorem Costs.bind_error {e : Exhausted} (hm : Costs m c (.error e c') n) :
    Costs (m >>= k) c (.error e c') n := by
  refine ⟨Run.bind_of_error k hm.unbounded, fun hf => Run.bind_of_error k (hm.enough hf),
    fun hf hlt => ?_⟩
  obtain ⟨c₁, h₁⟩ := hm.short hf hlt
  exact ⟨c₁, Run.bind_of_error k h₁⟩

namespace Metered

theorem pure (a : α) : Metered (pure a) :=
  fun c => ⟨.ok a c, 0, rfl, fun {f} _ => by simp [endWith]; rfl, fun hf hlt => by omega⟩

theorem throw (e : Exhausted) : Metered (throw e : Normalize α) :=
  fun c => ⟨.error e c, 0, rfl, fun {f} _ => by simp [endWith]; rfl, fun hf hlt => by omega⟩

/-- One metered computation after the other. -/
theorem bind (hm : Metered m) (hk : ∀ a, Metered (k a)) : Metered (m >>= k) := by
  intro c
  obtain ⟨r, n, h⟩ := hm c
  cases r with
  | ok a c' =>
    obtain ⟨r', n', h'⟩ := hk a c'
    exact ⟨r', n + n', h.bind_ok h'⟩
  | error e c' => exact ⟨_, n, h.bind_error⟩

end Metered

end

theorem spend_metered : Metered spend := by
  intro c
  refine ⟨.ok () c, 1, rfl, fun {f} hf => ?_, fun {f} hf hlt => ?_⟩
  · rw [spend_some, if_neg (by omega)]
    rfl
  · obtain rfl : f = 0 := by omega
    exact ⟨c, rfl⟩

/-- Every contraction is paid for. -/
theorem contract_metered (x : Name) (body a : Ty) (k : Kind) : Metered (contract x body a k) := by
  refine spend_metered.bind fun _ c => ?_
  refine ⟨.ok ((body.subst x a c).1.withKind k) (body.subst x a c).2, 0, rfl, fun {f} _ => ?_,
    fun hf hlt => by omega⟩
  simp only [endWith, Int.natCast_zero, Int.sub_zero]
  rfl

theorem metered_sustained : Sustained fun _ _ m => Metered m where
  pure _ _ a := .pure a
  bind := .bind
  contract _ := contract_metered
  depth := .throw _
  descend h := spend_metered.bind fun _ => h

/-- Every contraction of a normalization is paid for. -/
theorem normalizeFrom_metered (o : Order) (d : Nat) (t : Ty) : Metered (normalizeFrom o d t) :=
  metered_sustained.normalizeFrom o d t

/-! ## Runs without a bound -/

/-- Without a bound on the fuel, the run can only fail because it nests too deep. -/
def Unmetered {α : Type} (m : Normalize α) : Prop :=
  ∀ c, Run.Settles m ⟨none, c⟩ (fun _ s => s.remaining = none) (· = .depth)

theorem Unmetered.bind {m : Normalize α} {k : α → Normalize β} (hm : Unmetered m)
    (hk : ∀ a, Unmetered (k a)) : Unmetered (m >>= k) := by
  refine fun c => .bind (hm c) fun a s hs => ?_
  obtain ⟨remaining, supply⟩ := s
  obtain rfl : remaining = none := hs
  exact hk a supply

theorem Unmetered.pure (a : α) : Unmetered (Pure.pure a) := fun _ => .pure rfl

theorem spend_unmetered : Unmetered spend := by
  intro c
  show (none : Option Int) = none
  rfl

theorem contract_unmetered (x : Name) (body a : Ty) (k : Kind) :
    Unmetered (contract x body a k) := by
  refine spend_unmetered.bind fun _ c => ?_
  show (none : Option Int) = none
  rfl

theorem unmetered_sustained : Sustained fun _ _ m => Unmetered m where
  pure _ _ a := .pure a
  bind := .bind
  contract _ := contract_unmetered
  depth _ := .throw rfl
  descend h := spend_unmetered.bind fun _ => h

/-- Without a limit, no fuel is looked at. -/
theorem normalizeFrom_unmetered (o : Order) (d : Nat) (t : Ty) : Unmetered (normalizeFrom o d t) :=
  unmetered_sustained.normalizeFrom o d t

/-- Only a run with a bound on the fuel can use it up. -/
theorem exists_fuel_of_exhausted {o : Order} {fuel : Option Int} {c : Int} {t : Ty} {d : Nat}
    {s : Normalizer} (h : t.normalize o fuel c d = .error .fuel s) : ∃ n, fuel = some n := by
  cases fuel with
  | some n => exact ⟨n, rfl⟩
  | none =>
    have hrun := normalizeFrom_unmetered o d t c
    unfold Run.Settles at hrun
    rw [normalize, EStateM.run] at h
    rw [h] at hrun
    cases hrun

/-! ## Types with a normal form -/

/-- In the order `o` and from the counter `c`, normalization ends: beyond some depth, the run
without a bound on the fuel has a result, and every run with at least `n` units of fuel has the same
one and leaves the rest of the fuel. -/
def Terminates (t : Ty) (o : Order) (c : Int) : Prop :=
  ∃ (d n : Nat) (t' : Ty) (c' : Int), ∀ e, d ≤ e →
    t.normalize o none c e = .ok t' ⟨none, c'⟩ ∧
      ∀ f : Int, n ≤ f → t.normalize o (some f) c e = .ok t' ⟨some (f - n), c'⟩

/-- Where the run without a bound ends well, it has a cost. -/
theorem exists_costs {t u : Ty} {o : Order} {c : Int} {d : Nat} {s : Normalizer}
    (h : t.normalize o none c d = .ok u s) :
    ∃ n c', s = ⟨none, c'⟩ ∧ Costs (normalizeFrom o d t) c (.ok u c') n := by
  obtain ⟨r, n, hcost⟩ := normalizeFrom_metered o d t c
  have hr : endWith none r = .ok u s := hcost.unbounded.symm.trans h
  cases r with
  | error e c' => cases hr
  | ok u' c' =>
    obtain ⟨rfl, rfl⟩ := EStateM.Result.ok.inj hr
    exact ⟨n, c', rfl, hcost⟩

/-- A well-kinded type has a normal form in both orders. -/
theorem WellKinded.terminates {K : NameKinds} {t : Ty} {k : Kind} (h : WellKinded K t k) (o : Order)
    (c : Int) : t.Terminates o c := by
  obtain ⟨d, t', s, hrun⟩ := normalize_ends o c h.nameless
  obtain ⟨n, c', rfl, hcost⟩ := exists_costs hrun
  refine ⟨d, n, t', c', fun e he => ⟨normalize_mono he hrun, fun f hf => ?_⟩⟩
  exact normalize_mono he (hcost.enough hf)

end Ty

end SystemFOmega
