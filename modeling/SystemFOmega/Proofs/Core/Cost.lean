import Mathlib.Data.ENat.Basic
import SystemFOmega.Proofs.Core.Fuel

/-!
# What normalization costs

Every run with bounded fuel ends, also on types that have no normal form: each level of depth takes
a unit of fuel, so that the fuel is used up before a depth beyond it is (`Ty.normalize_ne_depth`).
With enough depth, how a run ends depends on the fuel only through a cost, which may be infinite
(`Ty.exists_hasCost`).
-/

namespace SystemFOmega

namespace Ty

open Run

/-! ## Depth and fuel -/

/-- With `d` levels of depth, a run with less than `d` units of fuel can only fail because it uses
them up, and it gains none. -/
def Fueled (d : Nat) {α : Type} (m : Normalize α) : Prop :=
  ∀ {f c : Int}, f.toNat < d →
    Settles m ⟨some f, c⟩ (fun _ s => ∃ g ≤ f, s.remaining = some g) (· = .fuel)

theorem spend_settles (f c : Int) :
    Settles spend ⟨some f, c⟩ (fun _ s => 0 < f ∧ s = ⟨some (f - 1), c⟩) (· = .fuel) := by
  unfold Settles
  rw [spend_some]
  by_cases h : f ≤ 0
  · rw [if_pos h]
  · rw [if_neg h]
    exact ⟨by omega, rfl⟩

theorem fueled_sustained : Sustained Fueled where
  pure _ _ _ := fun {f _} _ => .pure ⟨f, Int.le_refl f, rfl⟩
  bind hm hk := by
    intro f c hf
    refine (hm hf).bind fun a s hs => ?_
    obtain ⟨remaining, supply⟩ := s
    obtain ⟨g, hg, rfl⟩ : ∃ g ≤ f, remaining = some g := hs
    refine (hk a (by omega)).imp fun b s' hs' => ?_
    obtain ⟨g', hg', hs'⟩ := hs'
    exact ⟨g', by omega, hs'⟩
  contract _ x body a k := by
    intro f c _
    refine (spend_settles f c).bind fun _ s hs => ?_
    obtain ⟨-, rfl⟩ := hs
    exact ⟨f - 1, by omega, rfl⟩
  depth := fun {f _} hf => absurd hf (Nat.not_lt_zero f.toNat)
  descend h := by
    intro f c hf
    refine (spend_settles f c).bind fun _ s hs => ?_
    obtain ⟨hpos, rfl⟩ := hs
    refine (h (by omega)).imp fun a s' hs' => ?_
    obtain ⟨g, hg, hs'⟩ := hs'
    exact ⟨g, by omega, hs'⟩

/-- The fuel is used up before a depth beyond it is. -/
theorem normalize_ne_depth {t : Ty} {o : Order} {f c : Int} {d : Nat} (hd : f.toNat < d)
    (s : Normalizer) : t.normalize o (some f) c d ≠ .error .depth s := by
  intro h
  have hfuel := (fueled_sustained.normalizeFrom o d t hd).of_error h
  cases hfuel

/-! ## Outcomes -/

/-- If the depth allows it, the run ends in `r`. -/
structure Outcome (t : Ty) (o : Order) (fuel : Option Int) (c : Int)
    (r : EStateM.Result Exhausted Normalizer Ty) : Prop where
  /-- From some depth on, this is how it ends. -/
  deep : ∃ d, ∀ e, d ≤ e → t.normalize o fuel c e = r
  /-- At any depth, it ends so or nests too deep. -/
  shallow (d : Nat) : t.normalize o fuel c d = r ∨ ∃ s, t.normalize o fuel c d = .error .depth s

/-- How a run ends at one depth is its outcome, unless it nests too deep. -/
theorem outcome_of_eq {t : Ty} {o : Order} {fuel : Option Int} {c : Int} {d : Nat}
    {r : EStateM.Result Exhausted Normalizer Ty} (h : t.normalize o fuel c d = r)
    (hr : ∀ s, r ≠ .error .depth s) : t.Outcome o fuel c r := by
  have hdeep (e : Nat) (he : d ≤ e) : t.normalize o fuel c e = r := by
    refine (normalizeFrom_deepens o he t).eq_of_ne h fun w s hw heq => ?_
    subst heq
    exact hr s hw
  refine ⟨⟨d, hdeep⟩, fun e => ?_⟩
  rcases Nat.le_total d e with he | he
  · exact .inl (hdeep e he)
  · rcases normalizeFrom_deepens o he t ⟨fuel, c⟩ with heq | ⟨w, s, hw, rfl⟩
    · exact .inl (heq.trans h)
    · exact .inr ⟨s, hw⟩

/-- In the order `o` and from the counter `c`, a run on `t` succeeds exactly with `cost` units of
fuel or more. -/
structure HasCost (t : Ty) (o : Order) (c : Int) (cost : ℕ∞) : Prop where
  /-- With enough fuel, the run gives what the one without a bound gives, and leaves the rest. -/
  enough {f : Nat} : cost ≤ f → ∃ (n : Nat) (u : Ty) (c' : Int), cost = n ∧
    t.Outcome o none c (.ok u ⟨none, c'⟩) ∧
      t.Outcome o (some f) c (.ok u ⟨some (f - n), c'⟩)
  /-- With less, it uses up all of it. -/
  short {f : Nat} : f < cost → ∃ c', t.Outcome o (some f) c (.error .fuel ⟨some 0, c'⟩)
  /-- If no fuel is enough, the run without a bound exceeds every depth. -/
  infinite : cost = ⊤ → ∀ d, ∃ s, t.normalize o none c d = .error .depth s

/-- Every type has a cost, whether or not it has a normal form. -/
theorem exists_hasCost (t : Ty) (o : Order) (c : Int) : ∃ cost, t.HasCost o c cost := by
  by_cases h : ∃ d u s, t.normalize o none c d = .ok u s
  · obtain ⟨d, u, s, hrun⟩ := h
    obtain ⟨n, c', rfl, hcost⟩ := exists_costs hrun
    refine ⟨n, fun {f} hf => ?_, fun {f} hf => ?_, fun htop => absurd htop (ENat.natCast_ne_top n)⟩
    · have hn : n ≤ f := ENat.natCast_le_natCast.1 hf
      exact ⟨n, u, c', rfl, outcome_of_eq hrun nofun,
        outcome_of_eq (hcost.enough (Int.ofNat_le.2 hn)) nofun⟩
    · have hn : f < n := ENat.natCast_lt_natCast.1 hf
      obtain ⟨c₁, h₁⟩ := hcost.short (Int.natCast_nonneg f) (Int.ofNat_lt.2 hn)
      exact ⟨c₁, outcome_of_eq h₁ nofun⟩
  · have hnone (d : Nat) : ∃ s, t.normalize o none c d = .error .depth s := by
      cases hrun : t.normalize o none c d with
      | ok u s => exact absurd ⟨d, u, s, hrun⟩ h
      | error w s =>
        obtain rfl : w = .depth := (normalizeFrom_unmetered o d t c).of_error hrun
        exact ⟨s, rfl⟩
    refine ⟨⊤, fun hf => absurd (top_le_iff.1 hf) (ENat.natCast_ne_top _), fun {f} _ => ?_,
      fun _ => hnone⟩
    -- the run takes more than `f`, since otherwise it would nest too deep with that much fuel
    obtain ⟨r, n, hcost⟩ := normalizeFrom_metered o (f + 1) t c
    by_cases hn : (n : Int) ≤ f
    · obtain ⟨s, hs⟩ := hnone (f + 1)
      have hr : Normalizer.endWith none r = .error .depth s := hcost.unbounded.symm.trans hs
      cases r with
      | ok u c' => cases hr
      | error w c' =>
        obtain ⟨rfl, -⟩ := EStateM.Result.error.inj hr
        have hdepth : t.normalize o (some f) c (f + 1) = .error .depth ⟨some (f - n), c'⟩ :=
          hcost.enough hn
        exact absurd hdepth (normalize_ne_depth (by omega) _)
    · obtain ⟨c₁, h₁⟩ := hcost.short (Int.natCast_nonneg f) (by omega)
      exact ⟨c₁, outcome_of_eq (d := f + 1) h₁ nofun⟩

end Ty

end SystemFOmega
