import SystemFOmega.Proofs.Checker.Parallel
import SystemFOmega.Proofs.Core.Cost

/-!
# Fuel changes no result

The checker starts every normalization with fresh fuel. Where one of them does not use it up, it
does the same with more fuel (`Ty.normalize_more_fuel`), so that checkers which differ in fuel do
the same until the first of them runs out (`Check.normalize_agreeUnless`). So a program on which the
checker does not run out of fuel has the same outcome with every larger fuel and without a bound.
-/

namespace SystemFOmega

open Run Check
open Normalizer (endWith)

variable {f : Int} {fuel : Option Int}

/-- With negative fuel there is no first visit. -/
theorem Ty.normalize_of_neg (hf : f < 0) (t : Ty) (o : Order) (c : Int) (d : Nat) :
    t.normalize o (some f) c (d + 1) = .error .fuel ⟨some f, c⟩ :=
  Run.bind_of_error _ ((spend_some f c).trans (if_pos (Int.le_of_lt hf)))

/-- A run that does not use up its fuel ends as it does with more of it or without a bound, but for
the fuel that is left. -/
theorem Ty.normalize_more_fuel (hle : ∀ g ∈ fuel, f ≤ g) (t : Ty) (o : Order) (c : Int) (d : Nat) :
    (∃ s, t.normalize o (some f) c d = .error .fuel s) ∨
      ∃ r left left', t.normalize o (some f) c d = endWith left r ∧
        t.normalize o fuel c d = endWith left' r := by
  by_cases hf : f < 0
  · cases d with
    | zero => exact .inr ⟨.error .depth c, some f, fuel, rfl, rfl⟩
    | succ d => exact .inl ⟨_, normalize_of_neg hf t o c d⟩
  · obtain ⟨r, n, hcost⟩ := normalizeFrom_metered o d t c
    by_cases hn : n ≤ f
    · refine .inr ⟨r, some (f - n), fuel.map (· - n), hcost.enough hn, ?_⟩
      cases fuel with
      | none => exact hcost.unbounded
      | some g => exact hcost.enough (Int.le_trans hn (hle g rfl))
    · obtain ⟨c', hshort⟩ := hcost.short (f := f) (by omega) (by omega)
      exact .inl ⟨_, hshort⟩

/-- The failure names the fuel that was used up. -/
theorem Check.normalize_of_exhausted {t : Ty} {o : Checker.Options} {s : Checker.State}
    {n : Normalizer} (h : t.normalize o.order (some f) s.supply o.depth = .error .fuel n) :
    Check.normalize { o with fuel := some f } t s =
      .error ⟨.fuel f, none⟩ { s with supply := n.supply } := by
  unfold Check.normalize
  rw [h]
  rfl

theorem Check.normalize_agreeUnless (o : Checker.Options) (hle : ∀ g ∈ fuel, f ≤ g) (t : Ty) :
    AgreeUnless (·.cause = .fuel f) (Check.normalize { o with fuel := some f } t)
      (Check.normalize { o with fuel } t) := by
  intro s
  rcases t.normalize_more_fuel hle o.order s.supply o.depth with ⟨n, hn⟩ | ⟨r, left, left', h, h'⟩
  · exact .inr ⟨_, _, normalize_of_exhausted hn, rfl⟩
  · cases r with
    | ok u c =>
      refine .inl ?_
      unfold Check.normalize
      rw [h, h']
      rfl
    | error e c =>
      cases e with
      | fuel => exact .inr ⟨_, _, normalize_of_exhausted h, rfl⟩
      | depth =>
        refine .inl ?_
        unfold Check.normalize
        rw [h, h']
        rfl

/-- Checkers that differ in fuel do the same, unless the first runs out of it. -/
theorem Check.fuel_parallel (same : Checker.Comparison) (o : Checker.Options)
    (hle : ∀ g ∈ fuel, f ≤ g) :
    Parallel (fun m m' => AgreeUnless (·.cause = .fuel f) m m') same same
      { o with fuel := some f } { o with fuel } where
  cache := rfl
  refl := .refl
  bind := .bind
  normalize := normalize_agreeUnless o hle
  agreeAt _ _ _ := .refl _

theorem Expr.typeOf_more_fuel (e : Expr) (o : Checker.Options) (tr : Trace)
    (hle : ∀ g ∈ fuel, f ≤ g) :
    (∃ l tr', e.typeOf { o with fuel := some f } tr = (.error ⟨.fuel f, l⟩, tr')) ∨
      e.typeOf { o with fuel } tr = e.typeOf { o with fuel := some f } tr := by
  unfold typeOf typeOfBy
  cases (e.rename {}).run 1 with
  | error u c => exact .inr rfl
  | ok r c =>
    have hrun := (fuel_parallel Ty.conform o hle).inferNormal r { supply := c, trace := tr }
    rcases hrun with heq | ⟨⟨cause, l⟩, s, herr, rfl⟩
    · refine .inr ?_
      simp only [EStateM.run, heq]
    · refine .inl ⟨l.or s.loc, s.trace, ?_⟩
      simp only [EStateM.run, herr, Failure.locate]

/-- Fuel only bounds the work. Every type has a cost, which may be infinite: runs of normalization
with less fuel end by using it up, and those with as much or more end as the run without a bound.
The failure names the fuel. So a program for which the checker does not run out of the fuel `f` has
the same outcome with every larger fuel and without a bound. -/
theorem fuel_only_bounds_work :
    (∀ (t : Ty) (o : Order) (c : Int), ∃ cost, t.HasCost o c cost) ∧
    (∀ (t : Ty) (o : Checker.Options) (s : Checker.State) (f : Int) (n : Normalizer),
      t.normalize o.order (some f) s.supply o.depth = .error .fuel n →
        Check.normalize { o with fuel := some f } t s =
          .error ⟨.fuel f, none⟩ { s with supply := n.supply }) ∧
    ∀ (e : Expr) (o : Checker.Options) (tr : Trace) (f : Int),
      (∃ l tr', e.typeOf { o with fuel := some f } tr = (.error ⟨.fuel f, l⟩, tr')) ∨
        ∀ fuel : Option Int, (∀ g ∈ fuel, f ≤ g) →
          e.typeOf { o with fuel } tr = e.typeOf { o with fuel := some f } tr := by
  refine ⟨Ty.exists_hasCost, fun _ _ _ _ _ => normalize_of_exhausted, fun e o tr f => ?_⟩
  by_cases h : ∃ l tr', e.typeOf { o with fuel := some f } tr = (.error ⟨.fuel f, l⟩, tr')
  · exact .inl h
  · exact .inr fun fuel hle => (e.typeOf_more_fuel o tr hle).resolve_left h

/-- `λx: (λA: *. A -> A) Int. x`. -/
def appliedOperator : Expr :=
  let A : Ident := ⟨⟨"A", 0⟩, none⟩
  let x : Ident := ⟨⟨"x", 0⟩, none⟩
  .lam x (.app (.bind .lam A .star (.arrow (.var A) (.var A))) .int) (.var x none) none

/-- `(λX: *. X X) (λX: *. X X)`, which has no kind and no normal form. -/
def selfApplied : Ty :=
  let X : Name := ⟨"X", 1⟩
  let self : Ty := .bind .lam X .star (.app (.var X .star) (.var X .star) .star) .star
  .app self self .star

/-- A type without a normal form uses up its 7 units of fuel, and 20 units are as good as no bound
for the program. -/
theorem fuel_only_bounds_work_applied :
    (∃ cost, selfApplied.HasCost .normal 1 cost) ∧
    Check.normalize { fuel := some 7 } selfApplied {} = .error ⟨.fuel 7, none⟩ {} ∧
    appliedOperator.typeOf { fuel := none } = appliedOperator.typeOf { fuel := some 20 } := by
  refine ⟨fuel_only_bounds_work.1 _ _ _,
    fuel_only_bounds_work.2.1 selfApplied {} {} 7 ⟨some 0, 1⟩
      (failure?_eq_some.1 (by decide +kernel)),
    (fuel_only_bounds_work.2.2 appliedOperator {} {} 20).resolve_left ?_ none nofun⟩
  rintro ⟨l, tr, h⟩
  have hok : (appliedOperator.typeOf { fuel := some 20 }).1.toOption.isSome := by decide +kernel
  rw [h] at hok
  cases hok

end SystemFOmega
