import SystemFOmega.Proofs.Surface.Contraction
import SystemFOmega.Proofs.Surface.Safety

/-!
# Reduction keeps names apart

A reduction starts from a counter above all numbers of its expression, which renaming and
`Tree.nextId` both give (`Expr.Starts.below`). Every step keeps the counter there and is a step of
the skeleton, so that no name becomes free on the way (`Expr.Run.steps`). So the names that a step
makes for binders are never ones that the expression has (`Expr.reduction_scoped`).
-/

namespace SystemFOmega

open Skeleton (Steps)

theorem le_foldl_max {ns : List Int} {m n : Int} (h : m ≤ n ∨ m ∈ ns) : m ≤ ns.foldl max n := by
  induction ns generalizing n with
  | nil => exact h.resolve_right List.not_mem_nil
  | cons k ns ih =>
    refine ih ?_
    rcases h with h | h
    · exact .inl (by omega)
    · rcases List.mem_cons.1 h with rfl | h
      · exact .inl (by omega)
      · exact .inr h

/-- The next number of a phrase is above all that it has. -/
theorem Tree.below_nextId (t : Tree) : Below t.nextId t.names := by
  intro x hx
  have hmem : x.id ∈ t.names.map (·.id) := List.mem_map_of_mem hx
  rw [nextId]
  split
  case h_1 h =>
    rw [h] at hmem
    cases hmem
  case h_2 n ns h =>
    rw [h, List.mem_cons] at hmem
    have hle : x.id ≤ ns.foldl max n := le_foldl_max (hmem.imp_left Int.le_of_eq)
    omega

namespace Expr

/-- Where a reduction starts: at a renamed expression, with the counter that renaming has left, or
at any expression, with its next number. -/
def Starts (e : Expr) (c : Int) : Prop :=
  (∃ (e₀ : Expr) (c₀ : Int), e₀.rename {} c₀ = .ok e c) ∨ c = (Tree.expr e).nextId

variable {s : Strategy} {e e' : Expr} {c c' : Int}

theorem Starts.below (h : Starts e c) : Below c e.names := by
  rcases h with ⟨e₀, c₀, h⟩ | rfl
  · exact below_of_rename h
  · exact Tree.below_nextId (.expr e)

/-- A run takes steps of the skeleton, and the counter stays above all numbers. -/
theorem Run.steps (h : Run s (e, c) (e', c')) (hc : Below c e.names) :
    Steps e.skeleton e'.skeleton ∧ Below c' e'.names := by
  generalize hp : (e, c) = p, hq : (e', c') = q at h
  induction h generalizing e' c' with
  | refl =>
    cases hp.trans hq.symm
    exact ⟨.refl, hc⟩
  | @tail p' q' _ hstep ih =>
    cases hq
    obtain ⟨hsteps, hbelow⟩ := @ih p'.1 p'.2 rfl
    obtain ⟨ms, hms⟩ := contracts_of_step? hstep
    exact ⟨hsteps.tail (hms.step hbelow), hms.names_below hbelow⟩

/-- The loop of `Tree.reduce` goes through the states of a run. -/
theorem exists_run_of_reduce (s : Strategy) (e : Expr) (c : Int) {limit : Int}
    (hlimit : 0 ≤ limit) :
    ∃ run e', (Tree.expr e).reduce s limit c = .ok run ∧ run.result = .expr e' ∧
      Run s (e, c) (e', run.counter) := by
  have hresult (n : Nat) (e : Expr) (c : Int) (past : List Expr) :
      ∃ e', (e.reduceFrom s n c past).result = .expr e' := by
    fun_induction reduceFrom s n e c past with
    | case1 => exact ⟨_, rfl⟩
    | case2 => exact ⟨_, rfl⟩
    | case3 _ _ _ _ _ _ _ ih => exact ih
  obtain ⟨e', he'⟩ := hresult limit.toNat e c []
  have hloop : e.reduceFrom s limit.toNat c [] =
      ⟨.expr e', (e.reduce s limit.toNat c).counter, (e.reduce s limit.toNat c).history⟩ := by
    rw [← he']
    rfl
  refine ⟨e.reduce s limit.toNat c, e', ?_, he', run_of_reduceFrom hloop⟩
  rw [Tree.reduce, if_neg (by omega)]

/-- In every state of a reduction, the free names are among those of the start, all numbers are
below the counter, and the names that the next step makes, one for each number that the counter
passes, are new and differ from each other. -/
theorem reduction_scoped (h : Starts e c) (s : Strategy) :
    (∀ limit : Int, 0 ≤ limit → ∃ run e', (Tree.expr e).reduce s limit c = .ok run ∧
      run.result = .expr e' ∧ Run s (e, c) (e', run.counter)) ∧
    ∀ e' c', Run s (e, c) (e', c') →
      (∀ l, e'.free l ⊆ e.free l) ∧ (e.Closed → e'.Closed) ∧
      (∀ x ∈ e'.names, x.id < c') ∧
      ∀ e'' c'', e'.step? s c' = some (e'', c'') →
        ∃ ms, Contracts c' ms c'' e' e'' ∧ Numbered c' c'' ms ∧ (∀ y ∈ ms, y ∉ e'.names) ∧
          ms.Nodup := by
  refine ⟨fun limit hlimit => exists_run_of_reduce s e c hlimit, fun e' c' hrun => ?_⟩
  obtain ⟨hsteps, hbelow⟩ := hrun.steps h.below
  have hfree (l : Level) : e'.free l ⊆ e.free l :=
    fun y hy => mem_free.2 (hsteps.uses (mem_free.1 hy))
  refine ⟨hfree, fun hclosed l => ?_, hbelow, fun e'' c'' hstep => ?_⟩
  · have hnil := hfree l
    rw [hclosed l] at hnil
    exact List.subset_nil.1 hnil
  · obtain ⟨ms, hms⟩ := contracts_of_step? hstep
    have hnum := hms.numbered
    exact ⟨ms, hms, hnum, fun y hy => hbelow.not_mem (hnum.le_of_mem hy), hnum.nodup⟩

/-- `(λx: Int. λy: Int. x) y`, whose argument is not the `y` that is bound in the function. -/
def capturable : Expr :=
  .app
    (.lam ⟨⟨"x", 1⟩, none⟩ .int
      (.lam ⟨⟨"y", 2⟩, none⟩ .int (.var ⟨⟨"x", 1⟩, none⟩ none) none) none)
    (.var ⟨⟨"y", 2⟩, none⟩ none) none

/-- Its reduction makes a new name for the binder. -/
theorem reduction_scoped_capturable :
    ∃ ms, Contracts 3 ms 4 capturable
        (.lam ⟨⟨"y", 3⟩, none⟩ .int (.var ⟨⟨"y", 2⟩, none⟩ none) none) ∧
      Numbered 3 4 ms ∧ (∀ y ∈ ms, y ∉ capturable.names) ∧ ms.Nodup :=
  ((reduction_scoped (c := 3) (.inr (by decide)) .normal).2 capturable 3 .refl).2.2.2 _ 4
    (by decide)

end Expr

end SystemFOmega
