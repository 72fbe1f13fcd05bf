import SystemFOmega.Proofs.Checker.Traversal

/-!
# Checking without a trace

The only step of the checker that looks at the trace is to note something, and a trace that is off
stays as it is. So the trace is after every run what it was before (`Expr.typeOf_trace`), also where
the run fails.
-/

namespace SystemFOmega

open Run Check

/-- A computation of the checker that leaves the trace `tr` as it is. -/
abbrev Check.Quiet {α : Type} (tr : Trace) (m : Check α) : Prop :=
  Maintains (fun s : Checker.State => s.trace = tr) m

variable {tr : Trace} {o : Checker.Options}

/-- To keep something in a table, if there is a cache. -/
theorem Check.keep_quiet {f : Checker.State → Checker.State} (hf : ∀ s, (f s).trace = s.trace) :
    Quiet tr (modify fun s => if o.cache then f s else s) := by
  intro s hs
  show (if o.cache then f s else s).trace = tr
  split
  · rw [hf, hs]
  · exact hs

theorem Check.quiet_stable (htr : tr.enabled = false) :
    Stable (fun _ => True) fun m => Quiet tr m where
  pure := .pure
  bind := .bind
  get := .get
  raise _ _ _ := .throw _
  enter _ := fun _ h => h
  note step := by
    intro s hs
    show (if s.trace.enabled then _ else s : Checker.State).trace = tr
    rw [if_neg (by simp [hs, htr]), hs]
  normalize o t := by
    intro s hs
    unfold Check.normalize
    split <;> exact hs
  subst _ _ _ := fun _ h => h
  keepKind _ _ _ := keep_quiet fun _ => rfl
  keepType _ _ _ := keep_quiet fun _ => rfl
  keepExpr _ _ _ := keep_quiet fun _ => rfl

/-- A trace that is off records nothing. -/
theorem Expr.typeOf_trace (e : Expr) (htr : tr.enabled = false) : (e.typeOf o tr).2 = tr := by
  unfold typeOf typeOfBy
  split
  · rfl
  · rename_i r c _
    have h : Quiet tr (r.inferNormal Ty.conform o) :=
      inferNormal_stable (quiet_stable htr) _ o
        (r.each_of_forall (fun _ => trivial) fun _ => trivial)
    have hend := h { supply := c, trace := tr } rfl
    split <;> rename_i hrun <;> rwa [show r.inferNormal _ o _ = _ from hrun] at hend

end SystemFOmega
