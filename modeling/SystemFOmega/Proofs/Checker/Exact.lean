import SystemFOmega.Proofs.Checker.Parallel
import SystemFOmega.Proofs.Core.Equiv
import SystemFOmega.Proofs.Run

/-!
# The checker and the exact comparison

`Ty.conformExactly` compares types as the checker does and accepts them only if they are
alpha-equivalent. A checker that uses it gives the same answers as the checker itself, but for one
thing: it fails where the checker has accepted two types because a binder has captured a free name
(`Expr.inferNormal_agrees`).
-/

namespace SystemFOmega

/-- Compares types up to alpha-equivalence. -/
def Ty.conformExactly (received expected : Ty) : Except Clash Unit := do
  received.conform expected
  if received.AlphaEq expected then return else throw (.types received expected)

theorem Ty.alphaEq_of_conformExactly {t u : Ty} (h : t.conformExactly u = .ok ()) :
    t.AlphaEq u := by
  have hif := (Ty.and_then_ok_iff.1 h).2
  split at hif
  · assumption
  · cases hif

/-- A failure of the exact comparison where the comparison of the checker succeeds. -/
def Failure.Captured (f : Failure) : Prop :=
  ∃ expected actual clash, f.cause = .mismatch expected actual clash ∧
    actual.conform expected = .ok () ∧ actual.nameless.Captures expected

/-- The two computations do the same, if the first does not fail because of a capture. -/
def Check.Agrees {α : Type} (m m' : Check α) : Prop :=
  ∀ s, m s = m' s ∨ ∃ f s', m s = .error f s' ∧ f.Captured

namespace Expr

open Check

theorem agreeAt_agrees (e : Expr) (t u : Ty) :
    Agrees (agreeAt Ty.conformExactly e t u) (agreeAt Ty.conform e t u) := by
  intro s
  unfold agreeAt Ty.conformExactly
  cases hc : t.conform u with
  | error c => exact .inl rfl
  | ok =>
    by_cases h : t.AlphaEq u
    · rw [if_pos h]
      exact .inl rfl
    · rw [if_neg h]
      have hcap : t.nameless.Captures u :=
        Classical.byContradiction fun hno => h (Ty.alphaEq_of_conform hc hno)
      exact .inr ⟨_, _, rfl, u, t, _, rfl, hc, hcap⟩

/-- The two checkers differ in the comparison only. -/
theorem agrees_parallel (o : Checker.Options) :
    Parallel (fun m m' => Agrees m m') Ty.conformExactly Ty.conform o o where
  cache := rfl
  refl := Run.AgreeUnless.refl
  bind := Run.AgreeUnless.bind
  normalize _ := Run.AgreeUnless.refl _
  agreeAt := agreeAt_agrees

theorem inferNormal_agrees (o : Checker.Options) (e : Expr) :
    Agrees (e.inferNormal Ty.conformExactly o) (e.inferNormal Ty.conform o) :=
  (agrees_parallel o).inferNormal e

end Expr

end SystemFOmega
