import SystemFOmega.Proofs.Core.Cost

/-!
# Normalization does not depend on names

Runs on types that differ in the names of binders rename different binders at different moments,
since that depends on which names happen to be equal and on where the counter stands. But both go
in step with the run on the one nameless form that the types have (`Ty.normalizeFrom_tracks`), and
so end alike (`Ty.endAlike_of_tracks`). The kinds of nodes and of bound names play no part either.
-/

namespace SystemFOmega

open Normalizer (forget)

namespace Ty

/-- Two types that differ at most in the names of binders and in kinds, those of bound names
included. -/
def ShapeEq (s t : Ty) : Prop := s.nameless.unkinded = t.nameless.unkinded

instance (s t : Ty) : Decidable (s.ShapeEq t) := inferInstanceAs (Decidable (_ = _))

/-- From the fuel `f` and two counters, runs on `s` and `t` both succeed, with types related by `R`
and the same fuel left, or both stop for the same reason. It is the fuel if the depth is beyond
it. -/
def EndAlike (R : Ty → Ty → Prop) (s t : Ty) (o : Order) (f c c' : Int) (d : Nat) : Prop :=
  (∃ u v left n n', s.normalize o (some f) c d = .ok u ⟨left, n⟩ ∧
    t.normalize o (some f) c' d = .ok v ⟨left, n'⟩ ∧ R u v) ∨
  ∃ e r r', s.normalize o (some f) c d = .error e r ∧
    t.normalize o (some f) c' d = .error e r' ∧ (f.toNat < d → e = .fuel)

section

variable {α β γ : Type} {φ : Ty → β} {o : Order} {d : Nat} {s t : Ty}

theorem Tracks.map {f : α → β} {m : Normalize α} {n : Nameless.Normalize β} (h : Tracks f m n)
    (g : β → γ) : Tracks (g ∘ f) m (g <$> n) := by
  rw [← bind_pure_comp, ← bind_pure m]
  exact h.bind fun a => .pure (g ∘ f) a

/-- Runs that go in step with one run end alike. -/
theorem endAlike_of_tracks {N : β → Nameless.Normalize β}
    (hN : ∀ t, Tracks φ (normalizeFrom o d t) (N (φ t))) (h : φ s = φ t) (f c c' : Int) :
    EndAlike (fun u v => φ u = φ v) s t o f c c' d := by
  have heq : forget φ (s.normalize o (some f) c d) = forget φ (t.normalize o (some f) c' d) := by
    refine (hN s ⟨some f, c⟩).trans ?_
    rw [h]
    exact (hN t ⟨some f, c'⟩).symm
  unfold EndAlike
  cases hs : s.normalize o (some f) c d with
  | ok u r =>
    cases ht : t.normalize o (some f) c' d with
    | ok v r' =>
      rw [hs, ht] at heq
      obtain ⟨huv, hleft⟩ := EStateM.Result.ok.inj heq
      refine .inl ⟨u, v, r.remaining, r.supply, r'.supply, rfl, ?_, huv⟩
      rw [hleft]
    | error e r' =>
      rw [hs, ht] at heq
      cases heq
  | error e r =>
    cases ht : t.normalize o (some f) c' d with
    | ok v r' =>
      rw [hs, ht] at heq
      cases heq
    | error e' r' =>
      rw [hs, ht] at heq
      obtain ⟨rfl, -⟩ := EStateM.Result.error.inj heq
      refine .inr ⟨e, r, r', rfl, rfl, fun hd => ?_⟩
      exact (fueled_sustained.normalizeFrom o d s hd).of_error hs

end

/-- The choice of names does not matter to normalization: on alpha-equivalent types, with any
counters, runs with the same fuel succeed with alpha-equivalent types and the same fuel left, or
both run out of it. The same holds of types that are alike up to the kinds of bound names. -/
theorem normalize_names_irrelevant (s t : Ty) (o : Order) (f c c' : Int) (d : Nat) :
    (s.AlphaEq t → EndAlike AlphaEq s t o f c c' d) ∧
      (s.ShapeEq t → EndAlike ShapeEq s t o f c c' d) := by
  constructor
  · intro h
    exact endAlike_of_tracks (normalizeFrom_tracks o d) h f c c'
  · intro h
    refine endAlike_of_tracks (φ := fun t => t.nameless.unkinded)
      (N := Nameless.normalizeFrom o d) (fun t => ?_) h f c c'
    rw [Nameless.normalizeFrom_unkinded]
    exact (normalizeFrom_tracks o d t).map Nameless.unkinded

/-- `(λx: *. ∀y: *. x) Z`, for any choice of the two names. -/
def constantOperator (x y : Name) : Ty :=
  let body : Ty := .bind .all y .star (.var x .star) .star
  .app (.bind .lam x .star body (.arrow .star .star)) (.var ⟨"Z", 1⟩ .star) .star

/-- A binder with the name of the argument is renamed, and another is not. -/
theorem normalize_names_irrelevant_constantOperator :
    EndAlike AlphaEq (constantOperator ⟨"X", 2⟩ ⟨"Z", 1⟩) (constantOperator ⟨"Z", 1⟩ ⟨"Y", 7⟩)
        .normal 8 1 40 9 ∧
      EndAlike ShapeEq (constantOperator ⟨"X", 2⟩ ⟨"Z", 1⟩) (constantOperator ⟨"Z", 1⟩ ⟨"Y", 7⟩)
        .applicative 3 1 40 9 :=
  ⟨(normalize_names_irrelevant _ _ .normal 8 1 40 9).1 (by decide),
    (normalize_names_irrelevant _ _ .applicative 3 1 40 9).2 (by decide)⟩

end Ty

end SystemFOmega
