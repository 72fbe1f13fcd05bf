import SystemFOmega.Core.Equiv
import SystemFOmega.Proofs.Core.Nameless

/-!
# Comparison and alpha-equivalence

`Ty.conform` brings two binders together by putting the expected name for the received one.
Alpha-equivalent types always conform, in both directions (`Ty.AlphaEq.conform`). The converse
fails: a binder of the expected type may have a name that is free in the received one, and the two
are then taken for the same. `Nameless.Captures` says that this happens at some binder, and
alpha-equivalence is conformance without it (`Ty.alphaEq_of_conform`).
-/

namespace SystemFOmega

/-- Whether a comparison with an expected type confuses names: at some pair of binders that it
reaches, the name of the expected binder is free in the received type. -/
def Nameless.Captures : Nameless → Ty → Prop
  | .arrow s t, .arrow s' t' _ => s.Captures s' ∨ t.Captures t'
  | .bind b k t, .bind _ y _ t' _ =>
    (Nameless.bind b k t).Uses (.free y) ∨ (t.inst (.var (.free y))).Captures t'
  | .app f a, .app f' a' _ => f.Captures f' ∨ a.Captures a'
  | _, _ => False
termination_by structural _ t => t

/-! ## What one comparison asks for -/

theorem Kind.conform_ok_iff {k l : Kind} : k.conform l = .ok () ↔ k = l := by
  by_cases h : k = l <;> simp [Kind.conform, h]

namespace Ty

theorem and_then_ok_iff {a b : Except Clash Unit} :
    (do a; b) = Except.ok () ↔ a = .ok () ∧ b = .ok () := by
  rcases a with c | ⟨⟩
  · simp [Bind.bind, Except.bind]
  · simp [Bind.bind, Except.bind]

theorem conform_arrow_iff {s t s' t' : Ty} {k l : Kind} :
    (arrow s t k).conform (arrow s' t' l) = .ok () ↔
      s.conform s' = .ok () ∧ t.conform t' = .ok () :=
  and_then_ok_iff

theorem conform_app_iff {f a f' a' : Ty} {k l : Kind} :
    (app f a k).conform (app f' a' l) = .ok () ↔ f.conform f' = .ok () ∧ a.conform a' = .ok () :=
  and_then_ok_iff

theorem conform_bind_iff {b b' : Binder} {x y : Name} {xk yk k l : Kind} {t t' : Ty} :
    (bind b x xk t k).conform (bind b' y yk t' l) = .ok () ↔
      b = b' ∧ xk = yk ∧ (t.subst x (.var y yk) 1).1.conform t' = .ok () := by
  rw [conform]
  by_cases hb : b = b'
  · rw [if_pos hb, and_then_ok_iff, Kind.conform_ok_iff]
    exact (and_iff_right hb).symm
  · simp [hb]

/-! ## Alpha-equivalent types conform -/

/-- Both binders opened with the expected name. -/
theorem nameless_rebind (t : Ty) (x y : Name) (k : Kind) :
    (t.subst x (.var y k) 1).1.nameless =
      (t.nameless.rename (Ref.close x)).inst (.var (.free y)) :=
  nameless_subst_eq_inst t x _ 1

theorem AlphaEq.conform {s t : Ty} (h : s.AlphaEq t) : s.conform t = .ok () := by
  -- the received body is renamed on the way, so the induction is on the expected type
  induction t generalizing s with
  | int l =>
    cases s <;> simp_all [AlphaEq, nameless]
    rfl
  | var y l =>
    cases s <;> simp_all [AlphaEq, nameless]
    simp [Ty.conform]
  | arrow s' t' l hs ht =>
    cases s with
    | arrow s t k =>
      obtain ⟨h₁, h₂⟩ := Nameless.arrow.inj h
      exact conform_arrow_iff.2 ⟨hs h₁, ht h₂⟩
    | _ => simp [AlphaEq, nameless] at h
  | bind b y yk t' l ht =>
    cases s with
    | bind b' x xk t k =>
      obtain ⟨hb, hk, hbody⟩ := Nameless.bind.inj h
      refine conform_bind_iff.2 ⟨hb, hk, ht ?_⟩
      rw [AlphaEq, nameless_rebind, hbody, Nameless.inst_close]
    | _ => simp [AlphaEq, nameless] at h
  | app f' a' l hf ha =>
    cases s with
    | app f a k =>
      obtain ⟨h₁, h₂⟩ := Nameless.app.inj h
      exact conform_app_iff.2 ⟨hf h₁, ha h₂⟩
    | _ => simp [AlphaEq, nameless] at h

/-- Alpha-equivalent types conform to each other, whatever names their binders have, and every type
conforms to itself. -/
theorem AlphaEq.conform_both (s t : Ty) (h : s.AlphaEq t) :
    s.conform t = .ok () ∧ t.conform s = .ok () ∧ s.conform s = .ok () :=
  ⟨AlphaEq.conform h, AlphaEq.conform (Eq.symm h), AlphaEq.conform rfl⟩

/-- Binders that repeat a name, hide it or have the name of a free variable of the other side:
`∀A. (∀A. A -> B) -> A` and `∀C. (∀A. A -> B) -> C`. -/
theorem AlphaEq.conform_both_shadowed :
    let A : Name := ⟨"A", 1⟩
    let B : Name := ⟨"B", 2⟩
    let C : Name := ⟨"C", 3⟩
    let inner : Ty := .bind .all A .star (.arrow (.var A .star) (.var B .star) .star) .star
    let s : Ty := .bind .all A .star (.arrow inner (.var A .star) .star) .star
    let t : Ty := .bind .all C .star (.arrow inner (.var C .star) .star) .star
    s.AlphaEq t ∧ s.conform t = .ok () ∧ t.conform s = .ok () ∧ s.conform s = .ok () :=
  ⟨by decide, AlphaEq.conform_both _ _ (by decide)⟩

/-! ## When conforming types are alpha-equivalent -/

theorem AlphaEq.not_captures {s : Nameless} {t : Ty} (h : s = t.nameless) : ¬ s.Captures t := by
  subst h
  induction t with
  | int l => simp [nameless, Nameless.Captures]
  | var y l => simp [nameless, Nameless.Captures]
  | arrow s t l hs ht => exact not_or.2 ⟨hs, ht⟩
  | bind b y yk t l ht =>
    refine not_or.2 ⟨?_, ?_⟩
    · intro h
      have hy := (uses_nameless_free (t := .bind b y yk t l)).1 h
      simp [freeVars] at hy
    · rwa [Nameless.inst_close]
  | app f a l hf ha => exact not_or.2 ⟨hf, ha⟩

theorem alphaEq_of_conform {s t : Ty} (h : s.conform t = .ok ())
    (hc : ¬ s.nameless.Captures t) : s.AlphaEq t := by
  induction t generalizing s with
  | int l => cases s <;> simp_all [Ty.conform, AlphaEq, nameless]
  | var y l => cases s <;> simp_all [Ty.conform, AlphaEq, nameless]
  | arrow s' t' l hs ht =>
    cases s with
    | arrow s t k =>
      obtain ⟨h₁, h₂⟩ := conform_arrow_iff.1 h
      obtain ⟨c₁, c₂⟩ := not_or.1 hc
      rw [AlphaEq, nameless, nameless, hs h₁ c₁, ht h₂ c₂]
    | _ => simp [Ty.conform] at h
  | bind b y yk t' l ht =>
    cases s with
    | bind b' x xk t k =>
      obtain ⟨rfl, rfl, hbody⟩ := conform_bind_iff.1 h
      obtain ⟨hy, hc⟩ := not_or.1 hc
      have ho := ht hbody (by rwa [nameless_rebind])
      -- the opened bodies are equal, and the expected name is free in neither binder
      have hcl :=
        congrArg (Nameless.rename (Ref.close y)) ((nameless_rebind t x y xk).symm.trans ho)
      rw [Nameless.close_inst (b := b') (k := xk) hy] at hcl
      exact congrArg (Nameless.bind b' xk) hcl
    | _ => simp [Ty.conform] at h
  | app f' a' l hf ha =>
    cases s with
    | app f a k =>
      obtain ⟨h₁, h₂⟩ := conform_app_iff.1 h
      obtain ⟨c₁, c₂⟩ := not_or.1 hc
      rw [AlphaEq, nameless, nameless, hf h₁ c₁, ha h₂ c₂]
    | _ => simp [Ty.conform] at h

/-- A comparison is right exactly when it confuses no names: two types are alpha-equivalent if and
only if they conform and no binder of the expected type has a name that is free in the received one
where the two meet. -/
theorem alphaEq_iff_conform_not_captures (received expected : Ty) :
    received.AlphaEq expected ↔
      received.conform expected = .ok () ∧ ¬ received.nameless.Captures expected :=
  ⟨fun h => ⟨h.conform, AlphaEq.not_captures h⟩, fun h => alphaEq_of_conform h.1 h.2⟩

/-- `∀A. B` conforms to `∀B. B`, in which the binder has the name that is free in `∀A. B`. -/
theorem conform_not_alphaEq :
    let A : Name := ⟨"A", 1⟩
    let B : Name := ⟨"B", 2⟩
    let received : Ty := .bind .all A .star (.var B .star) .star
    let expected : Ty := .bind .all B .star (.var B .star) .star
    received.conform expected = .ok () ∧ ¬ received.AlphaEq expected :=
  ⟨by cbv, by decide⟩

end Ty

end SystemFOmega
