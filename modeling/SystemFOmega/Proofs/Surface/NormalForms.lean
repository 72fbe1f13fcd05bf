import SystemFOmega.Proofs.Surface.Step

/-!
# Where strategies stop

The expressions without a next step are described for each strategy without its steps. A strategy
that reduces under binders stops where no redex is left at any position
(`Expr.step?_eq_none_iff_of_strong`), and one that does not stops at its weak normal forms
(`Expr.step?_eq_none_iff_of_weak`). Where there is a next step, it contracts one redex at one
position (`Expr.Reduces.exists_contractum`).
-/

namespace SystemFOmega.Expr

/-! ## Positions -/

/-- The expression with `r` at the position to which the frames lead, the outermost first. -/
def plugAll (Fs : List Frame) (r : Expr) : Expr := Fs.foldr (fun F e => F.plug e) r

/-- Only a redex is contracted. -/
theorem Contractum.isRedex {c c' : Int} {r r' : Expr} (h : Contractum c r r' c') :
    r.isRedex = true := by
  cases h with
  | erase => rfl
  | replace h => cases h <;> rfl

section

variable {s : Strategy} {e e' : Expr} {c c' : Int}

/-- A step contracts one redex and leaves what is around it. -/
theorem Reduces.exists_contractum (h : Reduces s c e e' c') :
    ∃ Fs r r', e = plugAll Fs r ∧ e' = plugAll Fs r' ∧ Contractum c r r' c' := by
  induction h with
  | @root r r' _ hr => exact ⟨[], r, r', rfl, rfl, hr⟩
  | @within F _ _ _ _ _ ih =>
    obtain ⟨Fs, r, r', rfl, rfl, hr⟩ := ih
    exact ⟨F :: Fs, r, r', rfl, rfl, hr⟩

/-! ## Strategies that reduce under binders -/

/-- Around a hole with a next step, such a strategy has one too. -/
theorem step?_of_plug_eq_none (hs : s.strong) {F : Frame} (h : (F.plug e).step? s c = none) :
    e.step? s c = none := by
  cases F with
  | lam => exact step?_lam_eq_none.1 h hs
  | tlam => exact step?_tlam_eq_none.1 h hs
  | fn => exact (step?_app_eq_none.1 h).2.1
  | arg => exact (step?_app_eq_none.1 h).2.2 (.inr hs)
  | tfn => exact (step?_tapp_eq_none.1 h).2
  | ann | value | body | typeBody | kindBody =>
    have hredex := isRedex_of_step?_eq_none h
    cases hredex

/-- A strong strategy stops at the expressions without a redex, and only there. -/
theorem step?_eq_none_iff_of_strong (hs : s.strong) :
    e.step? s c = none ↔ ∀ Fs r, e = plugAll Fs r → r.isRedex = false := by
  constructor
  · rintro h Fs r rfl
    induction Fs with
    | nil => exact isRedex_of_step?_eq_none h
    | cons F Fs ih => exact ih (step?_of_plug_eq_none hs h)
  · intro h
    cases hstep : e.step? s c with
    | none => rfl
    | some r =>
      obtain ⟨Fs, r, r', he, -, hr⟩ := (reduces_of_step? hstep).exists_contractum
      have hredex := h Fs r he
      rw [hr.isRedex] at hredex
      cases hredex

/-! ## Strategies that do not -/

/-- Weak normal forms. Those of an eager strategy have weak normal forms as arguments. -/
inductive WeakNormal (eager : Bool) : Expr → Prop
  | lit (n : Int) (l : Option Location) : WeakNormal eager (.lit n l)
  | var (x : Ident) (l : Option Location) : WeakNormal eager (.var x l)
  | lam (x : Ident) (t : TypeExpr) (e : Expr) (l : Option Location) :
    WeakNormal eager (.lam x t e l)
  | tlam (x : Ident) (k : KindExpr) (e : Expr) (l : Option Location) :
    WeakNormal eager (.tlam x k e l)
  | app {f a : Expr} (l : Option Location) : WeakNormal eager f → f.isLam = false →
    (eager → WeakNormal eager a) → WeakNormal eager (.app f a l)
  | tapp {f : Expr} (t : TypeExpr) (l : Option Location) : WeakNormal eager f →
    f.isTLam = false → WeakNormal eager (.tapp f t l)

theorem step?_eq_none_iff_of_weak (hs : s.strong = false) :
    e.step? s c = none ↔ WeakNormal s.eager e := by
  constructor
  · intro h
    induction e with
    | lit n l => exact .lit n l
    | var x l => exact .var x l
    | lam x t e l => exact .lam x t e l
    | tlam x k e l => exact .tlam x k e l
    | app f a l hf ha =>
      obtain ⟨hlam, hf', ha'⟩ := step?_app_eq_none.1 h
      exact .app l (hf hf') hlam fun hs => ha (ha' (.inl hs))
    | tapp f t l hf =>
      obtain ⟨hlam, hf'⟩ := step?_tapp_eq_none.1 h
      exact .tapp t l (hf hf') hlam
    | ann | letIn | typeIn | kindIn =>
      have hredex := isRedex_of_step?_eq_none h
      cases hredex
  · intro h
    induction h with
    | lit | var => rfl
    | lam => exact step?_lam_eq_none.2 fun h => absurd h (by simp [hs])
    | tlam => exact step?_tlam_eq_none.2 fun h => absurd h (by simp [hs])
    | app l _ hlam _ hf ha =>
      refine step?_app_eq_none.2 ⟨hlam, hf, fun h => ?_⟩
      rcases h with h | h
      · exact ha h
      · simp [hs] at h
    | tapp t l _ hlam hf => exact step?_tapp_eq_none.2 ⟨hlam, hf⟩

end

/-- Normal and applicative order stop at the expressions without a redex at any position, call by
name and call by value at their weak normal forms. Every step contracts one redex, and leaves all
around it as it is. -/
theorem stops_at_normal_forms (e : Expr) (c : Int) :
    (e.step? .normal c = none ↔ ∀ Fs r, e = plugAll Fs r → r.isRedex = false) ∧
    (e.step? .applicative c = none ↔ ∀ Fs r, e = plugAll Fs r → r.isRedex = false) ∧
    (e.step? .callByName c = none ↔ WeakNormal false e) ∧
    (e.step? .callByValue c = none ↔ WeakNormal true e) ∧
    ∀ s e' c', e.step? s c = some (e', c') →
      ∃ Fs r r', e = plugAll Fs r ∧ e' = plugAll Fs r' ∧ Contractum c r r' c' :=
  ⟨step?_eq_none_iff_of_strong rfl, step?_eq_none_iff_of_strong rfl, step?_eq_none_iff_of_weak rfl,
    step?_eq_none_iff_of_weak rfl, fun _ _ _ h => (reduces_of_step? h).exists_contractum⟩

/-- In `f ((λy: Int. y) 3)`, call by name leaves the argument of the variable as it is, and call by
value takes it. -/
theorem stops_at_normal_forms_unknownOf :
    let unknownOf (a : Expr) : Expr := .app (.var ⟨⟨"f", 0⟩, none⟩ none) a none
    let call : Expr :=
      .app (.lam ⟨⟨"y", 1⟩, none⟩ .int (.var ⟨⟨"y", 1⟩, none⟩ none) none) (.lit 3 none) none
    WeakNormal false (unknownOf call) ∧ ¬ WeakNormal true (unknownOf call) ∧
      ∃ Fs r r', unknownOf call = plugAll Fs r ∧
        unknownOf (.lit 3 none) = plugAll Fs r' ∧ Contractum 2 r r' 2 := by
  intro unknownOf call
  obtain ⟨-, -, hname, hvalue, hstep⟩ := stops_at_normal_forms (unknownOf call) 2
  exact ⟨hname.1 (by decide), fun hn => absurd (hvalue.2 hn) (by decide),
    hstep .callByValue _ _ (by decide)⟩

end SystemFOmega.Expr
