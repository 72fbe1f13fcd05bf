import SystemFOmega.Proofs.Surface.Freshness

/-!
# Strategies agree up to bound names

Whatever strategies take the steps from an expression, what they reach can be brought together again
by contractions (`Expr.strategies_confluent`). An expression that any contractions bring to one
without redexes is brought there by normal order (`Expr.normal_order_normalizing`).

Both are facts about skeletons. Contractions can follow the steps of a skeleton
(`Expr.exists_contractions`), and normal order follows its leftmost steps
(`Expr.reduceFrom_of_leftmosts`).
-/

namespace SystemFOmega.Expr

open Relation
open Skeleton (Steps Normal Leftmost)

/-- One step of some strategy, from a counter above all numbers of the expression. -/
def StepsTo (e e' : Expr) : Prop := ∃ s c c', Below c e.names ∧ e.step? s c = some (e', c')

/-- Some limit lets the reduction of `e` end in `r`, from which there is no step. -/
def EndsIn (s : Strategy) (e : Expr) (c : Int) (r : Expr) : Prop :=
  ∃ limit run, (Tree.expr e).reduce s limit c = .ok run ∧ run.result = .expr r ∧
    r.step? s run.counter = none

/-- With a limit that is large enough, normal order brings `e` to `n`, up to bound names. -/
def NormalizesTo (e : Expr) (c : Int) (n : Expr) : Prop :=
  ∃ enough : Int, ∀ limit, enough ≤ limit →
    ∃ run, (Tree.expr e).reduce .normal limit c = .ok run ∧ run.result.AlphaEq (.expr n)

variable {s : Strategy} {e e' n r : Expr} {c c' : Int}

/-! ## Contractions and skeletons -/

theorem Contraction.step (h : Contraction e e') : Skeleton.Step e.skeleton e'.skeleton := by
  obtain ⟨c, ms, c', hc, h⟩ := h
  exact h.step hc

theorem contractions_steps (h : ReflTransGen Contraction e e') : Steps e.skeleton e'.skeleton :=
  h.lift skeleton fun _ _ h => h.step

theorem stepsTo_steps (h : ReflTransGen StepsTo e e') : Steps e.skeleton e'.skeleton := by
  refine h.lift skeleton fun a b hstep => ?_
  obtain ⟨s, c, c', hc, hstep⟩ := hstep
  obtain ⟨ms, hms⟩ := contracts_of_step? hstep
  exact hms.step hc

/-- Contractions follow the steps of the skeleton. -/
theorem exists_contractions {u : Skeleton} (h : Steps e.skeleton u) :
    ∃ e', ReflTransGen Contraction e e' ∧ e'.skeleton = u := by
  induction h with
  | refl => exact ⟨e, .refl, rfl⟩
  | tail _ hstep ih =>
    obtain ⟨e₁, he₁, rfl⟩ := ih
    obtain ⟨e₂, ms, c', hms, he₂⟩ := exists_contracts hstep (Tree.below_nextId (.expr e₁))
    exact ⟨e₂, he₁.tail ⟨_, ms, c', Tree.below_nextId (.expr e₁), hms⟩, he₂⟩

/-- An expression without redexes has a skeleton without redexes. -/
theorem normal_of_no_contraction (h : ∀ e', ¬ Contraction e e') : e.skeleton.Normal := by
  intro u hu
  obtain ⟨e', ms, c', hms, -⟩ := exists_contracts hu (Tree.below_nextId (.expr e))
  exact h e' ⟨_, ms, c', Tree.below_nextId (.expr e), hms⟩

/-- Where a reduction under binders ends, the skeleton is in normal form. -/
theorem EndsIn.steps (h : EndsIn s e c r) (hs : s.strong) (hc : Below c e.names) :
    Steps e.skeleton r.skeleton ∧ r.skeleton.Normal := by
  obtain ⟨limit, run, hrun, hresult, hnone⟩ := h
  have hlimit : 0 ≤ limit := by
    by_contra hneg
    rw [Tree.reduce, if_pos (by omega)] at hrun
    cases hrun
  obtain ⟨run', r', hrun', hresult', hreach⟩ := exists_run_of_reduce s e c hlimit
  obtain rfl := Except.ok.inj (hrun.symm.trans hrun')
  obtain rfl := Tree.expr.inj (hresult.symm.trans hresult')
  exact ⟨(hreach.steps hc).1, normal_of_step?_eq_none hs hnone⟩

/-! ## Confluence -/

/-- What any strategies reach from an expression can be brought together by contractions, up to
bound names. So normal and applicative order end in the same expression, if they end. -/
theorem strategies_confluent :
    (∀ e e₁ e₂, ReflTransGen StepsTo e e₁ → ReflTransGen StepsTo e e₂ →
      ∃ w₁ w₂, ReflTransGen Contraction e₁ w₁ ∧ ReflTransGen Contraction e₂ w₂ ∧ w₁.AlphaEq w₂) ∧
    ∀ e c₁ c₂ r₁ r₂, Below c₁ e.names → Below c₂ e.names → EndsIn .normal e c₁ r₁ →
      EndsIn .applicative e c₂ r₂ → r₁.AlphaEq r₂ := by
  constructor
  · intro e e₁ e₂ h₁ h₂
    obtain ⟨w, hw₁, hw₂⟩ := (stepsTo_steps h₁).join (stepsTo_steps h₂)
    obtain ⟨w₁, hc₁, rfl⟩ := exists_contractions hw₁
    obtain ⟨w₂, hc₂, heq⟩ := exists_contractions hw₂
    exact ⟨w₁, w₂, hc₁, hc₂, heq.symm⟩
  · intro e c₁ c₂ r₁ r₂ hc₁ hc₂ h₁ h₂
    obtain ⟨hsteps₁, hn₁⟩ := h₁.steps rfl hc₁
    obtain ⟨hsteps₂, hn₂⟩ := h₂.steps rfl hc₂
    exact hsteps₁.unique hsteps₂ hn₁ hn₂

/-- Of `(λx: Int. λy: Int. x) ((λz: Int. z) y)`, normal order contracts the whole first and
applicative order the argument. From different counters, they end with different bound names. -/
theorem strategies_confluent_constantOf :
    let y : Expr := .var ⟨⟨"y", 2⟩, none⟩ none
    let argument : Expr :=
      .app (.lam ⟨⟨"z", 3⟩, none⟩ .int (.var ⟨⟨"z", 3⟩, none⟩ none) none) y none
    let constant (i : Int) (w : Expr) : Expr := .lam ⟨⟨"y", i⟩, none⟩ .int w none
    let constantOf (a : Expr) : Expr :=
      .app (.lam ⟨⟨"x", 1⟩, none⟩ .int (constant 2 (.var ⟨⟨"x", 1⟩, none⟩ none)) none) a none
    (∃ w₁ w₂, ReflTransGen Contraction (constant 4 argument) w₁ ∧
      ReflTransGen Contraction (constantOf y) w₂ ∧ w₁.AlphaEq w₂) ∧
    (constant 4 y).AlphaEq (constant 9 y) := by
  intro y argument constant constantOf
  have hnormal : StepsTo (constantOf argument) (constant 4 argument) :=
    ⟨.normal, 4, 5, by decide, by decide⟩
  have happlicative : StepsTo (constantOf argument) (constantOf y) :=
    ⟨.applicative, 4, 4, by decide, by decide⟩
  refine ⟨strategies_confluent.1 _ _ _ (.single hnormal) (.single happlicative), ?_⟩
  exact strategies_confluent.2 (constantOf argument) 4 9 _ _ (by decide) (by decide)
    ⟨5, _, rfl, rfl, by decide⟩ ⟨5, _, rfl, rfl, by decide⟩

/-! ## Normal order -/

/-- Normal order follows the leftmost steps of the skeleton to a normal form. -/
theorem reduceFrom_of_leftmosts {t u : Skeleton} (h : ReflTransGen Leftmost t u) (hu : u.Normal)
    (ht : e.skeleton = t) (hc : Below c e.names) :
    ∃ k, ∀ n, k ≤ n → ∀ past, ∃ r, (e.reduceFrom .normal n c past).result = .expr r ∧
      r.skeleton = u := by
  -- from the front, as the loop goes: each step gives the expression and counter of the next
  induction h using ReflTransGen.head_induction_on generalizing e c with
  | refl =>
    refine ⟨0, fun n _ past => ⟨e, ?_, ht⟩⟩
    have hnone : e.step? .normal c = none := step?_eq_none_of_normal (ht ▸ hu) hc
    cases n with
    | zero => rfl
    | succ n => rw [reduceFrom, hnone]
  | head hstep _ ih =>
    subst ht
    obtain ⟨e', c', he', rfl⟩ := step?_of_leftmost hstep hc
    obtain ⟨ms, hms⟩ := contracts_of_step? he'
    obtain ⟨k, hk⟩ := ih rfl (hms.names_below hc)
    refine ⟨k + 1, fun n hn past => ?_⟩
    obtain ⟨m, rfl⟩ : ∃ m, n = m + 1 := ⟨n - 1, by omega⟩
    obtain ⟨r, hr, hskel⟩ := hk m (by omega) (e' :: past)
    refine ⟨r, ?_, hskel⟩
    rw [reduceFrom, he']
    exact hr

theorem normalizesTo_of_steps (h : Steps e.skeleton n.skeleton) (hn : n.skeleton.Normal)
    (hc : Below c e.names) : NormalizesTo e c n := by
  obtain ⟨k, hk⟩ := reduceFrom_of_leftmosts (h.leftmosts hn) hn rfl hc
  refine ⟨k, fun limit hlimit => ⟨e.reduce .normal limit.toNat c, ?_, ?_⟩⟩
  · rw [Tree.reduce, if_neg (by omega)]
  · obtain ⟨r, hr, hskel⟩ := hk limit.toNat (by omega) []
    rw [Tree.AlphaEq, reduce, hr]
    exact hskel

/-- Normal order is normalizing: it ends, in the same expression up to bound names, whenever any
contractions, or the steps of applicative order, end in one without redexes. -/
theorem normal_order_normalizing :
    (∀ e n c, Below c e.names → ReflTransGen Contraction e n → (∀ n', ¬ Contraction n n') →
      NormalizesTo e c n) ∧
    ∀ e n c c', Below c e.names → Below c' e.names → EndsIn .applicative e c' n →
      NormalizesTo e c n := by
  constructor
  · intro e n c hc h hn
    exact normalizesTo_of_steps (contractions_steps h) (normal_of_no_contraction hn) hc
  · intro e n c c' hc hc' h
    obtain ⟨hsteps, hn⟩ := h.steps rfl hc'
    exact normalizesTo_of_steps hsteps hn hc

/-- Normal order does not reduce an argument that is dropped, such as the one without a normal form
in `(λy: Int. 5) ((λz: Int. z z) (λz: Int. z z))`. It ends as well where applicative order does. -/
theorem normal_order_normalizing_dropped :
    let y : Expr := .var ⟨⟨"y", 2⟩, none⟩ none
    let z : Expr := .var ⟨⟨"z", 3⟩, none⟩ none
    let lambdaY (i : Int) (w : Expr) : Expr := .lam ⟨⟨"y", i⟩, none⟩ .int w none
    let lambdaZ (w : Expr) : Expr := .lam ⟨⟨"z", 3⟩, none⟩ .int w none
    let diverging : Expr := .app (lambdaZ (.app z z none)) (lambdaZ (.app z z none)) none
    let first : Expr := .lam ⟨⟨"x", 1⟩, none⟩ .int (lambdaY 2 (.var ⟨⟨"x", 1⟩, none⟩ none)) none
    NormalizesTo (.app (lambdaY 2 (.lit 5 none)) diverging none) 4 (.lit 5 none) ∧
    NormalizesTo (.app first (.app (lambdaZ z) y none) none) 4 (lambdaY 9 y) := by
  intro y z lambdaY lambdaZ diverging first
  constructor
  · exact normal_order_normalizing.1 _ _ 4 (by decide)
      (.single ⟨4, [], 4, by decide, .replace (.beta _ _ _ _ _ _) rfl (.leaf _)⟩)
      fun _ h => Normal.leaf _ _ h.step
  · exact normal_order_normalizing.2 (.app first (.app (lambdaZ z) y none) none) _ 4 9 (by decide)
      (by decide) ⟨5, _, rfl, rfl, by decide⟩

end SystemFOmega.Expr
