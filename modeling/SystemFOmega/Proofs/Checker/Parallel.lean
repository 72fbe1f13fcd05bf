import SystemFOmega.Proofs.Checker.Callees
import SystemFOmega.Proofs.Checker.Steps

/-!
# Two checkers on one program

Two checkers that compare types differently, or that differ in their options, take the same steps
but for those in which types are compared or brought to normal form. A relation of computations
that holds there and goes from the parts of a sequence to the whole (`Check.Parallel`) holds
between the two checkers, whatever they look at (`Check.Parallel.expr`).
-/

namespace SystemFOmega

open Check

/-- The relation `R` of computations holds between the steps of two checkers, the first of which
compares types by `same` and has the options `o`. -/
structure Check.Parallel (R : {α : Type} → Check α → Check α → Prop)
    (same same' : Checker.Comparison) (o o' : Checker.Options) : Prop where
  cache : o.cache = o'.cache
  refl {α : Type} (m : Check α) : R m m
  bind {α β : Type} {m m' : Check α} {f f' : α → Check β} :
    R m m' → (∀ a, R (f a) (f' a)) → R (m >>= f) (m' >>= f')
  normalize (t : Ty) : R (Check.normalize o t) (Check.normalize o' t)
  agreeAt (e : Expr) (t u : Ty) : R (Check.agreeAt same e t u) (Check.agreeAt same' e t u)

variable {o o' : Checker.Options} {n : Nat}

namespace Check.Parallel

variable {R : {α : Type} → Check α → Check α → Prop} {same same' : Checker.Comparison}
  (hR : Parallel R same same' o o')
include hR

/-! ## Steps -/

/-- A first part that is the same in both checkers. -/
theorem step {α β : Type} (m : Check α) {f f' : α → Check β} (hf : ∀ a, R (f a) (f' a)) :
    R (m >>= f) (m >>= f') :=
  hR.bind (hR.refl m) hf

theorem kind (n : Nat) (Γ : Context) (k : KindExpr) :
    R (k.elaborate o n Γ) (k.elaborate o' n Γ) := by
  rw [KindExpr.elaborate_congr hR.cache]
  exact hR.refl _

theorem type (n : Nat) (Γ : Context) (t : TypeExpr) :
    R (t.elaborate o n Γ) (t.elaborate o' n Γ) := by
  rw [TypeExpr.elaborate_congr hR.cache]
  exact hR.refl _

theorem keepExpr (x : Name) (t : Ty) : R (Check.keepExpr o x t) (Check.keepExpr o' x t) := by
  rw [Check.keepExpr, Check.keepExpr, hR.cache]
  exact hR.refl _

theorem inferring {m m' : Check Ty} (h : R m m') (Γ : Context) (e : Expr) :
    R (Check.inferring Γ e m) (Check.inferring Γ e m') :=
  hR.step _ fun _ => hR.step _ fun _ => hR.bind h fun _ => hR.refl _

theorem checking {f f' : Ty → Check Unit} (h : ∀ t, R (f t) (f' t)) (Γ : Context) (e : Expr)
    (t : Ty) : R (Check.checking o Γ e t f) (Check.checking o' Γ e t f') :=
  hR.step _ fun _ => hR.bind (hR.normalize t) fun t' => hR.step _ fun _ => h t'

/-! ## Inference and comparison -/

/-- The rules of both checkers call what is related, within the bound `n` for the nesting. -/
theorem related (infer : ∀ Γ e, R (Expr.inferBy same o n Γ e) (Expr.inferBy same' o' n Γ e))
    (check : ∀ Γ e t, R (Expr.checkBy same o n Γ e t) (Expr.checkBy same' o' n Γ e t))
    (Γ : Context) (e : Expr) :
    Checker.Callees.Related (fun m m' => R m m') (fun m m' => R m m') (.within same o n)
      (.within same' o' n) Γ e where
  pure a := hR.refl _
  last h := h
  bind h hf := hR.bind h hf
  map g h := hR.bind h fun _ => hR.refl _
  step _ := hR.refl _
  normalize t := hR.normalize t
  agreeAt t u := hR.agreeAt e t u
  found {α x l f f'} _ hf := by
    unfold Context.findExpr Context.find
    cases hx : Γ.exprs.get? x.name with
    | some d => exact hf d hx
    | none => exact hR.refl (throw _)
  type _ := hR.type n Γ _
  kind _ := hR.kind n Γ _
  first _ := infer Γ _
  value {x l v} _ _ :=
    hR.bind (infer Γ v) fun t => hR.bind (hR.keepExpr x.name t) fun _ => hR.refl _
  infer _ := infer _ _
  check t _ := check _ _ t

/-- Both modes of the two checkers are related. -/
theorem expr (n : Nat) :
    (∀ Γ e, R (Expr.inferBy same o n Γ e) (Expr.inferBy same' o' n Γ e)) ∧
      ∀ Γ e t, R (Expr.checkBy same o n Γ e t) (Expr.checkBy same' o' n Γ e t) := by
  induction n with
  | zero =>
    constructor
    · intro Γ e
      rw [Expr.inferBy, Expr.inferBy]
      exact hR.refl _
    · intro Γ e t
      rw [Expr.checkBy, Expr.checkBy]
      exact hR.refl _
  | succ n ih =>
    have hrules := hR.related ih.1 ih.2
    constructor
    · intro Γ e
      rw [Expr.inferBy_succ, Expr.inferBy_succ]
      exact hR.inferring (hrules Γ e).inferRule Γ e
    · intro Γ e t
      rw [Expr.checkBy_succ, Expr.checkBy_succ]
      exact hR.checking (fun t' => (hrules Γ e).checkRule (ih.1 Γ e) t') Γ e t

/-- Runs with the options `o` and `o'` are related if their steps are. -/
theorem inferNormal (e : Expr) : R (e.inferNormal same o) (e.inferNormal same' o') :=
  hR.bind ((hR.expr _).1 {} e) hR.normalize

end Check.Parallel

end SystemFOmega
