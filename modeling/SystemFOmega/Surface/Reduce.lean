import SystemFOmega.Core.Strategy
import SystemFOmega.Diagnostic.Basic
import SystemFOmega.Surface.Display
import SystemFOmega.Surface.Subst

/-!
# Reducing expressions

A step contracts one redex: it applies an abstraction over values or types to its argument, puts
the value of a `let`, `type` or `kind` into its body, or drops a type annotation. The strategy
chooses the redex. `Expr.reduce` takes steps until none is possible or a limit is reached.
-/

namespace SystemFOmega

namespace Expr

/-- Puts in a replacement, from the counter `c`. -/
def replace (σ : Replacement) (e : Expr) (c : Int) : Expr × Int := (e.subst σ).run c

/-- Applies an abstraction over values to `a`. -/
def beta? (f a : Expr) (c : Int) : Option (Expr × Int) :=
  match f with
  | .lam x _ body _ => some (body.replace (.expr x.name a) c)
  | _ => none

/-- Applies an abstraction over types to `t`. -/
def typeBeta? (f : Expr) (t : TypeExpr) (c : Int) : Option (Expr × Int) :=
  match f with
  | .tlam x _ body _ => some (body.replace (.type x.name t) c)
  | _ => none

/-- One step from `e` and the counter `c`, if there is one. -/
def step? (s : Strategy) : Expr → Int → Option (Expr × Int)
  | .lit _ _, _ | .var _ _, _ => none
  | .ann e _ _, c => some (e, c)
  | .letIn x v e l, c =>
    (if s.eager then (v.step? s c).map fun r => (.letIn x r.1 e l, r.2) else none)
      <|> some (e.replace (.expr x.name v) c)
  | .typeIn x v e _, c => some (e.replace (.type x.name v) c)
  | .kindIn x v e _, c => some (e.replace (.kind x.name v) c)
  | .lam x t e l, c =>
    if s.strong then (e.step? s c).map fun r => (.lam x t r.1 l, r.2) else none
  | .tlam x k e l, c =>
    if s.strong then (e.step? s c).map fun r => (.tlam x k r.1 l, r.2) else none
  | .app f a l, c =>
    (if s.eager then none else f.beta? a c)
      <|> ((f.step? s c).map fun r => (.app r.1 a l, r.2))
      <|> (if s.eager || s.strong then (a.step? s c).map fun r => (.app f r.1 l, r.2) else none)
      <|> f.beta? a c
  | .tapp f t l, c =>
    (if s.eager then none else f.typeBeta? t c)
      <|> ((f.step? s c).map fun r => (.tapp r.1 t l, r.2))
      <|> f.typeBeta? t c

end Expr

/-- Where a run ends: the phrase and the counter, and the expressions after each step. -/
structure Reduction where
  result : Tree
  counter : Int
  history : List Expr
deriving DecidableEq

/-- Takes at most `limit` steps from `e`, behind the expressions in `past`, the latest first. -/
def Expr.reduceFrom (s : Strategy) : Nat → Expr → Int → List Expr → Reduction
  | 0, e, c, past => ⟨.expr e, c, past.reverse⟩
  | n + 1, e, c, past =>
    match e.step? s c with
    | none => ⟨.expr e, c, past.reverse⟩
    | some (e', c') => e'.reduceFrom s n c' (e' :: past)

/-- Takes at most `limit` steps from `e` and the counter `c`. -/
def Expr.reduce (s : Strategy) (limit : Nat) (e : Expr) (c : Int) : Reduction :=
  e.reduceFrom s limit c []

/-- Why a phrase cannot be reduced. -/
inductive Reduction.Fault where
  | negativeLimit (n : Int)
  | notAnExpression (form : String)
deriving DecidableEq

/-- How a reduction that cannot be started is reported. -/
def Reduction.Fault.diagnostic : Reduction.Fault → Diagnostic
  | .negativeLimit n => .evaluation ("Step limit must be non-negative, got " ++ toString n)
  | .notAnExpression form => .evaluation ("Cannot reduce expression: " ++ form)

/-- Takes at most `limit` steps from a phrase. Only expressions have steps, which shows when one is
asked for. -/
def Tree.reduce (s : Strategy) (limit : Int) (t : Tree) (c : Int) :
    Except Reduction.Fault Reduction :=
  if limit < 0 then .error (.negativeLimit limit)
  else
    match t with
    | .expr e => .ok (e.reduce s limit.toNat c)
    | _ => if limit = 0 then .ok ⟨t, c, []⟩ else .error (.notAnExpression t.form)

end SystemFOmega
