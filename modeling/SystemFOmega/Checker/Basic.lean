import SystemFOmega.Checker.Context
import SystemFOmega.Checker.Failure
import SystemFOmega.Core.Normalize
import SystemFOmega.Surface.Display

/-!
# The checker's state

While it works, the checker keeps the place of the expression it looks at, what definitions have
been found to stand for, the counter for names that substitution needs, and the derivation
trace. All of this outlives a failure.
-/

namespace SystemFOmega

namespace Checker

/-- How programs are checked. -/
structure Options where
  /-- The fuel of each normalization, if it is bounded. -/
  fuel : Option Int := some 10000
  order : Order := .normal
  /-- Whether the first elaboration of a definition is kept for later uses. -/
  cache : Bool := true
  /-- The text of the program and its name, for reports. -/
  source : Option String := none
  file : Option String := none
  /-- The depth to which normalization may nest. -/
  depth : Nat := Ty.maxDepth
deriving DecidableEq

/-- What the checker keeps while it works. The tables have what definitions were found to stand for:
the types of expressions, the core types and the kinds. -/
structure State where
  loc : Option Location := none
  exprs : Table Name Ty := {}
  types : Table Name Ty := {}
  kinds : Table Name Kind := {}
  supply : Int := 1
  trace : Trace := {}
deriving DecidableEq

end Checker

/-- Computations of the checker. A failure leaves the state as it was when it happened. -/
abbrev Check := EStateM Failure Checker.State

namespace Check

/-- Fails for the cause `c`, at the place `l` if there is one. -/
def raise {α : Type} (c : Failure.Cause) (l : Option Location := none) : Check α := throw ⟨c, l⟩

/-- What a look-up in a context has found. -/
def found {α : Type} : Except Undefined α → Check α
  | .ok a => return a
  | .error u => throw u.failure

/-- Fails where two types or kinds differ. -/
def agree : Except Clash Unit → Check Unit
  | .ok () => return
  | .error c => raise (.clash c)

/-- Moves to the place of `e`, if that is known. -/
def enter (e : Expr) : Check Unit := modify fun s => { s with loc := e.loc.or s.loc }

/-- Adds a step to the trace, which is only made if the trace is enabled. -/
def note (step : Unit → Trace.Step) : Check Unit :=
  modify fun s => if s.trace.enabled then { s with trace := s.trace.add (step ()) } else s

/-- Brings a type to normal form with fresh fuel. -/
def normalize (o : Checker.Options) (t : Ty) : Check Ty := fun s =>
  match t.normalize o.order o.fuel s.supply o.depth with
  | .ok t' n => .ok t' { s with supply := n.supply }
  | .error .fuel n => .error ⟨.fuel (o.fuel.getD 0), none⟩ { s with supply := n.supply }
  | .error .depth n => .error ⟨.typeDepth, none⟩ { s with supply := n.supply }

/-- Puts `r` for `x` in `t`. -/
def subst (x : Name) (r t : Ty) : Check Ty :=
  modifyGet fun s =>
    let u := t.subst x r s.supply
    (u.1, { s with supply := u.2 })

/-- Keeps what the kind `x` stands for. -/
def keepKind (o : Checker.Options) (x : Name) (k : Kind) : Check Unit :=
  modify fun s => if o.cache then { s with kinds := s.kinds.insert x k } else s

/-- Keeps what the type `x` stands for. -/
def keepType (o : Checker.Options) (x : Name) (t : Ty) : Check Unit :=
  modify fun s => if o.cache then { s with types := s.types.insert x t } else s

/-- Keeps the type of the expression `x`. -/
def keepExpr (o : Checker.Options) (x : Name) (t : Ty) : Check Unit :=
  modify fun s => if o.cache then { s with exprs := s.exprs.insert x t } else s

end Check

end SystemFOmega
