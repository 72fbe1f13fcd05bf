import SystemFOmega.Core.Equiv
import SystemFOmega.Diagnostic.Basic
import SystemFOmega.Surface.Printer
import SystemFOmega.Surface.Rename

/-!
# Why a program is rejected

A failure is a cause with the place of the expression that is to blame, if it is known. Each cause
has a diagnostic.
-/

namespace SystemFOmega

/-- Why a program is rejected. A cause holds the types and kinds themselves, which are only printed
for the report. -/
inductive Failure.Cause where
  /-- A reference to a name that is not in the context. -/
  | undefined (name : String) (available : List String)
  /-- An expression has the type `actual` where `expected` is asked for: they differ at `clash`. -/
  | mismatch (expected actual : Ty) (clash : Clash)
  /-- An expression of the type `t` is applied to an expression. -/
  | notArrow (t : Ty)
  /-- An expression of the type `t` is applied to a type. -/
  | notForall (t : Ty)
  /-- Two kinds or types differ. -/
  | clash (c : Clash)
  /-- A type `f` of kind `*` is applied to a type. -/
  | notOperator (f : Ty) (argument : TypeExpr)
  /-- Normalization has used up its fuel. -/
  | fuel (n : Int)
  /-- Normalization nests too deep. -/
  | typeDepth
  /-- Definitions refer to each other without end. -/
  | circular
deriving DecidableEq

/-- A cause, with the place of the phrase that it is about where the checker knows one. -/
structure Failure where
  cause : Failure.Cause
  loc : Option Location := none
deriving DecidableEq

/-- A name without a binder stops the checker at the place of the reference. -/
def Undefined.failure (u : Undefined) : Failure := ⟨.undefined u.name u.available, u.loc⟩

/-- A name without a binder is reported with the names that are in scope, so that similar ones can
be suggested. -/
def Undefined.diagnostic (u : Undefined) : Diagnostic :=
  .undefinedVariable u.name u.loc (some u.available)

/-- A clash is reported by what was received and what was expected, in this order. Kinds have the
wording of types that clash, with a message of their own. -/
def Clash.diagnostic (l : Option Location) : Clash → Diagnostic
  | .names received expected => .variableClash received.print expected.print l
  | .types received expected => .typeClash received.print expected.print l none
  | .kinds received expected =>
    .typeClash received.print expected.print l <|
      some ("kind clash: expected kind " ++ expected.print ++ " but got " ++ received.print)

/-- The report of a failure. A mismatch tells the whole types, and names as its cause the parts of
them that clash. -/
def Failure.diagnostic (f : Failure) : Diagnostic :=
  match f.cause with
  | .undefined name available => .undefinedVariable name f.loc (some available)
  | .mismatch expected actual clash =>
    let c := clash.diagnostic none
    { Diagnostic.mismatch expected.print actual.print f.loc with cause := some (c.code, c.message) }
  | .notArrow t => .notArrow t.print f.loc
  | .notForall t => .notForall t.print f.loc
  | .clash c => c.diagnostic f.loc
  | .notOperator g argument =>
    .typeClash g.kind.print "an arrow kind" f.loc <|
      some ("type " ++ g.print ++ " has kind * and cannot be applied to " ++ argument.print)
  | .fuel n => .budget n f.loc
  | .typeDepth => .typeDepth f.loc
  | .circular => .typing "definitions refer to each other without end" f.loc

end SystemFOmega
