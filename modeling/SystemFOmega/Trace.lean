import SystemFOmega.Name
import SystemFOmega.Palette

/-!
# Derivation traces

A trace lists what the checker does, step by step, while it is enabled: what is looked at and
where, with which variables, and what comes out.
-/

namespace SystemFOmega

/-- Something that the checker has done: where, with which types of the values in scope, and with
which result. -/
structure Trace.Step where
  description : String
  loc : Option Location := none
  bindings : List (String × String) := []
  result : Option String := none
deriving DecidableEq

/-- What the checker has done, in this order. Nothing is added unless the trace is enabled. -/
structure Trace where
  enabled : Bool := false
  steps : Array Trace.Step := #[]
deriving DecidableEq

namespace Trace

/-- Adds a step if the trace is enabled. -/
def add (t : Trace) (s : Step) : Trace :=
  if t.enabled then { t with steps := t.steps.push s } else t

/-- The lines of the step with the number `n`. -/
def Step.lines (p : Palette) (n : Nat) (s : Step) : List String :=
  ["\n" ++ p.paint .dim ("Step " ++ toString n ++ ":") ++ " " ++ s.description]
    ++ (match s.loc with
      | none => []
      | some l => ["  " ++ p.paint .dim "at" ++ " " ++ l.display])
    ++ (if s.bindings.isEmpty then []
      else ("  " ++ p.paint .dim "context:") ::
        s.bindings.map fun v => "    " ++ p.paint .varName v.1 ++ " : " ++ p.paint .typeName v.2)
    ++ (match s.result with
      | none | some "" => []
      | some r => ["  " ++ p.paint .dim "result:" ++ " " ++ p.paint .typeName r])

/-- The trace as a text, which is empty if there are no steps. -/
def format (p : Palette) (t : Trace) : String :=
  if t.steps.isEmpty then ""
  else "\n".intercalate (p.paint .bold "\nType Derivation Trace:" ::
    (t.steps.toList.zipIdx 1).flatMap fun s => s.1.lines p s.2)

end Trace

end SystemFOmega
