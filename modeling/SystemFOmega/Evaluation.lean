import SystemFOmega.Fault

/-!
# Evaluating a program text

The work that the command and the interactive checker share: parse a text, check it, reduce it, and
print what is asked for. A job writes to a transcript and keeps the trace of the last check, also
when it meets a fault.

`Checker.Request.typeOf` is how a program is checked from outside. A request may name any strategy,
but the weak ones are refused before the program is looked at. The jobs ask for normal order beside
a weak strategy, so that they are never refused for this.
-/

namespace SystemFOmega

/-! ## Requests to the checker -/

/-- How a program is to be checked. Any strategy may be named. -/
structure Checker.Request where
  strategy : Strategy := .normal
  /-- The fuel of each normalization, if it is bounded. -/
  fuel : Option Int := some 10000
  /-- Whether the first elaboration of a definition is kept for later uses. -/
  cache : Bool := true
  /-- The text of the program and its name, for reports. -/
  source : Option String := none
  file : Option String := none
  /-- The depth to which normalization may nest. -/
  depth : Nat := Ty.maxDepth
deriving DecidableEq

/-- The options that are asked for. A weak strategy has no normal forms of types and is refused. -/
def Checker.Request.options (q : Checker.Request) : Except Refusal Checker.Options := do
  let order ← q.strategy.order
  return { fuel := q.fuel, order, cache := q.cache, source := q.source, file := q.file,
           depth := q.depth }

/-- The normal form of the type of a closed expression, with the trace. The strategy is looked at
before the expression is. -/
def Checker.Request.typeOf (q : Checker.Request) (e : Expr) (trace : Trace := {}) :
    Except Fault Ty × Trace :=
  match q.options with
  | .error r => (.error (.refusal r), trace)
  | .ok o =>
    match e.typeOf o trace with
    | (.ok t, trace) => (.ok t, trace)
    | (.error f, trace) => (.error (.diagnostic (o.diagnose f)), trace)

/-! ## Settings -/

/-- How programs are checked and reduced. -/
structure Settings where
  strategy : Strategy := .normal
  steps : Int := 100
  fuel : Option Int := some 10000
  cache : Bool := true
  verbose : Bool := false
deriving DecidableEq

/-- How a text is to be checked. Types are normalized in normal order beside a weak strategy. -/
def Settings.request (s : Settings) (source file : Option String) : Checker.Request :=
  { strategy := s.strategy.typeOrder.strategy, fuel := s.fuel, cache := s.cache, source, file }

/-- What has been printed, and the trace of the last check. -/
structure Transcript where
  out : String := ""
  trace : Trace := {}
deriving DecidableEq

/-- Adds a text to the output. -/
def Transcript.write (t : Transcript) (text : String) : Transcript :=
  { t with out := t.out ++ text }

/-! ## Jobs -/

/-- Work on a text, which writes to a transcript. -/
abbrev Job := EStateM Fault Transcript

namespace Job

/-- Writes a line. -/
def writeLine (text : String) : Job Unit := modify (·.write (text ++ "\n"))

/-- Forgets the trace. -/
def clearTrace : Job Unit := modify fun t => { t with trace := {} }

/-- Reads the expression that the text `source` holds. -/
def parse (source file : String) : Job Expr :=
  match Expr.parse source (some file) with
  | .ok e => return e
  | .error f => throw f.fault

/-- Finds the type of the expression that `source` holds; a verbose run prints the trace. -/
def check (p : Palette) (s : Settings) (source file : String) (e : Expr) : Job Ty := do
  let (result, trace) := (s.request (some source) (some file)).typeOf e { enabled := s.verbose }
  modify fun t => { t with trace := { trace with enabled := false } }
  match result with
  | .ok t =>
    if s.verbose then writeLine (trace.format p)
    return t
  | .error f => throw f

/-- Renames and reduces an expression; a verbose run prints every step. -/
def reduce (p : Palette) (s : Settings) (e : Expr) : Job Tree :=
  match (e.rename {}).run 1 with
  | .error u _ => throw (.diagnostic u.diagnostic)
  | .ok r c =>
    match (Tree.expr r).reduce s.strategy s.steps c with
    | .error f => throw (.diagnostic f.diagnostic)
    | .ok run => do
      if s.verbose then
        for (step, i) in run.history.zipIdx 1 do
          writeLine ("  " ++ p.paint .dim (toString i ++ ".") ++ " " ++ step.print)
      return run.result

/-- Prints a result with its type. -/
def showResult (p : Palette) (r : Tree) (t : Ty) : Job Unit :=
  writeLine (p.paint .literal r.print ++ " : " ++ p.paint .typeName t.print)

end Job

end SystemFOmega
