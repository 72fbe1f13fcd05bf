import SystemFOmega.Diagnostic.Details
import SystemFOmega.Diagnostic.Excerpt
import SystemFOmega.Trace

/-!
# Diagnostics

A diagnostic is a message of a class, with its circumstances. Its report shows the place in the
text, the message, hints, and the derivation trace. There is one maker for each class, from which
all diagnostics of the library come.
-/

namespace SystemFOmega

/-- The class of a diagnostic. A phrase or a type that nests too deep has a class of its own. -/
inductive Diagnostic.Code where
  | general | lexical | grammar | nesting
  | typing | undefinedVariable | mismatch | unexpectedType | notArrow | notForall
  | equivalence | variableClash | typeClash | budget | typeDepth
  | evaluation
deriving DecidableEq

/-- What is reported for a program that is rejected: the class of the mistake, one line about it,
and what else is known of it. A mismatch also tells which clash it comes from. -/
structure Diagnostic where
  code : Diagnostic.Code
  message : String
  details : Details := {}
  cause : Option (Diagnostic.Code × String) := none
deriving DecidableEq

namespace Diagnostic

/-- Adds the text that the diagnostic is about and its name, unless they are known. -/
def withSource (d : Diagnostic) (source file : Option String) : Diagnostic :=
  { d with details :=
      { d.details with
        source := (present? d.details.source).or source
        file := (present? d.details.file).or file } }

/-- The report of a diagnostic, with the trace behind it. -/
def report (p : Palette) (t : Trace) (d : Diagnostic) : String :=
  let heading :=
    match present? d.details.source, d.details.loc with
    | some source, some l => [excerpt p source l d.message]
    | _, some l =>
      [p.paint .error ("Error: " ++ d.message), p.paint .dim "at" ++ " " ++ l.display]
    | _, none => [p.paint .error ("Error: " ++ d.message)]
  let hint := (d.details.hintText? p).elim [] fun h => ["", h]
  let trace := t.format p
  "\n".intercalate (heading ++ hint ++ if trace.isEmpty then [] else [trace])

/-! ## The classes of diagnostics -/

/-- A diagnostic about a place in a text that cannot be read. -/
def reading (c : Code) (heading message : String) (line column : Int) (file : Option String) :
    Diagnostic :=
  { code := c
    message := heading ++ " at " ++ toString line ++ ":" ++ toString column ++ ": " ++ message
    details := { loc := some ⟨line, column, file⟩, mistake := some .wrongSyntax } }

/-- A character that begins no token. -/
def lexical (message : String) (l : Location) : Diagnostic :=
  reading .lexical "Lexical error" message l.line l.column l.file

/-- A token where the grammar has no place for it. -/
def grammar (message : String) (l : Location) : Diagnostic :=
  reading .grammar "Parse error" message l.line l.column l.file

/-- A phrase that is nested deeper than the reader goes. -/
def nesting (l : Location) : Diagnostic :=
  reading .nesting "Parse error" "input is nested too deeply" l.line l.column l.file

/-- A mistake in the types that has no class of its own. -/
def typing (message : String) (l : Option Location) : Diagnostic :=
  { code := .typing, message, details := { loc := l } }

/-- A name that has no binder, with the names that are in scope, if they are known. -/
def undefinedVariable (name : String) (l : Option Location) (available : Option (List String)) :
    Diagnostic :=
  { code := .undefinedVariable
    message := "undefined variable '" ++ name ++ "'"
    details := { loc := l, mistake := some .undefinedVariable, actual := some name, available } }

/-- An expression whose type is not the expected one. -/
def mismatch (expected actual : String) (l : Option Location) : Diagnostic :=
  { code := .mismatch
    message := "expected type " ++ expected ++ " but got " ++ actual
    details :=
      { loc := l, mistake := some .typeMismatch, expected := some expected,
        actual := some actual } }

/-- A type of the wrong form. An empty message counts as none. -/
def unexpectedType (type : String) (l : Option Location) (message : Option String) : Diagnostic :=
  { code := .unexpectedType
    message := (present? message).getD ("unexpected type " ++ type)
    details := { loc := l, actual := some type } }

/-- An expression is applied to another one, but its type is no arrow. -/
def notArrow (type : String) (l : Option Location) : Diagnostic :=
  { code := .notArrow
    message := "expected a function type but got " ++ type
    details := { loc := l, mistake := some .notAFunction, actual := some type } }

/-- An expression is applied to a type, but its type is not universal. -/
def notForall (type : String) (l : Option Location) : Diagnostic :=
  { code := .notForall
    message := "expected a universal type but got " ++ type
    details := { loc := l, mistake := some .notAForall, actual := some type } }

/-- Two types that are not equivalent, with a message from outside. -/
def equivalence (message received expected : String) (l : Option Location) : Diagnostic :=
  { code := .equivalence
    message
    details := { loc := l, expected := some expected, actual := some received } }

/-- Two types that differ in a variable. -/
def variableClash (received expected : String) (l : Option Location) : Diagnostic :=
  { code := .variableClash
    message := "variable clash: " ++ received ++ " is not " ++ expected
    details :=
      { loc := l, mistake := some .variableClash, expected := some expected,
        actual := some received } }

/-- Two types that differ in their form, or two kinds, which bring a message of their own. -/
def typeClash (received expected : String) (l : Option Location) (message : Option String) :
    Diagnostic :=
  { code := .typeClash
    message := (present? message).getD ("type clash: " ++ received ++ " is not " ++ expected)
    details :=
      { loc := l, mistake := some .kindMismatch, expected := some expected,
        actual := some received } }

/-- Normalization has taken more steps than its fuel allows. -/
def budget (fuel : Int) (l : Option Location) : Diagnostic :=
  { code := .budget
    message := "type normalization exceeded its budget of " ++ toString fuel ++ " steps"
    details := { loc := l, mistake := some .normalizationBudget } }

/-- Normalization has gone deeper into a type than it may. -/
def typeDepth (l : Option Location) : Diagnostic :=
  { code := .typeDepth
    message := "type normalization exceeded the interpreter recursion limit"
    details := { loc := l, mistake := some .normalizationBudget } }

/-- A program cannot be evaluated. -/
def evaluation (message : String) : Diagnostic := { code := .evaluation, message }

end Diagnostic

end SystemFOmega
