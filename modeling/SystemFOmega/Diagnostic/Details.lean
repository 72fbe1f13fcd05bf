import SystemFOmega.Diagnostic.Similar
import SystemFOmega.Name
import SystemFOmega.Palette
import SystemFOmega.Text.Upper

/-!
# Circumstances of a diagnostic, and hints

What is known about a mistake: the text it is in and the place, what kind of mistake it is, and the
texts from which a hint can be made. The hints follow from the kind of mistake.
-/

namespace SystemFOmega

/-- The kind of mistake, which decides on hints. -/
inductive Mistake where
  | undefinedVariable | typeMismatch | kindMismatch | notAFunction | notAForall | variableClash
  | normalizationBudget | wrongSyntax
deriving DecidableEq

/-- The circumstances of a diagnostic. -/
structure Details where
  source : Option String := none
  file : Option String := none
  loc : Option Location := none
  mistake : Option Mistake := none
  expected : Option String := none
  actual : Option String := none
  available : Option (List String) := none
  similar : Option (List String) := none
deriving DecidableEq

/-- A text that is there and not empty. -/
def present? : Option String → Option String
  | none | some "" => none
  | some s => some s

namespace Details

/-! ## Hints -/

/-- Whether `->` stands in a text. -/
def hasArrow : List Char → Bool
  | [] => false
  | c :: cs => (c = '-' && cs.head? = some '>') || hasArrow cs

/-- The names to suggest: the given ones, or those that resemble the missing one. -/
def suggestions (d : Details) : List String :=
  match d.similar with
  | some names => names
  | none =>
    match present? d.actual, d.available with
    | some name, some available => similarNames name available
    | _, _ => []

/-- Advice for a mistake. Names that are similar come first, at most three of them. -/
def hints (d : Details) : List String :=
  match d.mistake with
  | some .undefinedVariable =>
    (if d.suggestions.isEmpty then []
      else ["Did you mean: " ++
        ", ".intercalate ((d.suggestions.take 3).map fun x => "'" ++ x ++ "'") ++ "?"])
    ++ (if (d.actual.bind fun s => s.toList.head?).any Text.isUpper then
        ["Note: uppercase names refer to types and kinds, lowercase names to values"]
      else [])
  | some .kindMismatch =>
    if d.expected.any fun s => hasArrow s.toList then
      ["A type operator is expected here; pass something like λA: *. A"]
    else if d.actual.any fun s => hasArrow s.toList then
      ["This type operator is not fully applied"]
    else []
  | some .notAFunction => ["Only expressions of function type can be applied to arguments"]
  | some .notAForall =>
    ["Only polymorphic expressions (of type ∀A: k. T) take [type] arguments"]
  | some .normalizationBudget =>
    ["The type-level program may not terminate; raise the budget with --fuel"]
  | some .typeMismatch | some .variableClash | some .wrongSyntax | none => []

/-- The hints as a text, if there are any. -/
def hintText? (p : Palette) (d : Details) : Option String :=
  if d.hints.isEmpty then none
  else some ("\n".intercalate (d.hints.map fun h => p.paint .hint "Hint:" ++ " " ++ h))

end Details

end SystemFOmega
