/-!
# Names, places and binders

A location is a line and a column, both counted from one, in a text that may have a file name.
Locations may be given from outside, so no bound is built in.

A name is a display text with a number that tells binders of one text apart: names that a reader
writes have the number zero, and renaming gives every binder a number of its own. An identifier is
an occurrence of a name in a source text, with its place.

A binder makes a universal type or a type operator of a type. Surface types and core types have the
same two binders.
-/

namespace SystemFOmega

/-! ## Locations -/

/-- A place in a text, which may have a file name. -/
structure Location where
  line : Int
  column : Int
  file : Option String := none
deriving DecidableEq

namespace Location

/-- `line:column`. -/
def position (l : Location) : String := toString l.line ++ ":" ++ toString l.column

/-- `file:line:column`; a file without a name is left out. -/
def display (l : Location) : String :=
  match l.file with
  | none | some "" => l.position
  | some file => file ++ ":" ++ l.position

/-- The text for a location that may be missing. -/
def displayOption : Option Location → String
  | none => "<unknown location>"
  | some l => l.display

end Location

/-! ## Names -/

/-- A display text with a number. -/
structure Name where
  value : String
  id : Int := 0
deriving DecidableEq

/-- `value#id`. -/
def Name.tag (x : Name) : String := x.value ++ "#" ++ toString x.id

/-- An occurrence of a name. -/
structure Ident where
  name : Name
  loc : Option Location := none
deriving DecidableEq

namespace Ident

/-- The display text of an identifier. -/
def value (x : Ident) : String := x.name.value

/-- The identifier with the number `n`, at the same place. -/
def withId (x : Ident) (n : Int) : Ident := { x with name := { x.name with id := n } }

/-- The identifier without its place. -/
def unlocated (x : Ident) : Ident := { x with loc := none }

end Ident

/-- The least number that is at least `c` and above the number of each of `xs`. -/
def Name.above (c : Int) (xs : List Name) : Int := xs.foldl (fun m x => max m (x.id + 1)) c

/-! ## Binders of types -/

/-- What a binder makes of a type: a universal type or a type operator. -/
inductive Binder where
  | all | lam
deriving DecidableEq

/-- The sign that a binder is written with. -/
def Binder.symbol : Binder → String
  | .all => "∀"
  | .lam => "λ"

end SystemFOmega
