import SystemFOmega.Surface.Basic
import SystemFOmega.Text.Quoted

/-!
# Displaying syntax trees

A phrase written out as a tree: every node by the name of its form with its fields, names with
their numbers, and expressions with their places.
-/

namespace SystemFOmega

/-- A place, with its fields. -/
def Location.displayNode (l : Location) : String :=
  "SourceLocation(line=" ++ toString l.line ++ ", column=" ++ toString l.column ++ ", filename=" ++
    (match l.file with
      | none => "None"
      | some file => Text.quoted file) ++ ")"

/-- A name, with the number that renaming has given to it. -/
def Ident.displayNode (x : Ident) : String := "Name(" ++ x.name.tag ++ ")"

/-- A node: its form, and its fields with their names. -/
def displayForm (form : String) (fields : List (String × String)) : String :=
  form ++ "(" ++ ", ".intercalate (fields.map fun f => f.1 ++ "=" ++ f.2) ++ ")"

/-- The name of the form of a kind. -/
def KindExpr.form : KindExpr → String
  | .star => "StarKind"
  | .var _ => "KindVar"
  | .arrow _ _ => "ArrowKind"

/-- A kind, constructor by constructor. -/
def KindExpr.display (k : KindExpr) : String :=
  displayForm k.form <|
    match k with
    | .star => []
    | .var x => [("name", x.displayNode)]
    | .arrow k l => [("left", k.display), ("right", l.display)]

/-- The name of the form of a type. The two binders are different forms. -/
def TypeExpr.form : TypeExpr → String
  | .int => "IntType"
  | .var _ => "TypeVar"
  | .arrow _ _ => "FunctionType"
  | .bind .all _ _ _ => "ForallType"
  | .bind .lam _ _ _ => "TypeOperator"
  | .app _ _ => "TypeApp"
  | .kinded _ _ => "KindedType"

/-- A type, constructor by constructor. Types have no places of their own. -/
def TypeExpr.display (t : TypeExpr) : String :=
  displayForm t.form <|
    match t with
    | .int => []
    | .var x => [("name", x.displayNode)]
    | .arrow s t => [("left", s.display), ("right", t.display)]
    | .bind _ x k t => [("param", x.displayNode), ("param_kind", k.display), ("body", t.display)]
    | .app f a => [("function", f.display), ("argument", a.display)]
    | .kinded t k => [("type", t.display), ("kind", k.display)]

/-- The name of an expression's form. -/
def Expr.form : Expr → String
  | .lit _ _ => "Literal"
  | .var _ _ => "Var"
  | .lam _ _ _ _ => "Lambda"
  | .app _ _ _ => "App"
  | .tlam _ _ _ _ => "TypeAbstraction"
  | .tapp _ _ _ => "TypeApplication"
  | .ann _ _ _ => "Annotation"
  | .letIn _ _ _ _ => "Let"
  | .typeIn _ _ _ _ => "TypeAlias"
  | .kindIn _ _ _ _ => "KindAlias"

/-- The place of an expression, as the last field of its node. -/
def displayPlace (l : Option Location) : String × String :=
  ("location", (l.map Location.displayNode).getD "None")

/-- An expression, constructor by constructor, with the place at the end of each. -/
def Expr.display (e : Expr) : String :=
  displayForm e.form <|
    match e with
    | .lit n l => [("value", toString n), displayPlace l]
    | .var x l => [("name", x.displayNode), displayPlace l]
    | .lam x t e l =>
      [("param", x.displayNode), ("param_type", t.display), ("body", e.display), displayPlace l]
    | .app f a l => [("function", f.display), ("argument", a.display), displayPlace l]
    | .tlam x k e l =>
      [("param", x.displayNode), ("param_kind", k.display), ("body", e.display), displayPlace l]
    | .tapp f t l => [("function", f.display), ("type_argument", t.display), displayPlace l]
    | .ann e t l => [("expr", e.display), ("type", t.display), displayPlace l]
    | .letIn x v e l =>
      [("name", x.displayNode), ("value", v.display), ("body", e.display), displayPlace l]
    | .typeIn x v e l =>
      [("name", x.displayNode), ("value", v.display), ("body", e.display), displayPlace l]
    | .kindIn x v e l =>
      [("name", x.displayNode), ("value", v.display), ("body", e.display), displayPlace l]

/-- The name of the form of a phrase. -/
def Tree.form : Tree → String
  | .kind k => k.form
  | .type t => t.form
  | .expr e => e.form

/-- A phrase, constructor by constructor. -/
def Tree.display : Tree → String
  | .kind k => k.display
  | .type t => t.display
  | .expr e => e.display

end SystemFOmega
