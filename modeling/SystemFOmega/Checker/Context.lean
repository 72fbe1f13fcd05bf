import SystemFOmega.Core.Ty
import SystemFOmega.Surface.Rename

/-!
# Typing contexts

A context says what the names in scope stand for: a value with a type, a type with a kind, or a
phrase that a `let`, `type` or `kind` has defined and that is elaborated where the name is used.
-/

namespace SystemFOmega

/-- A name in a context is bound to what is known of it, or defined by a phrase. -/
inductive Entry (α β : Type) where
  | bound (a : α)
  | defined (b : β)
deriving DecidableEq

/-- The size of the phrase that defines a name, and nothing for a bound one. -/
def Entry.size {α β : Type} (size : β → Nat) : Entry α β → Nat
  | .bound _ => 0
  | .defined b => size b

/-- What the names in scope stand for. Names are looked up at their own level, so that a name may be
bound at several ones. -/
structure Context where
  exprs : Table Name (Entry Ty Expr) := {}
  types : Table Name (Entry Kind TypeExpr) := {}
  kinds : Table Name KindExpr := {}
deriving DecidableEq

namespace Context

/-- Into the scope of a value of the type `t`. -/
def bindExpr (Γ : Context) (x : Name) (t : Ty) : Context :=
  { Γ with exprs := Γ.exprs.insert x (.bound t) }

/-- Into the scope of a definition. The value is looked at where the name is used. -/
def defineExpr (Γ : Context) (x : Name) (e : Expr) : Context :=
  { Γ with exprs := Γ.exprs.insert x (.defined e) }

/-- Into the scope of a type variable of the kind `k`. -/
def bindType (Γ : Context) (x : Name) (k : Kind) : Context :=
  { Γ with types := Γ.types.insert x (.bound k) }

/-- Into the scope of an alias of a type. -/
def defineType (Γ : Context) (x : Name) (t : TypeExpr) : Context :=
  { Γ with types := Γ.types.insert x (.defined t) }

/-- Into the scope of an alias of a kind. -/
def defineKind (Γ : Context) (x : Name) (k : KindExpr) : Context :=
  { Γ with kinds := Γ.kinds.insert x k }

/-- What `x` stands for in `table`. -/
def find {α : Type} (table : Table Name α) (x : Ident) : Except Undefined α :=
  match table.get? x.name with
  | some a => .ok a
  | none => .error ⟨x.value, x.loc, table.keys.map (·.value)⟩

/-- The value or the definition that a name in an expression refers to. -/
def findExpr (Γ : Context) (x : Ident) : Except Undefined (Entry Ty Expr) := find Γ.exprs x

/-- The variable or the alias that a name in a type refers to. -/
def findType (Γ : Context) (x : Ident) : Except Undefined (Entry Kind TypeExpr) := find Γ.types x

/-- The alias that a name in a kind refers to. -/
def findKind (Γ : Context) (x : Ident) : Except Undefined KindExpr := find Γ.kinds x

/-- The bound variables by display name, with their types. Of variables with one display name the
last one is shown, in the place of the first. -/
def bindings (Γ : Context) : Table String String :=
  Γ.exprs.entries.foldl
    (fun shown x =>
      match x.2 with
      | .bound t => shown.insert x.1.value t.print
      | .defined _ => shown)
    {}

/-- The size of all phrases that the context has defined. -/
def size (Γ : Context) : Nat :=
  Γ.exprs.total (Entry.size Expr.size) + Γ.types.total (Entry.size TypeExpr.size) +
    Γ.kinds.total KindExpr.size

end Context

end SystemFOmega
