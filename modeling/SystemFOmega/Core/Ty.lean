import SystemFOmega.Name
import SystemFOmega.Text.Basic

/-!
# Core kinds and types

The kinds of the core language: `*` for types that values can have, and arrows for type operators.

The types that the checker works with. Every node carries a kind, and binders bind names that
renaming has numbered. Nothing here asks that the kinds be right: that is what the elaboration of a
surface type takes care of.

* `Ty.names`: every name of a type, bound or free, in the order of the text.
* `Ty.freeVars`: the free names.
-/

namespace SystemFOmega

/-! ## Kinds -/

/-- The kinds of types. -/
inductive Kind where
  | star
  | arrow (left right : Kind)
deriving DecidableEq

namespace Kind

/-- Whether a kind is one of type operators. -/
def isArrow : Kind → Bool
  | .star => false
  | .arrow _ _ => true

/-- A kind as a text. An arrow goes to the right as far as it can. -/
def print : Kind → String
  | .star => "*"
  | .arrow k l => Text.parensIf k.isArrow k.print ++ " -> " ++ l.print

end Kind

/-! ## Types -/

/-- Core types. Every type carries its kind, so that no context is needed to tell it. -/
inductive Ty where
  | int (k : Kind)
  | var (x : Name) (k : Kind)
  | arrow (left right : Ty) (k : Kind)
  | bind (b : Binder) (x : Name) (xk : Kind) (body : Ty) (k : Kind)
  | app (f a : Ty) (k : Kind)
deriving DecidableEq

namespace Ty

/-- The kind that a type carries. -/
def kind : Ty → Kind
  | .int k | .var _ k | .arrow _ _ k | .bind _ _ _ _ k | .app _ _ k => k

/-- The type with the kind `k` at its root. -/
def withKind (k : Kind) : Ty → Ty
  | .int _ => .int k
  | .var x _ => .var x k
  | .arrow s t _ => .arrow s t k
  | .bind b x xk t _ => .bind b x xk t k
  | .app f a _ => .app f a k

/-- The number of constructors of a type. -/
def size : Ty → Nat
  | .int _ | .var _ _ => 1
  | .arrow s t _ | .app s t _ => s.size + t.size + 1
  | .bind _ _ _ t _ => t.size + 1

/-- Every name of a type. -/
def names : Ty → List Name
  | .int _ => []
  | .var x _ => [x]
  | .arrow s t _ | .app s t _ => s.names ++ t.names
  | .bind _ x _ t _ => x :: t.names

/-- The free names of a type. -/
def freeVars : Ty → List Name
  | .int _ => []
  | .var x _ => [x]
  | .arrow s t _ | .app s t _ => s.freeVars ++ t.freeVars
  | .bind _ x _ t _ => t.freeVars.filter (· ≠ x)

/-! ## Printing -/

/-- A type that is one word. -/
def isWord : Ty → Bool
  | .int _ | .var _ _ => true
  | _ => false

/-- A type that may stand before its argument as it is. -/
def isHead : Ty → Bool
  | .int _ | .var _ _ | .app _ _ _ => true
  | _ => false

/-- A type that extends to the right as far as it can. -/
def isOpen : Ty → Bool
  | .arrow _ _ _ | .bind _ _ _ _ _ => true
  | _ => false

/-- The text of a type, with display names only. -/
def print : Ty → String
  | .int _ => "Int"
  | .var x _ => x.value
  | .arrow s t _ => Text.parensIf s.isOpen s.print ++ " -> " ++ t.print
  | .bind b x k t _ => b.symbol ++ x.value ++ ": " ++ k.print ++ ". " ++ t.print
  | .app f a _ => Text.parensIf (!f.isHead) f.print ++ " " ++ Text.parensIf (!a.isWord) a.print

end Ty

end SystemFOmega
