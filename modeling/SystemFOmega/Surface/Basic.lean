import SystemFOmega.Name

/-!
# The surface language

Kinds, types and expressions as they are written. Types quantify over types of a kind (`∀X: k. t`)
and abstract over them (`λX: k. t`). Expressions bind values, types and kinds to names, and every
expression may know its place in a text. A `Tree` is a phrase of any of the three levels.

* `KindExpr`, `TypeExpr`, `Expr`: the phrases.
* `Tree.Same`: equality of phrases that disregards places.
-/

namespace SystemFOmega

/-- The three levels of the language, each with names of its own. -/
inductive Level where
  | expr | type | kind
deriving DecidableEq

/-- Kinds as they are written. A name stands for a kind that `kind` has defined. -/
inductive KindExpr where
  | star
  | var (x : Ident)
  | arrow (left right : KindExpr)
deriving DecidableEq

/-- Types as they are written. A name is bound by a quantifier or an operator, or `type` has defined
it, and any type may be put beside a kind that it should have. -/
inductive TypeExpr where
  | int
  | var (x : Ident)
  | arrow (left right : TypeExpr)
  | bind (b : Binder) (x : Ident) (k : KindExpr) (body : TypeExpr)
  | app (f a : TypeExpr)
  | kinded (t : TypeExpr) (k : KindExpr)
deriving DecidableEq

/-- Expressions, each with the place where it begins if it comes from a text. The three kinds of
definitions are expressions as well. -/
inductive Expr where
  | lit (n : Int) (loc : Option Location)
  | var (x : Ident) (loc : Option Location)
  | lam (x : Ident) (t : TypeExpr) (body : Expr) (loc : Option Location)
  | app (f a : Expr) (loc : Option Location)
  | tlam (x : Ident) (k : KindExpr) (body : Expr) (loc : Option Location)
  | tapp (f : Expr) (t : TypeExpr) (loc : Option Location)
  | ann (e : Expr) (t : TypeExpr) (loc : Option Location)
  | letIn (x : Ident) (value body : Expr) (loc : Option Location)
  | typeIn (x : Ident) (value : TypeExpr) (body : Expr) (loc : Option Location)
  | kindIn (x : Ident) (value : KindExpr) (body : Expr) (loc : Option Location)
deriving DecidableEq

/-- The place of an expression. -/
def Expr.loc : Expr → Option Location
  | .lit _ l | .var _ l | .lam _ _ _ l | .app _ _ l | .tlam _ _ _ l | .tapp _ _ l | .ann _ _ l
  | .letIn _ _ _ l | .typeIn _ _ _ l | .kindIn _ _ _ l => l

/-- A phrase of any level. -/
inductive Tree where
  | kind (k : KindExpr)
  | type (t : TypeExpr)
  | expr (e : Expr)
deriving DecidableEq

/-! ## Size -/

/-- The number of constructors of a kind. -/
def KindExpr.size : KindExpr → Nat
  | .star | .var _ => 1
  | .arrow k l => k.size + l.size + 1

/-- The number of constructors of a type, the kinds in it among them. -/
def TypeExpr.size : TypeExpr → Nat
  | .int | .var _ => 1
  | .arrow s t | .app s t => s.size + t.size + 1
  | .bind _ _ k t => k.size + t.size + 1
  | .kinded t k => t.size + k.size + 1

/-- The number of constructors of an expression, with the types and kinds in it. It bounds how deep
the checker goes. -/
def Expr.size : Expr → Nat
  | .lit _ _ | .var _ _ => 1
  | .lam _ t e _ => t.size + e.size + 1
  | .app f a _ => f.size + a.size + 1
  | .tlam _ k e _ => k.size + e.size + 1
  | .tapp f t _ => f.size + t.size + 1
  | .ann e t _ => e.size + t.size + 1
  | .letIn _ v e _ => v.size + e.size + 1
  | .typeIn _ v e _ => v.size + e.size + 1
  | .kindIn _ v e _ => v.size + e.size + 1

/-! ## Phrases without places -/

/-- A kind without the places of its names. -/
def KindExpr.unlocated : KindExpr → KindExpr
  | .star => .star
  | .var x => .var x.unlocated
  | .arrow k l => .arrow k.unlocated l.unlocated

/-- A type without the places of its names. -/
def TypeExpr.unlocated : TypeExpr → TypeExpr
  | .int => .int
  | .var x => .var x.unlocated
  | .arrow s t => .arrow s.unlocated t.unlocated
  | .bind b x k t => .bind b x.unlocated k.unlocated t.unlocated
  | .app f a => .app f.unlocated a.unlocated
  | .kinded t k => .kinded t.unlocated k.unlocated

/-- An expression without places. Two texts may be compared up to their layout in this way. -/
def Expr.unlocated : Expr → Expr
  | .lit n _ => .lit n none
  | .var x _ => .var x.unlocated none
  | .lam x t e _ => .lam x.unlocated t.unlocated e.unlocated none
  | .app f a _ => .app f.unlocated a.unlocated none
  | .tlam x k e _ => .tlam x.unlocated k.unlocated e.unlocated none
  | .tapp f t _ => .tapp f.unlocated t.unlocated none
  | .ann e t _ => .ann e.unlocated t.unlocated none
  | .letIn x v e _ => .letIn x.unlocated v.unlocated e.unlocated none
  | .typeIn x v e _ => .typeIn x.unlocated v.unlocated e.unlocated none
  | .kindIn x v e _ => .kindIn x.unlocated v.unlocated e.unlocated none

/-- A phrase without places. -/
def Tree.unlocated : Tree → Tree
  | .kind k => .kind k.unlocated
  | .type t => .type t.unlocated
  | .expr e => .expr e.unlocated

/-- Two phrases are the same if they differ at most in places. -/
def Tree.Same (s t : Tree) : Prop := s.unlocated = t.unlocated

instance (s t : Tree) : Decidable (s.Same t) := inferInstanceAs (Decidable (_ = _))

end SystemFOmega
