import SystemFOmega.Surface.Basic
import SystemFOmega.Table

/-!
# Renaming

Renaming gives every binder of a phrase a number of its own, counted up from a counter, and gives
every reference the number of the innermost binder with its display name at its level. The value of
a `let`, `type` or `kind` is outside the scope of its name. A reference without a binder is
undefined; the counter then keeps the numbers that were given out before.
-/

namespace SystemFOmega

/-- The binders in scope at the three levels, by display name. -/
structure Scope where
  exprs : Table String Name := {}
  types : Table String Name := {}
  kinds : Table String Name := {}
deriving DecidableEq

namespace Scope

/-- The binders in scope at the level `l`. -/
def binders (s : Scope) : Level → Table String Name
  | .expr => s.exprs
  | .type => s.types
  | .kind => s.kinds

/-- Puts `x` into scope, in place of a binder with the same display name. -/
def bind (s : Scope) (l : Level) (x : Name) : Scope :=
  match l with
  | .expr => { s with exprs := s.exprs.insert x.value x }
  | .type => { s with types := s.types.insert x.value x }
  | .kind => { s with kinds := s.kinds.insert x.value x }

end Scope

/-- A reference to a name that nothing binds, with the names that could have been meant. -/
structure Undefined where
  name : String
  loc : Option Location
  available : List String
deriving DecidableEq

/-- Renaming counts binders and may meet an undefined name. -/
abbrev Rename := EStateM Undefined Int

/-- Gives a binder the next number. -/
def Ident.fresh (x : Ident) : Rename Ident := modifyGet fun c => (x.withId c, c + 1)

/-- Finds the binder of a reference. -/
def Ident.resolve (l : Level) (s : Scope) (x : Ident) : Rename Ident :=
  match (s.binders l).get? x.value with
  | some y => return { x with name := y }
  | none => throw ⟨x.value, x.loc, (s.binders l).keys⟩

/-- Kinds bind no names, so that only references are changed. -/
def KindExpr.rename (s : Scope) : KindExpr → Rename KindExpr
  | .star => return .star
  | .var x => return .var (← x.resolve .kind s)
  | .arrow k l => return .arrow (← k.rename s) (← l.rename s)

/-- Every binder takes a number, after those in its kind. References take the numbers of their
binders. -/
def TypeExpr.rename (s : Scope) : TypeExpr → Rename TypeExpr
  | .int => return .int
  | .var x => return .var (← x.resolve .type s)
  | .arrow t u => return .arrow (← t.rename s) (← u.rename s)
  | .bind b x k t => do
    let k ← k.rename s
    let x ← x.fresh
    return .bind b x k (← t.rename (s.bind .type x.name))
  | .app f a => return .app (← f.rename s) (← a.rename s)
  | .kinded t k => return .kinded (← t.rename s) (← k.rename s)

/-- Every binder takes a number, in the order of the text, and after those in the value or in the
type that belongs to it. References take the numbers of their binders. -/
def Expr.rename (s : Scope) : Expr → Rename Expr
  | .lit n l => return .lit n l
  | .var x l => return .var (← x.resolve .expr s) l
  | .lam x t e l => do
    let t ← t.rename s
    let x ← x.fresh
    return .lam x t (← e.rename (s.bind .expr x.name)) l
  | .app f a l => return .app (← f.rename s) (← a.rename s) l
  | .tlam x k e l => do
    let k ← k.rename s
    let x ← x.fresh
    return .tlam x k (← e.rename (s.bind .type x.name)) l
  | .tapp f t l => return .tapp (← f.rename s) (← t.rename s) l
  | .ann e t l => return .ann (← e.rename s) (← t.rename s) l
  | .letIn x v e l => do
    let v ← v.rename s
    let x ← x.fresh
    return .letIn x v (← e.rename (s.bind .expr x.name)) l
  | .typeIn x v e l => do
    let v ← v.rename s
    let x ← x.fresh
    return .typeIn x v (← e.rename (s.bind .type x.name)) l
  | .kindIn x v e l => do
    let v ← v.rename s
    let x ← x.fresh
    return .kindIn x v (← e.rename (s.bind .kind x.name)) l

/-- Renames a phrase. -/
def Tree.rename (s : Scope) : Tree → Rename Tree
  | .kind k => return .kind (← k.rename s)
  | .type t => return .type (← t.rename s)
  | .expr e => return .expr (← e.rename s)

end SystemFOmega
