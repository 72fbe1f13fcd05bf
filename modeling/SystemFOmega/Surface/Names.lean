import SystemFOmega.Surface.Basic

/-!
# Names of a phrase

* `Tree.names`: every name, bound or free, in the order of the text.
* `Tree.free`: the free names at a level.
* `Tree.nextId`: a number above those of all names.
-/

namespace SystemFOmega

/-! ## All names -/

/-- The names in a kind. -/
def KindExpr.names : KindExpr → List Name
  | .star => []
  | .var x => [x.name]
  | .arrow k l => k.names ++ l.names

/-- The names in a type, those of binders and in the kinds of binders among them. -/
def TypeExpr.names : TypeExpr → List Name
  | .int => []
  | .var x => [x.name]
  | .arrow s t | .app s t => s.names ++ t.names
  | .bind _ x k t => x.name :: (k.names ++ t.names)
  | .kinded t k => t.names ++ k.names

/-- The names in an expression, of whatever level. A binder comes before what is in its scope. -/
def Expr.names : Expr → List Name
  | .lit _ _ => []
  | .var x _ => [x.name]
  | .lam x t e _ => x.name :: (t.names ++ e.names)
  | .app f a _ => f.names ++ a.names
  | .tlam x k e _ => x.name :: (k.names ++ e.names)
  | .tapp f t _ => f.names ++ t.names
  | .ann e t _ => e.names ++ t.names
  | .letIn x v e _ => x.name :: (v.names ++ e.names)
  | .typeIn x v e _ => x.name :: (v.names ++ e.names)
  | .kindIn x v e _ => x.name :: (v.names ++ e.names)

/-- The names in a phrase. -/
def Tree.names : Tree → List Name
  | .kind k => k.names
  | .type t => t.names
  | .expr e => e.names

/-- The first number above those of all names, counted from one if there are none. -/
def Tree.nextId (t : Tree) : Int :=
  match t.names.map (·.id) with
  | [] => 1
  | n :: ns => ns.foldl max n + 1

/-! ## Free names -/

/-- The names `xs` at the level `l` that are left outside a binder of `x` at the level `m`. -/
def unbound (l m : Level) (x : Ident) (xs : List Name) : List Name :=
  if l = m then xs.filter (· ≠ x.name) else xs

/-- The names at the level `l` that a kind refers to. Nothing in a kind binds a name. -/
def KindExpr.free : Level → KindExpr → List Name
  | _, .star => []
  | l, .var x => if l = .kind then [x.name] else []
  | l, .arrow j k => j.free l ++ k.free l

/-- The names at the level `l` that a type refers to and does not bind. The kind of a binder is
outside of its scope. -/
def TypeExpr.free : Level → TypeExpr → List Name
  | _, .int => []
  | l, .var x => if l = .type then [x.name] else []
  | l, .arrow s t | l, .app s t => s.free l ++ t.free l
  | l, .bind _ x k t => k.free l ++ unbound l .type x (t.free l)
  | l, .kinded t k => t.free l ++ k.free l

/-- The names at the level `l` that an expression refers to and does not bind. A binder hides names
of its own level only, and the value of a definition is outside of its scope. -/
def Expr.free : Level → Expr → List Name
  | _, .lit _ _ => []
  | l, .var x _ => if l = .expr then [x.name] else []
  | l, .lam x t e _ => t.free l ++ unbound l .expr x (e.free l)
  | l, .app f a _ => f.free l ++ a.free l
  | l, .tlam x k e _ => k.free l ++ unbound l .type x (e.free l)
  | l, .tapp f t _ => f.free l ++ t.free l
  | l, .ann e t _ => e.free l ++ t.free l
  | l, .letIn x v e _ => v.free l ++ unbound l .expr x (e.free l)
  | l, .typeIn x v e _ => v.free l ++ unbound l .type x (e.free l)
  | l, .kindIn x v e _ => v.free l ++ unbound l .kind x (e.free l)

/-- The names at the level `l` that a phrase refers to and does not bind. -/
def Tree.free (l : Level) : Tree → List Name
  | .kind k => k.free l
  | .type t => t.free l
  | .expr e => e.free l

end SystemFOmega
