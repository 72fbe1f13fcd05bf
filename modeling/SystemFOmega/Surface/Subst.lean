import SystemFOmega.Surface.Names

/-!
# Substitution in phrases

A replacement puts a phrase for the free occurrences of a name at its level. A binder that is
free in the phrase is renamed first, whether or not the name occurs below it; its new number is the
next one of a counter, which should be above every number in sight. The body of a binder is done
before its kind, type or value.

Renaming a binder is itself a replacement, so substitution recurs on a bound for the nesting of the
phrase; the size of the phrase is one, since renaming keeps it.
-/

namespace SystemFOmega

/-- A name at one of the levels and what is put for it. -/
inductive Replacement where
  | expr (x : Name) (e : Expr)
  | type (x : Name) (t : TypeExpr)
  | kind (x : Name) (k : KindExpr)
deriving DecidableEq

namespace Replacement

/-- The level of the name that is replaced. -/
def level : Replacement → Level
  | .expr _ _ => .expr
  | .type _ _ => .type
  | .kind _ _ => .kind

/-- The name that is replaced. -/
def name : Replacement → Name
  | .expr x _ | .type x _ | .kind x _ => x

/-- The free names of what is put in. -/
def free (l : Level) : Replacement → List Name
  | .expr _ e => e.free l
  | .type _ t => t.free l
  | .kind _ k => k.free l

/-- A reference to `y` for `x`. -/
def reference (l : Level) (x : Name) (y : Ident) : Replacement :=
  match l with
  | .expr => .expr x (.var y y.loc)
  | .type => .type x (.var y)
  | .kind => .kind x (.var y)

/-- What is put for a reference at the level of kinds. -/
def kindFor (σ : Replacement) (x : Ident) : KindExpr :=
  match σ with
  | .kind y k => if x.name = y then k else .var x
  | _ => .var x

/-- What is put for a reference at the level of types. -/
def typeFor (σ : Replacement) (x : Ident) : TypeExpr :=
  match σ with
  | .type y t => if x.name = y then t else .var x
  | _ => .var x

/-- What is put for a reference at the level of expressions. -/
def exprFor (σ : Replacement) (x : Ident) (l : Option Location) : Expr :=
  match σ with
  | .expr y e => if x.name = y then e else .var x l
  | _ => .var x l

/-- Does `σ` under a binder of `x` at the level `l`, where `go` does a replacement in the body. The
result is the binder, which may have been renamed, and its body. -/
def under {β : Type} (σ : Replacement) (l : Level) (x : Ident)
    (go : Replacement → β → StateM Int β) (body : β) : StateM Int (Ident × β) := do
  if l = σ.level ∧ x.name = σ.name then return (x, body)
  else if x.name ∈ σ.free l then
    let y ← modifyGet fun c => (x.withId c, c + 1)
    let body ← go (reference l x.name y) body
    return (y, ← go σ body)
  else return (x, ← go σ body)

end Replacement

/-- A kind binds no names, so that none can be captured. -/
def KindExpr.subst (σ : Replacement) : KindExpr → KindExpr
  | .star => .star
  | .var x => σ.kindFor x
  | .arrow k l => .arrow (k.subst σ) (l.subst σ)

/-- Does `σ` in a type that nests at most `n` deep. -/
def TypeExpr.substWithin : Nat → Replacement → TypeExpr → StateM Int TypeExpr
  | 0, _, t => return t
  | n + 1, σ, t => do
    match t with
    | .int => return .int
    | .var x => return σ.typeFor x
    | .arrow s t => return .arrow (← substWithin n σ s) (← substWithin n σ t)
    | .bind b x k t =>
      let (x, t) ← σ.under .type x (substWithin n) t
      return .bind b x (k.subst σ) t
    | .app f a => return .app (← substWithin n σ f) (← substWithin n σ a)
    | .kinded t k => return .kinded (← substWithin n σ t) (k.subst σ)

/-- Does `σ` in a type. -/
def TypeExpr.subst (σ : Replacement) (t : TypeExpr) : StateM Int TypeExpr :=
  t.substWithin t.size σ

/-- Does `σ` in an expression that nests at most `n` deep. -/
def Expr.substWithin : Nat → Replacement → Expr → StateM Int Expr
  | 0, _, e => return e
  | n + 1, σ, e => do
    match e with
    | .lit m l => return .lit m l
    | .var x l => return σ.exprFor x l
    | .lam x t e l =>
      let (x, e) ← σ.under .expr x (substWithin n) e
      return .lam x (← t.subst σ) e l
    | .app f a l => return .app (← substWithin n σ f) (← substWithin n σ a) l
    | .tlam x k e l =>
      let (x, e) ← σ.under .type x (substWithin n) e
      return .tlam x (k.subst σ) e l
    | .tapp f t l => return .tapp (← substWithin n σ f) (← t.subst σ) l
    | .ann e t l => return .ann (← substWithin n σ e) (← t.subst σ) l
    | .letIn x v e l =>
      let (x, e) ← σ.under .expr x (substWithin n) e
      return .letIn x (← substWithin n σ v) e l
    | .typeIn x v e l =>
      let (x, e) ← σ.under .type x (substWithin n) e
      return .typeIn x (← v.subst σ) e l
    | .kindIn x v e l =>
      let (x, e) ← σ.under .kind x (substWithin n) e
      return .kindIn x (v.subst σ) e l

/-- Does `σ` in an expression. -/
def Expr.subst (σ : Replacement) (e : Expr) : StateM Int Expr := e.substWithin e.size σ

/-- Does `σ` in a phrase. -/
def Tree.subst (σ : Replacement) : Tree → StateM Int Tree
  | .kind k => return .kind (k.subst σ)
  | .type t => return .type (← t.subst σ)
  | .expr e => return .expr (← e.subst σ)

end SystemFOmega
