import SystemFOmega.Checker.Elaborate

/-!
# Types of expressions

`Expr.infer` finds the type of an expression and `Expr.check` compares an expression with an
expected type, which goes into abstractions. Types are brought to normal form before their head is
looked at and before they are compared. A name that a `let` has defined has the type of its
definition, which is inferred where the name is used.

How two types are compared is a parameter of the rules (`Expr.inferBy`, `Expr.checkBy`); the checker
itself compares them by `Ty.conform`.

`Expr.typeOf` renames a closed program and gives the normal form of its type.
-/

namespace SystemFOmega

open Check

/-- How the type of an expression is compared with the expected one. -/
abbrev Checker.Comparison := Ty → Ty → Except Clash Unit

namespace Check

/-- Compares the type of the expression `e` with the expected one. -/
def agreeAt (same : Checker.Comparison) (e : Expr) (actual expected : Ty) : Check Unit :=
  match same actual expected with
  | .ok () => return
  | .error c => raise (.mismatch expected actual c) e.loc

/-- Finds the type of the expression `e` by `rule`, with a note before and after. -/
def inferring (Γ : Context) (e : Expr) (rule : Check Ty) : Check Ty := do
  enter e
  note fun _ =>
    { description := "Inferring type of " ++ e.form ++ ": " ++ e.print
      loc := e.loc
      bindings := Γ.bindings.entries }
  let t ← rule
  note fun _ => { description := "Inferred " ++ e.form, loc := e.loc, result := some t.print }
  return t

/-- Compares the expression `e` with the normal form of the expected type by `rule`, with a note
before. -/
def checking (o : Checker.Options) (Γ : Context) (e : Expr) (expected : Ty)
    (rule : Ty → Check Unit) : Check Unit := do
  enter e
  let expected ← Check.normalize o expected
  note fun _ =>
    { description := "Checking " ++ e.form ++ ": " ++ e.print
      loc := e.loc
      bindings := Γ.bindings.entries
      result := some expected.print }
  rule expected

end Check

mutual

/-- The type of an expression, where types are compared by `same`. -/
def Expr.inferBy (same : Checker.Comparison) (o : Checker.Options) :
    Nat → Context → Expr → Check Ty
  | 0, _, _ => raise .circular
  | n + 1, Γ, e =>
    inferring Γ e <| match e with
    | .lit _ _ => pure (.int .star)
    | .var x _ => do
      match ← found (Γ.findExpr x) with
      | .bound t => pure t
      | .defined v =>
        match (← get).exprs.get? x.name with
        | some t => pure t
        | none =>
          let t ← Expr.inferBy same o n Γ v
          keepExpr o x.name t
          pure t
    | .ann e t _ => do
      let t ← ofKind .star (← t.elaborate o n Γ)
      Expr.checkBy same o n Γ e t
      pure t
    | .letIn x v e _ => Expr.inferBy same o n (Γ.defineExpr x.name v) e
    | .typeIn x v e _ => Expr.inferBy same o n (Γ.defineType x.name v) e
    | .kindIn x v e _ => Expr.inferBy same o n (Γ.defineKind x.name v) e
    | .lam x t e _ => do
      let t ← ofKind .star (← t.elaborate o n Γ)
      let u ← Expr.inferBy same o n (Γ.bindExpr x.name t) e
      pure (.arrow t u .star)
    | .app f a l => do
      match ← Check.normalize o (← Expr.inferBy same o n Γ f) with
      | .arrow t u _ =>
        Expr.checkBy same o n Γ a t
        pure u
      | t => raise (.notArrow t) l
    | .tlam x k e _ => do
      let k ← k.elaborate o n Γ
      let t ← Expr.inferBy same o n (Γ.bindType x.name k) e
      pure (.bind .all x.name k t .star)
    | .tapp f a l => do
      match ← Check.normalize o (← Expr.inferBy same o n Γ f) with
      | .bind .all x k t _ =>
        let a ← ofKind k (← a.elaborate o n Γ)
        Check.subst x a t
      | t => raise (.notForall t) l

/-- Compares an expression with an expected type, where types are compared by `same`. -/
def Expr.checkBy (same : Checker.Comparison) (o : Checker.Options) :
    Nat → Context → Expr → Ty → Check Unit
  | 0, _, _, _ => raise .circular
  | n + 1, Γ, e, expected =>
    checking o Γ e expected fun expected => match e, expected with
    | .tlam x k body _, .bind .all y yk t _ => do
      let k ← k.elaborate o n Γ
      agree (k.conform yk)
      let t ← Check.subst y (.var x.name yk) t
      Expr.checkBy same o n (Γ.bindType x.name yk) body t
    | .lam x t body _, .arrow s u _ => do
      let t ← Check.normalize o (← ofKind .star (← t.elaborate o n Γ))
      agreeAt same e t s
      Expr.checkBy same o n (Γ.bindExpr x.name s) body u
    | _, expected => do
      let actual ← Check.normalize o (← Expr.inferBy same o n Γ e)
      agreeAt same e actual expected

end

/-- The type of an expression. -/
def Expr.infer : Checker.Options → Nat → Context → Expr → Check Ty := Expr.inferBy Ty.conform

/-- Compares an expression with an expected type. -/
def Expr.check : Checker.Options → Nat → Context → Expr → Ty → Check Unit :=
  Expr.checkBy Ty.conform

/-- How deep phrases and definitions may nest in each other, whatever their size. -/
def Checker.maxNesting : Nat := 10000

/-- A bound for the nesting of phrases and definitions when a phrase of size `n` is looked at in
the context `Γ`. If definitions refer to earlier ones only, each of them is entered at most twice.
If they refer to each other in a circle, a binder that hides one of the names may break it, but the
same definition is then entered again under every such binder, so that there is room for that as
well. -/
def Context.reach (Γ : Context) (n : Nat) : Nat := 2 * (Γ.size + n) + 2 + Checker.maxNesting

/-- A failure without a place is put where the checker was. -/
def Failure.locate (f : Failure) (l : Option Location) : Failure := { f with loc := f.loc.or l }

/-- The normal form of the type of a closed expression, where types are compared by `same`. -/
def Expr.inferNormal (same : Checker.Comparison) (o : Checker.Options) (e : Expr) : Check Ty := do
  Check.normalize o (← e.inferBy same o (Context.reach {} e.size) {})

/-- Renames a closed expression and gives the normal form of its type, with the trace, where types
are compared by `same`. -/
def Expr.typeOfBy (same : Checker.Comparison) (o : Checker.Options) (e : Expr)
    (trace : Trace := {}) : Except Failure Ty × Trace :=
  match (e.rename {}).run 1 with
  | .error u _ => (.error u.failure, trace)
  | .ok r c =>
    match (r.inferNormal same o).run { supply := c, trace } with
    | .ok t s => (.ok t, s.trace)
    | .error f s => (.error (f.locate s.loc), s.trace)

/-- Renames a closed expression and gives the normal form of its type, with the trace. -/
def Expr.typeOf (o : Checker.Options) (e : Expr) (trace : Trace := {}) :
    Except Failure Ty × Trace :=
  e.typeOfBy Ty.conform o trace

/-- The diagnostic for a failure in the program that `o` names. -/
def Checker.Options.diagnose (o : Options) (f : Failure) : Diagnostic :=
  f.diagnostic.withSource o.source o.file

end SystemFOmega
