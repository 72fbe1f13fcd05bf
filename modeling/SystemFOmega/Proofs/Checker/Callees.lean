import SystemFOmega.Checker.Typing

/-!
# The rules and what they call

Some variants of the checker have its rules, but they call something else: a checker that compares
types in another way, one that is watched, one that keeps a record. The rules are written down here
with what they call as a parameter (`Expr.inferRule`, `Expr.checkRule`); those of the checker are an
instance (`Expr.inferBy_succ`, `Expr.checkBy_succ`).

Two variants are related as a whole if what they call is (`Checker.Callees.Related.inferRule`,
`Checker.Callees.Related.checkRule`). The relation may be one for all parts of a rule but the last
call (`Step`) and a weaker one for what ends with that call (`Last`).
-/

namespace SystemFOmega

open Check

/-! ## Rules -/

/-- What the rules of the checker call, in the monad `K`. -/
structure Checker.Callees (K : Type → Type) where
  /-- A step of the checker itself. -/
  step {α : Type} : Check α → K α
  infer : Context → Expr → K Ty
  check : Context → Expr → Ty → K Unit
  /-- The type of a definition, where its name is used. -/
  value : Context → Name → Expr → K Ty
  type : Context → TypeExpr → K Ty
  kind : Context → KindExpr → K Kind
  normalize : Ty → K Ty
  agreeAt : Expr → Ty → Ty → K Unit

namespace Expr

variable {K : Type → Type} [Monad K]

/-- The rule for the type of an expression. -/
def inferRule (c : Checker.Callees K) (Γ : Context) : Expr → K Ty
  | .lit _ _ => pure (.int .star)
  | .var x _ => do
    match ← c.step (found (Γ.findExpr x)) with
    | .bound t => pure t
    | .defined v =>
      match (← c.step get).exprs.get? x.name with
      | some t => pure t
      | none => c.value Γ x.name v
  | .ann e t _ => do
    let t ← c.step (ofKind .star (← c.type Γ t))
    c.check Γ e t
    pure t
  | .letIn x v e _ => c.infer (Γ.defineExpr x.name v) e
  | .typeIn x v e _ => c.infer (Γ.defineType x.name v) e
  | .kindIn x v e _ => c.infer (Γ.defineKind x.name v) e
  | .lam x t e _ => do
    let t ← c.step (ofKind .star (← c.type Γ t))
    let u ← c.infer (Γ.bindExpr x.name t) e
    pure (.arrow t u .star)
  | .app f a l => do
    match ← c.normalize (← c.infer Γ f) with
    | .arrow t u _ =>
      c.check Γ a t
      pure u
    | t => c.step (raise (.notArrow t) l)
  | .tlam x k e _ => do
    let k ← c.kind Γ k
    let t ← c.infer (Γ.bindType x.name k) e
    pure (.bind .all x.name k t .star)
  | .tapp f a l => do
    match ← c.normalize (← c.infer Γ f) with
    | .bind .all x k t _ =>
      let a ← c.step (ofKind k (← c.type Γ a))
      c.step (Check.subst x a t)
    | t => c.step (raise (.notForall t) l)

/-- The rule that compares an expression with the normal form of an expected type. -/
def checkRule (c : Checker.Callees K) (Γ : Context) (e : Expr) (expected : Ty) : K Unit :=
  match e, expected with
  | .tlam x k body _, .bind .all y yk t _ => do
    let k ← c.kind Γ k
    c.step (agree (k.conform yk))
    let t ← c.step (Check.subst y (.var x.name yk) t)
    c.check (Γ.bindType x.name yk) body t
  | .lam x t body _, .arrow s u _ => do
    let t ← c.normalize (← c.step (ofKind .star (← c.type Γ t)))
    c.agreeAt e t s
    c.check (Γ.bindExpr x.name s) body u
  | _, expected => do
    let actual ← c.normalize (← c.infer Γ e)
    c.agreeAt e actual expected

end Expr

/-- What the rules of the checker call, within the bound `n` for the nesting. -/
def Checker.Callees.within (same : Checker.Comparison) (o : Checker.Options) (n : Nat) :
    Checker.Callees Check where
  step m := m
  infer Γ e := e.inferBy same o n Γ
  check Γ e t := e.checkBy same o n Γ t
  value Γ x v := do
    let t ← v.inferBy same o n Γ
    keepExpr o x t
    pure t
  type Γ t := t.elaborate o n Γ
  kind Γ k := k.elaborate o n Γ
  normalize t := Check.normalize o t
  agreeAt e t u := Check.agreeAt same e t u

theorem Expr.inferBy_succ (same : Checker.Comparison) (o : Checker.Options) (n : Nat) (Γ : Context)
    (e : Expr) :
    e.inferBy same o (n + 1) Γ = inferring Γ e (e.inferRule (.within same o n) Γ) := by
  cases e <;> rfl

theorem Expr.checkBy_succ (same : Checker.Comparison) (o : Checker.Options) (n : Nat) (Γ : Context)
    (e : Expr) (t : Ty) :
    e.checkBy same o (n + 1) Γ t = checking o Γ e t (e.checkRule (.within same o n) Γ) := rfl

/-! ## What is called for an expression -/

namespace Expr

/-- To look at `e`, the checker elaborates the surface type `u`. -/
inductive Writes : Expr → TypeExpr → Prop
  | ann (e : Expr) (u : TypeExpr) (l : Option Location) : Writes (.ann e u l) u
  | lam (x : Ident) (u : TypeExpr) (e : Expr) (l : Option Location) : Writes (.lam x u e l) u
  | tapp (f : Expr) (u : TypeExpr) (l : Option Location) : Writes (.tapp f u l) u

/-- To look at `e`, the checker elaborates the surface kind `k`. -/
inductive WritesKind : Expr → KindExpr → Prop
  | tlam (x : Ident) (k : KindExpr) (e : Expr) (l : Option Location) : WritesKind (.tlam x k e l) k

/-- The expression `e` applies `f`, which is looked at before anything else. -/
inductive Applies : Expr → Expr → Prop
  | app (f a : Expr) (l : Option Location) : Applies (.app f a l) f
  | tapp (f : Expr) (u : TypeExpr) (l : Option Location) : Applies (.tapp f u l) f

/-- To look at `e` in the context `Γ`, the checker looks at `e'` in the context `Γ'`, and then at
nothing else. -/
inductive Enters (Γ : Context) : Expr → Context → Expr → Prop
  | ann (e : Expr) (u : TypeExpr) (l : Option Location) : Enters Γ (.ann e u l) Γ e
  | letIn (x : Ident) (v e : Expr) (l : Option Location) :
    Enters Γ (.letIn x v e l) (Γ.defineExpr x.name v) e
  | typeIn (x : Ident) (v : TypeExpr) (e : Expr) (l : Option Location) :
    Enters Γ (.typeIn x v e l) (Γ.defineType x.name v) e
  | kindIn (x : Ident) (v : KindExpr) (e : Expr) (l : Option Location) :
    Enters Γ (.kindIn x v e l) (Γ.defineKind x.name v) e
  | lam (x : Ident) (u : TypeExpr) (e : Expr) (l : Option Location) (t : Ty) :
    Enters Γ (.lam x u e l) (Γ.bindExpr x.name t) e
  | argument (f a : Expr) (l : Option Location) : Enters Γ (.app f a l) Γ a
  | tlam (x : Ident) (k : KindExpr) (e : Expr) (l : Option Location) (j : Kind) :
    Enters Γ (.tlam x k e l) (Γ.bindType x.name j) e

/-- The steps that the rules for `e` take themselves. They fail at the place of `e`. -/
inductive Takes (e : Expr) : {α : Type} → Check α → Prop
  | get : Takes e get
  | agree (j k : Kind) : Takes e (agree (j.conform k))
  | ofKind (k : Kind) (t : Ty) : Takes e (ofKind k t)
  | subst (x : Name) (a t : Ty) : Takes e (Check.subst x a t)
  | raise (c : Failure.Cause) : Takes e (raise c e.loc : Check Ty)

end Expr

/-! ## Two variants -/

namespace Checker.Callees

variable {K K' : Type → Type} [Monad K] [Monad K']

/-- What two variants of the rules call for `e` in the context `Γ` is related. -/
structure Related (Step Last : {α : Type} → K α → K' α → Prop) (c : Callees K) (c' : Callees K')
    (Γ : Context) (e : Expr) : Prop where
  -- sequences
  pure {α : Type} (a : α) : Step (pure a) (pure a)
  last {α : Type} {m : K α} {m' : K' α} : Step m m' → Last m m'
  bind {α β : Type} {m : K α} {m' : K' α} {f : α → K β} {f' : α → K' β} :
    Step m m' → (∀ a, Last (f a) (f' a)) → Last (m >>= f) (m' >>= f')
  map {α β : Type} {m : K α} {m' : K' α} (g : α → β) :
    Last m m' → Last (m >>= fun a => Pure.pure (g a)) (m' >>= fun a => Pure.pure (g a))
  -- steps
  step {α : Type} {m : Check α} : e.Takes m → Step (c.step m) (c'.step m)
  normalize (t : Ty) : Step (c.normalize t) (c'.normalize t)
  agreeAt (t u : Ty) : Step (c.agreeAt e t u) (c'.agreeAt e t u)
  found {α : Type} {x : Ident} {l : Option Location} {f : Entry Ty Expr → K α}
    {f' : Entry Ty Expr → K' α} : e = .var x l →
    (∀ d, Γ.exprs.get? x.name = some d → Last (f d) (f' d)) →
    Last (c.step (found (Γ.findExpr x)) >>= f) (c'.step (found (Γ.findExpr x)) >>= f')
  -- calls
  type {u : TypeExpr} : e.Writes u → Step (c.type Γ u) (c'.type Γ u)
  kind {k : KindExpr} : e.WritesKind k → Step (c.kind Γ k) (c'.kind Γ k)
  first {f : Expr} : e.Applies f → Step (c.infer Γ f) (c'.infer Γ f)
  value {x : Ident} {l : Option Location} {v : Expr} : e = .var x l →
    Γ.exprs.get? x.name = some (.defined v) → Last (c.value Γ x.name v) (c'.value Γ x.name v)
  infer {Γ' : Context} {e' : Expr} : e.Enters Γ Γ' e' → Last (c.infer Γ' e') (c'.infer Γ' e')
  check {Γ' : Context} {e' : Expr} (t : Ty) : e.Enters Γ Γ' e' →
    Last (c.check Γ' e' t) (c'.check Γ' e' t)

namespace Related

variable {Step Last : {α : Type} → K α → K' α → Prop} {c : Callees K} {c' : Callees K'}
  {Γ : Context} {e : Expr} (h : Related Step Last c c' Γ e)
include h

theorem inferRule : Last (e.inferRule c Γ) (e.inferRule c' Γ) := by
  cases e with
  | lit m l => exact h.last (h.pure _)
  | var x l =>
    -- the value of a definition is the only expression looked at that is no part of `e`
    refine h.found rfl fun d hd => ?_
    cases d with
    | bound t => exact h.last (h.pure t)
    | defined v =>
      refine h.bind (h.step .get) fun s => ?_
      cases s.exprs.get? x.name with
      | some t => exact h.last (h.pure t)
      | none => exact h.value rfl hd
  | ann e u l =>
    refine h.bind (h.type (.ann e u l)) fun t => h.bind (h.step (.ofKind _ t)) fun t => ?_
    exact h.map (fun _ => t) (h.check t (.ann e u l))
  | letIn x v e l => exact h.infer (.letIn x v e l)
  | typeIn x v e l => exact h.infer (.typeIn x v e l)
  | kindIn x v e l => exact h.infer (.kindIn x v e l)
  | lam x u e l =>
    refine h.bind (h.type (.lam x u e l)) fun t => h.bind (h.step (.ofKind _ t)) fun t => ?_
    exact h.map _ (h.infer (.lam x u e l t))
  | app f a l =>
    refine h.bind (h.first (.app f a l)) fun t => h.bind (h.normalize t) fun t' => ?_
    cases t' with
    | arrow t u k => exact h.map (fun _ => u) (h.check t (.argument f a l))
    | _ => exact h.last (h.step (.raise _))
  | tlam x k e l =>
    refine h.bind (h.kind (.tlam x k e l)) fun j => ?_
    exact h.map _ (h.infer (.tlam x k e l j))
  | tapp f u l =>
    refine h.bind (h.first (.tapp f u l)) fun t => h.bind (h.normalize t) fun t' => ?_
    cases t' with
    | bind b x k t j =>
      cases b with
      | all =>
        refine h.bind (h.type (.tapp f u l)) fun a => h.bind (h.step (.ofKind k a)) fun a => ?_
        exact h.last (h.step (.subst x a t))
      | lam => exact h.last (h.step (.raise _))
    | _ => exact h.last (h.step (.raise _))

/-- An expression that is not an abstraction of the expected form is inferred as well. -/
theorem checkRule (hinfer : Step (c.infer Γ e) (c'.infer Γ e)) (t : Ty) :
    Last (e.checkRule c Γ t) (e.checkRule c' Γ t) := by
  have hcompare : Last (do let u ← c.normalize (← c.infer Γ e); c.agreeAt e u t)
      (do let u ← c'.normalize (← c'.infer Γ e); c'.agreeAt e u t) :=
    h.bind hinfer fun u => h.bind (h.normalize u) fun u => h.last (h.agreeAt u t)
  cases e with
  | tlam x k e l =>
    cases t with
    | bind b y yk t j =>
      cases b with
      | all =>
        refine h.bind (h.kind (.tlam x k e l)) fun j => h.bind (h.step (.agree j yk)) fun _ => ?_
        exact h.bind (h.step (.subst y _ t)) fun t => h.check t (.tlam x k e l yk)
      | lam => exact hcompare
    | _ => exact hcompare
  | lam x u e l =>
    cases t with
    | arrow s t j =>
      refine h.bind (h.type (.lam x u e l)) fun u' => h.bind (h.step (.ofKind _ u')) fun u' => ?_
      refine h.bind (h.normalize u') fun u' => h.bind (h.agreeAt u' s) fun _ => ?_
      exact h.check t (.lam x u e l s)
    | _ => exact hcompare
  | _ => exact hcompare

end Related

end Checker.Callees

end SystemFOmega
