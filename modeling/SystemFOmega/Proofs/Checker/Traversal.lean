import SystemFOmega.Proofs.Checker.Callees
import SystemFOmega.Proofs.Checker.Context
import SystemFOmega.Proofs.Surface.Each

/-!
# What all steps of the checker have in common

A property of computations that every single step has and that goes from the parts of a sequence to
the whole (`Check.Stable`) is one of the checker as a whole, whatever it looks at (`Expr.stable`).
A step that fails may name a place and a step that moves goes to one; these are the places of the
program and of the definitions in the context, so the steps only have to have the property for
places that satisfy `N`, if all these do. Types and kinds are elaborated without a move
(`Check.Steady`).
-/

namespace SystemFOmega

open Check

/-- The steps of the checker that do not move have the property `M`, with places that satisfy `N`,
and sequences have it if their parts do. -/
structure Check.Steady (N : Option Location → Prop) (M : {α : Type} → Check α → Prop) : Prop where
  pure {α : Type} (a : α) : M (pure a : Check α)
  bind {α β : Type} {m : Check α} {f : α → Check β} : M m → (∀ a, M (f a)) → M (m >>= f)
  get : M (get : Check Checker.State)
  raise {α : Type} (c : Failure.Cause) {l : Option Location} : l = none ∨ N l →
    M (raise c l : Check α)
  note (step : Unit → Trace.Step) : M (note step)
  normalize (o : Checker.Options) (t : Ty) : M (Check.normalize o t)
  subst (x : Name) (r t : Ty) : M (Check.subst x r t)
  keepKind (o : Checker.Options) (x : Name) (k : Kind) : M (keepKind o x k)
  keepType (o : Checker.Options) (x : Name) (t : Ty) : M (keepType o x t)
  keepExpr (o : Checker.Options) (x : Name) (t : Ty) : M (keepExpr o x t)

/-- All steps of the checker have the property `M`. -/
structure Check.Stable (N : Option Location → Prop) (M : {α : Type} → Check α → Prop) : Prop
    extends Check.Steady N M where
  enter {e : Expr} : N e.loc → M (enter e)

/-- All places in definitions of the context satisfy `N`. -/
structure Context.Each (N : Option Location → Prop) (Γ : Context) : Prop where
  exprs {x : Name} {d : Entry Ty Expr} : Γ.exprs.get? x = some d →
    d.Forall (fun _ => True) fun e => e.Each (N ·.loc) N
  types {x : Name} {d : Entry Kind TypeExpr} : Γ.types.get? x = some d →
    d.Forall (fun _ => True) fun t => t.Each (N ·.loc)
  kinds {x : Name} {k : KindExpr} : Γ.kinds.get? x = some k → k.Each (N ·.loc)

variable {N : Option Location → Prop} {M : {α : Type} → Check α → Prop} {Γ : Context}
  {o : Checker.Options} {n : Nat}

namespace Context.Each

theorem empty : Context.Each N {} :=
  ⟨fun h => (by cases h), fun h => (by cases h), fun h => (by cases h)⟩

variable (h : Γ.Each N) (x : Name)
include h

theorem bindExpr (t : Ty) : (Γ.bindExpr x t).Each N :=
  ⟨Table.forall_insert h.exprs trivial, h.types, h.kinds⟩

theorem defineExpr {e : Expr} (he : e.Each (N ·.loc) N) : (Γ.defineExpr x e).Each N :=
  ⟨Table.forall_insert h.exprs he, h.types, h.kinds⟩

theorem bindType (k : Kind) : (Γ.bindType x k).Each N :=
  ⟨h.exprs, Table.forall_insert h.types trivial, h.kinds⟩

theorem defineType {t : TypeExpr} (ht : t.Each (N ·.loc)) : (Γ.defineType x t).Each N :=
  ⟨h.exprs, Table.forall_insert h.types ht, h.kinds⟩

theorem defineKind {k : KindExpr} (hk : k.Each (N ·.loc)) : (Γ.defineKind x k).Each N :=
  ⟨h.exprs, h.types, Table.forall_insert h.kinds hk⟩

end Context.Each

/-! ## Steps -/

namespace Check.Steady

variable {α β : Type} (hM : Steady N M)
include hM

/-- A look-up fails at the place of the reference. -/
theorem found {table : Table Name α} {x : Ident} {f : α → Check β} (hx : N x.loc)
    (hf : ∀ a, table.get? x.name = some a → M (f a)) :
    M (Check.found (Context.find table x) >>= f) := by
  unfold Context.find
  cases h : table.get? x.name with
  | some a => exact hf a h
  | none => exact hM.raise _ (.inr hx)

theorem agree (r : Except Clash Unit) : M (Check.agree r) := by
  cases r with
  | ok u => exact hM.pure ()
  | error c => exact hM.raise _ (.inl rfl)

theorem ofKind (k : Kind) (t : Ty) : M (Check.ofKind k t) :=
  hM.bind (hM.agree _) fun _ => hM.pure t

theorem agreeAt (same : Checker.Comparison) {e : Expr} (he : N e.loc) (t u : Ty) :
    M (Check.agreeAt same e t u) := by
  unfold Check.agreeAt
  split
  · exact hM.pure ()
  · exact hM.raise _ (.inr he)

end Check.Steady

namespace Check.Stable

variable (hM : Stable N M)
include hM

theorem inferring {e : Expr} {rule : Check Ty} (he : N e.loc) (h : M rule) :
    M (Check.inferring Γ e rule) :=
  hM.bind (hM.enter he) fun _ => hM.bind (hM.note _) fun _ => hM.bind h fun t =>
    hM.bind (hM.note _) fun _ => hM.pure t

theorem checking {e : Expr} {t : Ty} {rule : Ty → Check Unit} (he : N e.loc)
    (h : ∀ t', M (rule t')) : M (Check.checking o Γ e t rule) :=
  hM.bind (hM.enter he) fun _ => hM.bind (hM.normalize o t) fun t' =>
    hM.bind (hM.note _) fun _ => h t'

end Check.Stable

/-! ## Elaboration -/

theorem KindExpr.elaborate_stable (hM : Check.Steady N M) (hΓ : Γ.Each N) {k : KindExpr}
    (hk : k.Each (N ·.loc)) : M (k.elaborate o n Γ) := by
  induction n generalizing k with
  | zero => exact hM.raise _ (.inl rfl)
  | succ n ih =>
    cases k with
    | star => exact hM.pure _
    | arrow j k => exact hM.bind (ih hk.1) fun _ => hM.bind (ih hk.2) fun _ => hM.pure _
    | var x =>
      refine hM.bind hM.get fun s => ?_
      split
      · exact hM.pure _
      · refine hM.found hk fun u hu => hM.bind (ih (hΓ.kinds hu)) fun _ => ?_
        exact hM.bind (hM.keepKind _ _ _) fun _ => hM.pure _

/-- To elaborate a type is a run of steps at places that satisfy `N`. -/
theorem TypeExpr.elaborate_stable (hM : Check.Steady N M) (hΓ : Γ.Each N) {t : TypeExpr}
    (ht : t.Each (N ·.loc)) : M (t.elaborate o n Γ) := by
  induction n generalizing Γ t with
  | zero => exact hM.raise _ (.inl rfl)
  | succ n ih =>
    cases t with
    | int => exact hM.pure _
    | var x =>
      refine hM.found ht fun d hd => ?_
      cases d with
      | bound k => exact hM.pure _
      | defined u =>
        refine hM.bind hM.get fun s => ?_
        split
        · exact hM.pure _
        · refine hM.bind (ih hΓ (hΓ.types hd)) fun _ => ?_
          exact hM.bind (hM.keepType _ _ _) fun _ => hM.pure _
    | arrow s t =>
      exact hM.bind (ih hΓ ht.1) fun _ => hM.bind (hM.ofKind _ _) fun _ =>
        hM.bind (ih hΓ ht.2) fun _ => hM.bind (hM.ofKind _ _) fun _ => hM.pure _
    | bind b x k t =>
      have hkind := KindExpr.elaborate_stable (o := o) (n := n) hM hΓ ht.2.1
      have hbody (k : Kind) := ih (hΓ.bindType x.name k) ht.2.2
      cases b with
      | all =>
        exact hM.bind hkind fun k => hM.bind (hbody k) fun _ => hM.bind (hM.ofKind _ _) fun _ =>
          hM.pure _
      | lam => exact hM.bind hkind fun k => hM.bind (hbody k) fun _ => hM.pure _
    | app f a =>
      refine hM.bind (ih hΓ ht.1) fun f' => ?_
      cases f'.kind with
      | star => exact hM.raise _ (.inl rfl)
      | arrow j k =>
        exact hM.bind (ih hΓ ht.2) fun _ => hM.bind (hM.ofKind _ _) fun _ => hM.pure _
    | kinded t k =>
      exact hM.bind (KindExpr.elaborate_stable hM hΓ ht.2) fun _ =>
        hM.bind (ih hΓ ht.1) fun _ => hM.ofKind _ _

/-! ## Inference and comparison -/

namespace Expr

variable {same : Checker.Comparison}

/-- What a rule enters has no places but those of the expression and its context. -/
theorem Enters.each {Γ' : Context} {e e' : Expr} (h : e.Enters Γ Γ' e') (hΓ : Γ.Each N)
    (he : e.Each (N ·.loc) N) : Γ'.Each N ∧ e'.Each (N ·.loc) N := by
  cases h with
  | ann => exact ⟨hΓ, he.2.1⟩
  | letIn => exact ⟨hΓ.defineExpr _ he.2.2.1, he.2.2.2⟩
  | typeIn => exact ⟨hΓ.defineType _ he.2.2.1, he.2.2.2⟩
  | kindIn => exact ⟨hΓ.defineKind _ he.2.2.1, he.2.2.2⟩
  | lam x u e l t => exact ⟨hΓ.bindExpr _ t, he.2.2.2⟩
  | argument => exact ⟨hΓ, he.2.2⟩
  | tlam x k e l j => exact ⟨hΓ.bindType _ j, he.2.2.2⟩

theorem Applies.each {e f : Expr} (h : e.Applies f) (he : e.Each (N ·.loc) N) :
    f.Each (N ·.loc) N := by
  cases h with
  | app | tapp => exact he.2.1

theorem Writes.each {e : Expr} {u : TypeExpr} (h : e.Writes u) (he : e.Each (N ·.loc) N) :
    u.Each (N ·.loc) := by
  cases h with
  | ann | tapp => exact he.2.2
  | lam => exact he.2.2.1

theorem WritesKind.each {e : Expr} {k : KindExpr} (h : e.WritesKind k) (he : e.Each (N ·.loc) N) :
    k.Each (N ·.loc) := by
  cases h with
  | tlam => exact he.2.2.1

/-- The steps of the rules themselves. -/
theorem Takes.steady {α : Type} {e : Expr} {m : Check α} (h : e.Takes m) (hM : Check.Steady N M)
    (he : N e.loc) : M m := by
  cases h with
  | get => exact hM.get
  | agree j k => exact hM.agree _
  | ofKind k t => exact hM.ofKind k t
  | subst x a t => exact hM.subst x a t
  | raise c => exact hM.raise c (.inr he)

variable (N M same o)

/-- Within the bound `n` for the nesting, inference has the property. -/
def InfersStable (n : Nat) : Prop :=
  ∀ {Γ : Context} {e : Expr}, Γ.Each N → e.Each (N ·.loc) N → M (inferBy same o n Γ e)

/-- Within the bound `n` for the nesting, a comparison has the property. -/
def ChecksStable (n : Nat) : Prop :=
  ∀ {Γ : Context} {e : Expr}, Γ.Each N → e.Each (N ·.loc) N → ∀ t, M (checkBy same o n Γ e t)

variable {N M same o}

/-- The rules call what has the property. -/
theorem stable_related (hM : Check.Stable N M) (infer : InfersStable N M o same n)
    (check : ChecksStable N M o same n) (hΓ : Γ.Each N) {e : Expr} (he : e.Each (N ·.loc) N) :
    Checker.Callees.Related (fun m (_ : Check _) => M m) (fun m _ => M m) (.within same o n)
      (.within same o n) Γ e where
  pure a := hM.pure a
  last h := h
  bind h hf := hM.bind h hf
  map g h := hM.bind h fun _ => hM.pure _
  step h := h.steady hM.toSteady he.loc
  normalize t := hM.normalize o t
  agreeAt t u := hM.agreeAt same he.loc t u
  found hx hf := by
    subst hx
    exact hM.found he.2 hf
  type h := TypeExpr.elaborate_stable hM.toSteady hΓ (h.each he)
  kind h := KindExpr.elaborate_stable hM.toSteady hΓ (h.each he)
  first h := infer hΓ (h.each he)
  value _ hv :=
    hM.bind (infer hΓ (hΓ.exprs hv)) fun _ => hM.bind (hM.keepExpr _ _ _) fun _ => hM.pure _
  infer h := infer (h.each hΓ he).1 (h.each hΓ he).2
  check t h := check (h.each hΓ he).1 (h.each hΓ he).2 t

theorem stable (hM : Check.Stable N M) (n : Nat) :
    InfersStable N M o same n ∧ ChecksStable N M o same n := by
  induction n with
  | zero =>
    constructor
    · intro Γ e _ _
      rw [inferBy]
      exact hM.raise _ (.inl rfl)
    · intro Γ e _ _ t
      rw [checkBy]
      exact hM.raise _ (.inl rfl)
  | succ n ih =>
    constructor
    · intro Γ e hΓ he
      rw [inferBy_succ]
      exact hM.inferring he.loc (stable_related hM ih.1 ih.2 hΓ he).inferRule
    · intro Γ e hΓ he t
      rw [checkBy_succ]
      exact hM.checking he.loc ((stable_related hM ih.1 ih.2 hΓ he).checkRule (ih.1 hΓ he))

/-- A condition that all steps satisfy, and that runs hand on, holds of the whole check. -/
theorem inferNormal_stable (hM : Check.Stable N M) (same : Checker.Comparison)
    (o : Checker.Options) {e : Expr} (he : e.Each (N ·.loc) N) : M (e.inferNormal same o) :=
  hM.bind ((stable hM _).1 .empty he) fun t => hM.normalize o t

end Expr

end SystemFOmega
