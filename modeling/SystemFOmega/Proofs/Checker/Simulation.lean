import SystemFOmega.Proofs.Checker.Callees
import SystemFOmega.Proofs.Checker.Steps
import SystemFOmega.Proofs.Core.Equiv
import SystemFOmega.Proofs.Core.Relabel
import SystemFOmega.Proofs.Surface.Binders

/-!
# Two runs side by side

Two checkers go through two programs of the same form, or one checker goes through a program in two
ways. What they find is related, although it need not be the same: names may have other numbers, or
one run may have in a table what the other has to find again. How it is related depends on what has
been found so far, so it is said in worlds, which follow each other while the runs go on
(`Checker.Simulation`).

A simulation has a law for each step of the rules and for each phrase that they go into
(`Checker.Simulation.Lawful`). The rules are gone through here once, for all simulations: if the
laws hold, both runs find types that are related, or they fail with the same message
(`Checker.Simulation.Lawful.alike`).
-/

namespace SystemFOmega

open Run Check

/-! ## Failures -/

/-- Two failures have the same class and the same message. -/
def Failure.Alike (f f' : Failure) : Prop :=
  f.diagnostic.code = f'.diagnostic.code ∧ f.diagnostic.message = f'.diagnostic.message

namespace Failure.Alike

variable {t t' u u' : Ty}

/-- The place of a failure is not in its message. -/
theorem of_cause {f f' : Failure} (h : f.cause = f'.cause) : f.Alike f' := by
  obtain ⟨c, l⟩ := f
  obtain ⟨c', l'⟩ := f'
  obtain rfl : c = c' := h
  cases c with
  | clash c => cases c <;> exact ⟨rfl, rfl⟩
  | _ => exact ⟨rfl, rfl⟩

theorem locate {f f' : Failure} (h : f.Alike f') (l l' : Option Location) :
    (f.locate l).Alike (f'.locate l') := by
  have hl : (f.locate l).Alike f := .of_cause rfl
  have hl' : (f'.locate l').Alike f' := .of_cause rfl
  exact ⟨hl.1.trans (h.1.trans hl'.1.symm), hl.2.trans (h.2.trans hl'.2.symm)⟩

theorem notArrow (h : t'.print = t.print) (l l' : Option Location) :
    Alike ⟨.notArrow t, l⟩ ⟨.notArrow t', l'⟩ := by
  refine ⟨rfl, ?_⟩
  simp only [diagnostic, h]
  rfl

theorem notForall (h : t'.print = t.print) (l l' : Option Location) :
    Alike ⟨.notForall t, l⟩ ⟨.notForall t', l'⟩ := by
  refine ⟨rfl, ?_⟩
  simp only [diagnostic, h]
  rfl

theorem mismatch (ht : t'.print = t.print) (hu : u'.print = u.print) (c c' : Clash)
    (l l' : Option Location) : Alike ⟨.mismatch u t c, l⟩ ⟨.mismatch u' t' c', l'⟩ := by
  refine ⟨rfl, ?_⟩
  simp only [diagnostic, ht, hu]
  rfl

end Failure.Alike

/-! ## Steps -/

/-- Why the checker fails when normalization does. -/
def Exhausted.cause (fuel : Option Int) : Exhausted → Failure.Cause
  | .fuel => .fuel (fuel.getD 0)
  | .depth => .typeDepth

namespace Check

theorem agree_pairs (j k : Kind) {s s' : Checker.State} :
    Pairs (agree (j.conform k)) s (agree (j.conform k)) s'
      (fun _ s₁ _ s₁' => j = k ∧ s₁ = s ∧ s₁' = s') Failure.Alike := by
  unfold agree
  cases hc : j.conform k with
  | ok => exact .pure ⟨Kind.conform_ok_iff.1 hc, rfl, rfl⟩
  | error c => exact .throw (.of_cause rfl)

theorem normalize_of_ok {o : Checker.Options} {t u : Ty} {s : Checker.State} {n : Normalizer}
    (h : t.normalize o.order o.fuel s.supply o.depth = .ok u n) :
    normalize o t s = .ok u { s with supply := n.supply } := by
  rw [normalize, h]

theorem normalize_of_error {o : Checker.Options} {t : Ty} {s : Checker.State} {n : Normalizer}
    {x : Exhausted} (h : t.normalize o.order o.fuel s.supply o.depth = .error x n) :
    normalize o t s = .error ⟨x.cause o.fuel, none⟩ { s with supply := n.supply } := by
  rw [normalize, h]
  cases x <;> rfl

/-- If two normalizations go side by side, so do the checkers that start them. -/
theorem normalize_pairs {o o' : Checker.Options} {t t' : Ty} {s s' : Checker.State}
    {P : Ty → Normalizer → Ty → Normalizer → Prop} (hfuel : o'.fuel = o.fuel)
    (h : Pairs (t.normalizeFrom o.order o.depth) ⟨o.fuel, s.supply⟩
      (t'.normalizeFrom o'.order o'.depth) ⟨o'.fuel, s'.supply⟩ P Eq) :
    Pairs (normalize o t) s (normalize o' t') s'
      (fun u s₁ u' s₁' => ∃ n n', s₁ = { s with supply := n.supply } ∧
        s₁' = { s' with supply := n'.supply } ∧ P u n u' n') Failure.Alike := by
  cases h with
  | @ok u n u' n' hrun hrun' hP =>
    exact .ok (normalize_of_ok hrun) (normalize_of_ok hrun') ⟨n, n', rfl, rfl, hP⟩
  | error hrun hrun' hx =>
    refine .error (normalize_of_error hrun) (normalize_of_error hrun') (.of_cause ?_)
    rw [hx, hfuel]

end Check

/-! ## Simulations -/

/-- Two expressions are of one form, whatever their parts. -/
inductive Expr.SameForm : Expr → Expr → Prop
  | lit (m m' : Int) (l l' : Option Location) : SameForm (.lit m l) (.lit m' l')
  | var (x x' : Ident) (l l' : Option Location) : SameForm (.var x l) (.var x' l')
  | lam (x x' : Ident) (u u' : TypeExpr) (e e' : Expr) (l l' : Option Location) :
    SameForm (.lam x u e l) (.lam x' u' e' l')
  | app (f f' a a' : Expr) (l l' : Option Location) : SameForm (.app f a l) (.app f' a' l')
  | tlam (x x' : Ident) (k k' : KindExpr) (e e' : Expr) (l l' : Option Location) :
    SameForm (.tlam x k e l) (.tlam x' k' e' l')
  | tapp (f f' : Expr) (u u' : TypeExpr) (l l' : Option Location) :
    SameForm (.tapp f u l) (.tapp f' u' l')
  | ann (e e' : Expr) (u u' : TypeExpr) (l l' : Option Location) :
    SameForm (.ann e u l) (.ann e' u' l')
  | letIn (x x' : Ident) (v v' e e' : Expr) (l l' : Option Location) :
    SameForm (.letIn x v e l) (.letIn x' v' e' l')
  | typeIn (x x' : Ident) (v v' : TypeExpr) (e e' : Expr) (l l' : Option Location) :
    SameForm (.typeIn x v e l) (.typeIn x' v' e' l')
  | kindIn (x x' : Ident) (v v' : KindExpr) (e e' : Expr) (l l' : Option Location) :
    SameForm (.kindIn x v e l) (.kindIn x' v' e' l')

theorem Expr.SameForm.refl (e : Expr) : e.SameForm e := by cases e <;> constructor

theorem Expr.Writes.unique {e : Expr} {u u' : TypeExpr} (h : e.Writes u) (h' : e.Writes u') :
    u' = u := by
  cases h <;> cases h' <;> rfl

namespace Checker

/-- What is done with an expression. -/
inductive Mode where
  | infer
  | check

/-- How two runs of the checker are related. -/
structure Simulation where
  /-- Where the runs are in their programs. -/
  Scope : Type
  left : Scope → Context
  right : Scope → Context
  /-- How what the runs have found so far is related. -/
  World : Type
  /-- The states of the runs. -/
  States : World → State → State → Prop
  /-- The runs are at the scope. -/
  In : Scope → World → Prop
  /-- The runs have gone on from a world to a later one, and are at the same scope again. On the way
  they have come across the definitions of the names. -/
  Ran : Scope → List Name → World → World → Prop
  /-- The types that the runs find. -/
  Types : World → Ty → Ty → Prop
  /-- The types that stand for surface types. -/
  Written : World → Ty → Ty → Prop
  /-- The expressions that the runs look at, each within a bound for the nesting. -/
  At : Mode → Scope → World → Expr → Expr → Nat → Nat → Prop

namespace Simulation

section

variable (D : Simulation)

/-- From states of the world `w` both computations end well, with states of a world and results that
satisfy `P`, or both fail with the same message. -/
def Follows {α : Type} (w : D.World) (m m' : Check α) (P : D.World → α → α → Prop) : Prop :=
  ∀ s s', D.States w s s' → Pairs m s m' s'
    (fun a s₁ a' s₁' => ∃ w₁, D.States w₁ s₁ s₁' ∧ P w₁ a a') Failure.Alike

/-- After runs that have found the types `t` and `t'`. -/
structure Found (c : D.Scope) (xs : List Name) (w w₁ : D.World) (t t' : Ty) : Prop where
  ran : D.Ran c xs w w₁
  types : D.Types w₁ t t'

/-- The contexts `Γ` and `Γ'` are those of a scope inside of `c`, where the runs look at `e` and
`e'`. -/
def Opens (c : D.Scope) (xs : List Name) (w : D.World) (Γ Γ' : Context) (e e' : Expr) (n n' : Nat) :
    Prop :=
  ∃ c₁, D.left c₁ = Γ ∧ D.right c₁ = Γ' ∧ (∀ m, D.At m c₁ w e e' n n') ∧
    ∀ w₁, D.Ran c₁ e.lets w w₁ → D.Ran c xs w w₁

variable (o o' : Options)

/-- Within the bound `n` of the first run, both infer types that are related or fail alike. -/
def Infers (n : Nat) : Prop :=
  ∀ {n' : Nat} {c : D.Scope} {w : D.World} {e e' : Expr}, D.At .infer c w e e' n n' →
    D.Follows w (e.inferBy Ty.conform o n (D.left c)) (e'.inferBy Ty.conform o' n' (D.right c))
      (D.Found c e.lets w)

/-- Within the bound `n` of the first run, both accept expressions for types that are related or
fail alike. -/
def Checks (n : Nat) : Prop :=
  ∀ {n' : Nat} {c : D.Scope} {w : D.World} {e e' : Expr} {t t' : Ty}, D.At .check c w e e' n n' →
    D.Types w t t' →
    D.Follows w (e.checkBy Ty.conform o n (D.left c) t)
      (e'.checkBy Ty.conform o' n' (D.right c) t') (fun w₁ _ _ => D.Ran c e.lets w w₁)

/-- The laws of a simulation. -/
structure Lawful : Prop where
  -- worlds
  refl {c w} : D.In c w → D.Ran c [] w w
  trans {c xs ys zs w w₁ w₂} : D.Ran c xs w w₁ → D.Ran c ys w₁ w₂ → xs ⊆ zs → ys ⊆ zs →
    D.Ran c zs w w₂
  ran_in {c xs w w₁} : D.Ran c xs w w₁ → D.In c w₁
  types_ran {c xs w w₁ t t'} : D.Ran c xs w w₁ → D.Types w t t' → D.Types w₁ t t'
  written_ran {c xs w w₁ t t'} : D.Ran c xs w w₁ → D.Written w t t' → D.Written w₁ t t'
  -- expressions
  at_in {m c w e e' n n'} : D.At m c w e e' n n' → D.In c w
  at_ran {m c w w₁ e e' n n'} : D.At m c w e e' n n' → D.Ran c [] w w₁ → D.At m c w₁ e e' n n'
  form {m c w e e' n n'} : D.At m c w e e' n n' → e.SameForm e'
  /-- Only the first bound is counted down in the proofs; the second one goes along. -/
  zero {m c w e e' n'} : D.At m c w e e' 0 n' → n' = 0
  succ {m c w e e' n n'} : D.At m c w e e' (n + 1) n' → ∃ k, n' = k + 1
  /-- To check an expression, the runs may infer its type. -/
  inferred {c w e e' n n'} : D.At .check c w e e' (n + 1) (n' + 1) → D.At .infer c w e e' n n'
  ann {m c w e e' u u' l l' n n'} : D.At m c w (.ann e u l) (.ann e' u' l') (n + 1) (n' + 1) →
    D.At .check c w e e' n n'
  /-- The function or the type operator of an application is looked at first. -/
  first {m c w e e' f f' n n'} : D.At m c w e e' (n + 1) (n' + 1) → e.Applies f → e'.Applies f' →
    D.At .infer c w f f' n n'
  argument {m c w w₁ f f' a a' l l' n n'} :
    D.At m c w (.app f a l) (.app f' a' l') (n + 1) (n' + 1) → D.Ran c f.lets w w₁ →
    D.At .check c w₁ a a' n n'
  letIn {m c w v v' e e' l l' n n'} {x x' : Ident} :
    D.At m c w (.letIn x v e l) (.letIn x' v' e' l') (n + 1) (n' + 1) →
    D.Opens c (Expr.letIn x v e l).lets w ((D.left c).defineExpr x.name v)
      ((D.right c).defineExpr x'.name v') e e' n n'
  typeIn {m c w v v' e e' l l' n n'} {x x' : Ident} :
    D.At m c w (.typeIn x v e l) (.typeIn x' v' e' l') (n + 1) (n' + 1) →
    D.Opens c e.lets w ((D.left c).defineType x.name v) ((D.right c).defineType x'.name v')
      e e' n n'
  kindIn {m c w v v' e e' l l' n n'} {x x' : Ident} :
    D.At m c w (.kindIn x v e l) (.kindIn x' v' e' l') (n + 1) (n' + 1) →
    D.Opens c e.lets w ((D.left c).defineKind x.name v) ((D.right c).defineKind x'.name v')
      e e' n n'
  lam {m c w u u' e e' l l' n n' t t'} {x x' : Ident} :
    D.At m c w (.lam x u e l) (.lam x' u' e' l') (n + 1) (n' + 1) → D.Types w t t' →
    D.Opens c e.lets w ((D.left c).bindExpr x.name t) ((D.right c).bindExpr x'.name t') e e' n n'
  -- types
  /-- Types that are related differ in names only, and are printed alike. -/
  relabeled {w t t'} : D.Types w t t' →
    ∃ f : Name → Name, (∀ x, (f x).value = x.value) ∧ t' = t.mapNames f
  conform_iff {w t t' u u'} : D.Types w t t' → D.Types w u u' →
    (t'.conform u' = .ok () ↔ t.conform u = .ok ())
  written {c w t t'} : D.In c w → D.Written w t t' → D.Types w t t'
  int {c w} : D.In c w → D.Written w (.int .star) (.int .star)
  /-- The names that abstractions bind stand for each other. -/
  bound {m c w w₁ k k' e e' l l' n n'} {x x' : Ident} (j : Kind) :
    D.At m c w (.tlam x k e l) (.tlam x' k' e' l') n n' → D.In c w₁ →
    D.Written w₁ (.var x.name j) (.var x'.name j)
  arrow {c w t t' u u'} : D.In c w → D.Written w t t' → D.Types w u u' →
    D.Types w (.arrow t u .star) (.arrow t' u' .star)
  arrow_inv {w t t' u u' k k'} : D.Types w (.arrow t u k) (.arrow t' u' k') →
    D.Types w t t' ∧ D.Types w u u'
  all {c w x x' j t t'} : D.In c w → D.Written w (.var x j) (.var x' j) → D.Types w t t' →
    D.Types w (.bind .all x j t .star) (.bind .all x' j t' .star)
  -- steps
  enter {c w} (e e' : Expr) : D.In c w →
    D.Follows w (Check.enter e) (Check.enter e') (fun w₁ _ _ => D.Ran c [] w w₁)
  note {c w} (step step' : Unit → Trace.Step) : D.In c w →
    D.Follows w (Check.note step) (Check.note step') (fun w₁ _ _ => D.Ran c [] w w₁)
  normalize {c w t t'} : D.In c w → D.Types w t t' →
    D.Follows w (Check.normalize o t) (Check.normalize o' t') (D.Found c [] w)
  subst {c w b x x' k k' t t' j j' a a'} : D.In c w →
    D.Types w (.bind b x k t j) (.bind b x' k' t' j') → D.Written w a a' →
    D.Follows w (Check.subst x a t) (Check.subst x' a' t') (D.Found c [] w)
  type {m c w w₁ e e' u u' n n'} (k : Kind) : D.At m c w e e' (n + 1) (n' + 1) → e.Writes u →
    e'.Writes u' → D.In c w₁ →
    D.Follows w₁ (u.elaborate o n (D.left c) >>= ofKind k)
      (u'.elaborate o' n' (D.right c) >>= ofKind k)
      (fun w₂ t t' => D.Ran c [] w₁ w₂ ∧ D.Written w₂ t t')
  /-- The kind of a bound name is the same in both runs, which go into its scope at once or after
  steps that come across no definition. -/
  kind {m c w k k' e e' l l' n n'} {x x' : Ident} :
    D.At m c w (.tlam x k e l) (.tlam x' k' e' l') (n + 1) (n' + 1) →
    D.Follows w (k.elaborate o n (D.left c)) (k'.elaborate o' n' (D.right c))
      (fun w₁ j j' => D.Ran c [] w w₁ ∧ j' = j ∧ ∀ w₂, D.Ran c [] w₁ w₂ →
        D.Opens c e.lets w₂ ((D.left c).bindType x.name j) ((D.right c).bindType x'.name j)
          e e' n n')
  /-- A name is left to the simulation, as the runs may find its type in different ways. -/
  var {c w l l' n n'} {x x' : Ident} : D.Infers o o' n →
    D.At .infer c w (.var x l) (.var x' l') (n + 1) (n' + 1) →
    D.Follows w ((Expr.var x l).inferRule (.within Ty.conform o n) (D.left c))
      ((Expr.var x' l').inferRule (.within Ty.conform o' n') (D.right c)) (D.Found c [] w)

end

/-! ## Sequences -/

namespace Follows

variable {D : Simulation} {α β : Type} {w : D.World} {m m' : Check α} {f f' : α → Check β}
  {P Q : D.World → α → α → Prop} {R : D.World → β → β → Prop}

theorem pure {a a' : α} (h : P w a a') : D.Follows w (Pure.pure a) (Pure.pure a') P :=
  fun _ _ hs => .pure ⟨w, hs, h⟩

theorem throw {f f' : Failure} (h : f.Alike f') :
    D.Follows w (MonadExcept.throw f) (MonadExcept.throw f') P := fun _ _ _ => .throw h

/-- Two runs go on side by side from the world that they have reached. -/
theorem bind (h : D.Follows w m m' P)
    (hf : ∀ w₁ a a', P w₁ a a' → D.Follows w₁ (f a) (f' a') R) :
    D.Follows w (m >>= f) (m' >>= f') R := by
  intro s s' hs
  refine (h s s' hs).bind fun a s₁ a' s₁' h₁ => ?_
  obtain ⟨w₁, hs₁, ha⟩ := h₁
  exact hf w₁ a a' ha s₁ s₁' hs₁

theorem mono (h : D.Follows w m m' P) (hP : ∀ w₁ a a', P w₁ a a' → Q w₁ a a') :
    D.Follows w m m' Q := by
  intro s s' hs
  refine (h s s' hs).mono (fun a s₁ a' s₁' h₁ => ?_) fun _ _ hf => hf
  obtain ⟨w₁, hs₁, ha⟩ := h₁
  exact ⟨w₁, hs₁, hP w₁ a a' ha⟩

/-- Kinds are the same in both runs, so that they agree with a third one in both or in none. -/
theorem agree (j k : Kind) :
    D.Follows w (Check.agree (j.conform k)) (Check.agree (j.conform k))
      (fun w₁ _ _ => w₁ = w ∧ j = k) := by
  intro s s' hs
  refine (Check.agree_pairs j k).mono (fun _ s₁ _ s₁' h => ?_) fun _ _ h => h
  obtain ⟨hk, rfl, rfl⟩ := h
  exact ⟨w, hs, rfl, hk⟩

end Follows

/-! ## The rules -/

section

variable {D : Simulation} {o o' : Options} {c : D.Scope} {w : D.World} {n n' : Nat} {e e' : Expr}
  {t t' : Ty} {Γ Γ' : Context} {xs : List Name}

theorem Infers.within (infer : D.Infers o o' n) (hopen : D.Opens c xs w Γ Γ' e e' n n') :
    D.Follows w (e.inferBy Ty.conform o n Γ) (e'.inferBy Ty.conform o' n' Γ')
      (D.Found c xs w) := by
  obtain ⟨c₁, rfl, rfl, hat, hleave⟩ := hopen
  exact (infer (hat .infer)).mono fun w₁ _ _ h₁ => ⟨hleave w₁ h₁.ran, h₁.types⟩

theorem Checks.within (check : D.Checks o o' n) (hopen : D.Opens c xs w Γ Γ' e e' n n')
    (ht : D.Types w t t') :
    D.Follows w (e.checkBy Ty.conform o n Γ t) (e'.checkBy Ty.conform o' n' Γ' t')
      (fun w₁ _ _ => D.Ran c xs w w₁) := by
  obtain ⟨c₁, rfl, rfl, hat, hleave⟩ := hopen
  exact (check (hat .check) ht).mono fun w₁ _ _ h₁ => hleave w₁ h₁

end

namespace Lawful

variable {D : Simulation} {o o' : Options} (h : D.Lawful o o') {c : D.Scope} {w w₁ w₂ : D.World}
  {n n' : Nat} {e e' : Expr} {t t' u u' : Ty} {xs : List Name} {m : Mode}
include h

/-- Runs that end with a step that comes across no definition. -/
theorem ran_step (hw : D.Ran c xs w w₁) (hw₁ : D.Ran c [] w₁ w₂) : D.Ran c xs w w₂ :=
  h.trans hw hw₁ (List.Subset.refl xs) (List.nil_subset xs)

/-- Runs that begin with a step that comes across no definition. -/
theorem step_ran (hw : D.Ran c [] w w₁) (hw₁ : D.Ran c xs w₁ w₂) : D.Ran c xs w w₂ :=
  h.trans hw hw₁ (List.nil_subset xs) (List.Subset.refl xs)

theorem print_eq (ht : D.Types w t t') : t'.print = t.print := by
  obtain ⟨f, hf, rfl⟩ := h.relabeled ht
  exact Ty.print_mapNames hf t

/-- Types that correspond are compared with the same outcome. -/
theorem agreeAt (ht : D.Types w t t') (hu : D.Types w u u') :
    D.Follows w (agreeAt Ty.conform e t u) (agreeAt Ty.conform e' t' u')
      (fun w₁ _ _ => w₁ = w) := by
  have hiff := h.conform_iff ht hu
  unfold Check.agreeAt
  cases hc : t.conform u with
  | ok =>
    rw [hiff.2 hc]
    exact .pure rfl
  | error c =>
    cases hc' : t'.conform u' with
    | ok => cases hc.symm.trans (hiff.1 hc')
    | error c' => exact .throw (.mismatch (h.print_eq ht) (h.print_eq hu) c c' e.loc e'.loc)

/-- A surface type of the kind `k` is elaborated, and both runs go on with the core types. -/
theorem type_then {α : Type} {u u' : TypeExpr} {f f' : Ty → Check α}
    {R : D.World → α → α → Prop} (k : Kind) (hat : D.At m c w e e' (n + 1) (n' + 1))
    (hu : e.Writes u) (hu' : e'.Writes u') (hin : D.In c w₁)
    (hf : ∀ w₂ t t', D.Ran c [] w₁ w₂ → D.Written w₂ t t' → D.Follows w₂ (f t) (f' t') R) :
    D.Follows w₁ (do f (← ofKind k (← u.elaborate o n (D.left c))))
      (do f' (← ofKind k (← u'.elaborate o' n' (D.right c)))) R := by
  simp only [← bind_assoc]
  exact .bind (h.type k hat hu hu' hin) fun w₂ t t' ht => hf w₂ t t' ht.1 ht.2

/-- Both runs infer a type and go on with its normal form. -/
theorem infer_then {α : Type} {f f' : Ty → Check α} {R : D.World → α → α → Prop}
    (infer : D.Infers o o' n) (hat : D.At .infer c w e e' n n')
    (hf : ∀ w₁ t t', D.Ran c e.lets w w₁ → D.Types w₁ t t' → D.Follows w₁ (f t) (f' t') R) :
    D.Follows w (do f (← Check.normalize o (← e.inferBy Ty.conform o n (D.left c))))
      (do f' (← Check.normalize o' (← e'.inferBy Ty.conform o' n' (D.right c)))) R := by
  refine .bind (infer hat) fun w₁ t t' h₁ => ?_
  refine .bind (h.normalize (h.ran_in h₁.ran) h₁.types) fun w₂ u u' h₂ => ?_
  exact hf w₂ u u' (h.ran_step h₁.ran h₂.ran) h₂.types

theorem inferring {rule rule' : Check Ty} (hat : D.At .infer c w e e' n n')
    (hrule : ∀ w, D.At .infer c w e e' n n' → D.Follows w rule rule' (D.Found c e.lets w)) :
    D.Follows w (inferring (D.left c) e rule) (inferring (D.right c) e' rule')
      (D.Found c e.lets w) := by
  refine .bind (h.enter e e' (h.at_in hat)) fun w₁ _ _ h₁ => ?_
  refine .bind (h.note _ _ (h.ran_in h₁)) fun w₂ _ _ h₂ => ?_
  have hw₂ := h.step_ran h₁ h₂
  refine .bind (hrule w₂ (h.at_ran hat hw₂)) fun w₃ t t' h₃ => ?_
  refine .bind (h.note _ _ (h.ran_in h₃.ran)) fun w₄ _ _ h₄ => ?_
  exact .pure ⟨h.ran_step (h.step_ran hw₂ h₃.ran) h₄, h.types_ran h₄ h₃.types⟩

theorem checking {rule rule' : Ty → Check Unit} (hat : D.At .check c w e e' n n')
    (ht : D.Types w t t')
    (hrule : ∀ w u u', D.At .check c w e e' n n' → D.Types w u u' →
      D.Follows w (rule u) (rule' u') (fun w₁ _ _ => D.Ran c e.lets w w₁)) :
    D.Follows w (checking o (D.left c) e t rule) (checking o' (D.right c) e' t' rule')
      (fun w₁ _ _ => D.Ran c e.lets w w₁) := by
  refine .bind (h.enter e e' (h.at_in hat)) fun w₁ _ _ h₁ => ?_
  refine .bind (h.normalize (h.ran_in h₁) (h.types_ran h₁ ht)) fun w₂ u u' h₂ => ?_
  refine .bind (h.note _ _ (h.ran_in h₂.ran)) fun w₃ _ _ h₃ => ?_
  have hw₃ := h.step_ran (h.step_ran h₁ h₂.ran) h₃
  exact (hrule w₃ u u' (h.at_ran hat hw₃) (h.types_ran h₃ h₂.types)).mono
    fun w₄ _ _ h₄ => h.step_ran hw₃ h₄

/-- Each rule that infers a type runs side by side with itself, if its callees do. -/
theorem infers_succ (infer : D.Infers o o' n) (check : D.Checks o o' n) :
    D.Infers o o' (n + 1) := by
  intro n' c w e e' hat
  obtain ⟨n', rfl⟩ := h.succ hat
  rw [Expr.inferBy_succ, Expr.inferBy_succ]
  refine h.inferring hat fun w hat => ?_
  have hin := h.at_in hat
  cases h.form hat with
  | lit => exact .pure ⟨h.refl hin, h.written hin (h.int hin)⟩
  | var => exact h.var infer hat
  | ann e e' u u' l l' =>
    refine h.type_then .star hat (.ann e u l) (.ann e' u' l') hin fun w₁ t t' h₁ ht => ?_
    have hty := h.written (h.ran_in h₁) ht
    refine .bind (check (h.ann (h.at_ran hat h₁)) hty) fun w₂ _ _ h₂ => ?_
    exact .pure ⟨h.step_ran h₁ h₂, h.types_ran h₂ hty⟩
  | letIn => exact Infers.within infer (h.letIn hat)
  | typeIn => exact Infers.within infer (h.typeIn hat)
  | kindIn => exact Infers.within infer (h.kindIn hat)
  | lam x x' u u' e e' l l' =>
    refine h.type_then .star hat (.lam x u e l) (.lam x' u' e' l') hin fun w₁ t t' h₁ ht => ?_
    have hopen := h.lam (h.at_ran hat h₁) (h.written (h.ran_in h₁) ht)
    refine .bind (Infers.within infer hopen) fun w₂ u u' h₂ => ?_
    exact .pure ⟨h.step_ran h₁ h₂.ran,
      h.arrow (h.ran_in h₂.ran) (h.written_ran h₂.ran ht) h₂.types⟩
  | app f f' a a' l l' =>
    have hf := h.first hat (.app f a l) (.app f' a' l')
    refine h.infer_then infer hf fun w₁ t t' h₁ ht => ?_
    have hfail := Failure.Alike.notArrow (h.print_eq ht) l l'
    -- the types differ in names only, so that both are arrows or none is
    obtain ⟨g, -, rfl⟩ := h.relabeled ht
    cases t with
    | arrow t u k =>
      obtain ⟨ht, hu⟩ := h.arrow_inv ht
      refine .bind (check (h.argument hat h₁) ht) fun w₂ _ _ h₂ => ?_
      exact .pure ⟨h.trans h₁ h₂ (List.subset_append_left _ _) (List.subset_append_right _ _),
        h.types_ran h₂ hu⟩
    | _ => exact .throw hfail
  | tlam x x' k k' e e' l l' =>
    refine .bind (h.kind hat) fun w₁ j j' h₁ => ?_
    obtain ⟨h₁, rfl, hopen⟩ := h₁
    refine .bind (Infers.within infer (hopen w₁ (h.refl (h.ran_in h₁)))) fun w₂ t t' h₂ => ?_
    have hin₂ := h.ran_in h₂.ran
    exact .pure ⟨h.step_ran h₁ h₂.ran, h.all hin₂ (h.bound _ hat hin₂) h₂.types⟩
  | tapp f f' u u' l l' =>
    have hf := h.first hat (.tapp f u l) (.tapp f' u' l')
    refine h.infer_then infer hf fun w₁ t t' h₁ ht => ?_
    have hfail := Failure.Alike.notForall (h.print_eq ht) l l'
    obtain ⟨g, -, rfl⟩ := h.relabeled ht
    cases t with
    | bind b y yk t k =>
      cases b with
      | lam => exact .throw hfail
      | all =>
        refine h.type_then yk hat (.tapp f u l) (.tapp f' u' l') (h.ran_in h₁)
          fun w₂ a a' h₂ ha => ?_
        refine (h.subst (h.ran_in h₂) (h.types_ran h₂ ht) ha).mono fun w₃ _ _ h₃ => ?_
        exact ⟨h.ran_step (h.ran_step h₁ h₂) h₃.ran, h₃.types⟩
    | _ => exact .throw hfail

/-- Each rule that checks a type runs side by side with itself, if its callees do. -/
theorem checks_succ (infer : D.Infers o o' n) (check : D.Checks o o' n) :
    D.Checks o o' (n + 1) := by
  intro n' c w e e' t t' hat ht
  obtain ⟨n', rfl⟩ := h.succ hat
  rw [Expr.checkBy_succ, Expr.checkBy_succ]
  refine h.checking hat ht fun w v v' hat hv => ?_
  have hin := h.at_in hat
  -- the rule for all expressions and types but two
  have hinfer : D.Follows w
      (do
        let t ← Check.normalize o (← e.inferBy Ty.conform o n (D.left c))
        Check.agreeAt Ty.conform e t v)
      (do
        let t ← Check.normalize o' (← e'.inferBy Ty.conform o' n' (D.right c))
        Check.agreeAt Ty.conform e' t v')
      (fun w₁ _ _ => D.Ran c e.lets w w₁) := by
    refine h.infer_then infer (h.inferred hat) fun w₁ t t' h₁ ht => ?_
    refine (h.agreeAt ht (h.types_ran h₁ hv)).mono fun w₂ _ _ hw => ?_
    exact hw ▸ h₁
  -- both expected types have one form
  obtain ⟨g, -, rfl⟩ := h.relabeled hv
  cases h.form hat with
  | tlam x x' k k' e e' l l' =>
    cases v with
    | bind b y yk v j =>
      cases b with
      | lam => exact hinfer
      | all =>
        refine .bind (h.kind hat) fun w₁ i i' h₁ => ?_
        obtain ⟨h₁, rfl, hopen⟩ := h₁
        refine .bind (.agree i' yk) fun w₂ _ _ h₂ => ?_
        obtain ⟨rfl, rfl⟩ := h₂
        have hin₂ := h.ran_in h₁
        refine .bind (h.subst hin₂ (h.types_ran h₁ hv) (h.bound i' hat hin₂))
          fun w₃ t t' h₃ => ?_
        refine (Checks.within check (hopen w₃ h₃.ran) h₃.types).mono fun w₄ _ _ h₄ => ?_
        exact h.step_ran (h.ran_step h₁ h₃.ran) h₄
    | _ => exact hinfer
  | lam x x' u u' e e' l l' =>
    cases v with
    | arrow v w' k =>
      obtain ⟨hv, hw⟩ := h.arrow_inv hv
      refine h.type_then .star hat (.lam x u e l) (.lam x' u' e' l') hin fun w₁ t t' h₁ ht => ?_
      have hin₁ := h.ran_in h₁
      refine .bind (h.normalize hin₁ (h.written hin₁ ht)) fun w₂ t t' h₂ => ?_
      have hw₂ := h.ran_step h₁ h₂.ran
      refine .bind (h.agreeAt h₂.types (h.types_ran hw₂ hv)) fun w₃ _ _ h₃ => ?_
      subst h₃
      have hopen := h.lam (h.at_ran hat hw₂) (h.types_ran hw₂ hv)
      exact (Checks.within check hopen (h.types_ran hw₂ hw)).mono
        fun w₄ _ _ h₄ => h.step_ran hw₂ h₄
    | _ => exact hinfer
  | _ => exact hinfer

/-- Both runs go through the rules in the same way. -/
theorem alike (n : Nat) : D.Infers o o' n ∧ D.Checks o o' n := by
  induction n with
  | zero =>
    constructor
    · intro n' c w e e' hat
      obtain rfl := h.zero hat
      exact .throw (.of_cause rfl)
    · intro n' c w e e' t t' hat _
      obtain rfl := h.zero hat
      exact .throw (.of_cause rfl)
  | succ n ih => exact ⟨h.infers_succ ih.1 ih.2, h.checks_succ ih.1 ih.2⟩

/-- Normal forms of the types that both runs infer. -/
theorem inferNormal (hat : D.At .infer c w e e' n n') :
    D.Follows w (do Check.normalize o (← e.inferBy Ty.conform o n (D.left c)))
      (do Check.normalize o' (← e'.inferBy Ty.conform o' n' (D.right c)))
      (D.Found c e.lets w) := by
  refine .bind ((h.alike n).1 hat) fun w₁ t t' h₁ => ?_
  exact (h.normalize (h.ran_in h₁.ran) h₁.types).mono
    fun w₂ _ _ h₂ => ⟨h.ran_step h₁.ran h₂.ran, h₂.types⟩

end Lawful

end Simulation

/-! ## Whole programs -/

/-- Two outcomes that a user cannot tell apart: types that are alpha-equivalent and print alike, or
failures of one class with one message. -/
def SameOutcome : Except Failure Ty → Except Failure Ty → Prop
  | .ok t, .ok t' => t.AlphaEq t' ∧ t.print = t'.print
  | .error f, .error f' => f.Alike f'
  | _, _ => False

/-- Programs have the same outcome if their renamed forms do, side by side. -/
theorem SameOutcome.of_pairs {e e' r r' : Expr} {c c' : Int} {o o' : Options} {tr tr' : Trace}
    (hr : e.rename {} 1 = .ok r c) (hr' : e'.rename {} 1 = .ok r' c')
    (h : Pairs (r.inferNormal Ty.conform o) { supply := c, trace := tr }
      (r'.inferNormal Ty.conform o') { supply := c', trace := tr' }
      (fun t _ t' _ => t.AlphaEq t' ∧ t.print = t'.print) Failure.Alike) :
    SameOutcome (e.typeOf o tr).1 (e'.typeOf o' tr').1 := by
  rw [Expr.typeOf, Expr.typeOf, Expr.typeOfBy_of_rename hr, Expr.typeOfBy_of_rename hr']
  cases h with
  | ok hrun hrun' halike =>
    rw [hrun, hrun']
    exact halike
  | error hrun hrun' halike =>
    rw [hrun, hrun']
    exact halike.locate _ _

end Checker

end SystemFOmega
