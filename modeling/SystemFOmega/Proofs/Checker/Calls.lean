import SystemFOmega.Proofs.Checker.Places
import SystemFOmega.Proofs.Checker.Sound

/-!
# Where failures without a place are put

The tracked checker is the checker with a record of its calls (`Checker.Calls`): which ones are in
progress, which one was started last, and which ones have ended since. Apart from the record it does
what the checker does (`Expr.tracked`).

The checker moves to an expression when a call for it is started, and it does not move back when the
call ends. So a failure without a place is put at the expression whose call was started last
(`Expr.unplaced_at_last_started`). This is the innermost one in progress unless a call has ended in
between, and then that was the call for the function of an application, or for an expression whose
type is compared.
-/

namespace SystemFOmega

open Run Check

variable {α β : Type}

/-! ## Calls -/

/-- The calls of the checker, each given by the expression that it infers or compares. -/
structure Checker.Calls where
  /-- Those in progress, the innermost first. -/
  pending : List Expr := []
  /-- The one that was started last. -/
  last : Option Expr := none
  /-- Those that have ended since then, the last one first. -/
  ended : List Expr := []
deriving DecidableEq

namespace Checker.Calls

/-- A call for `e` begins inside of those in progress. -/
def start (c : Calls) (e : Expr) : Calls := ⟨e :: c.pending, some e, []⟩

/-- The innermost call ends, which was for `e`. -/
def finish (c : Calls) (e : Expr) : Calls := ⟨c.pending.tail, c.last, e :: c.ended⟩

end Checker.Calls

/-- Computations of the checker with a record of the calls. -/
abbrev Tracked := EStateM Failure (Checker.State × Checker.Calls)

namespace Tracked

/-- The end of a run, with a record. -/
def withCalls (c : Checker.Calls) : EStateM.Result Failure Checker.State α →
    EStateM.Result Failure (Checker.State × Checker.Calls) α
  | .ok a s => .ok a (s, c)
  | .error f s => .error f (s, c)

/-- A computation without calls. -/
def lift (m : Check α) : Tracked α := fun p => withCalls p.2 (m p.1)

/-- A call for `e`, which is recorded when it is started and when it ends well. -/
def calling (e : Expr) (m : Tracked α) : Tracked α := do
  modify fun p => (p.1, p.2.start e)
  let a ← m
  modify fun p => (p.1, p.2.finish e)
  return a

/-- The inference of a type, as a call that is on record. -/
def inferring (Γ : Context) (e : Expr) (rule : Tracked Ty) : Tracked Ty :=
  calling e do
    lift (enter e)
    lift (note fun _ =>
      { description := "Inferring type of " ++ e.form ++ ": " ++ e.print
        loc := e.loc
        bindings := Γ.bindings.entries })
    let t ← rule
    lift (note fun _ =>
      { description := "Inferred " ++ e.form, loc := e.loc, result := some t.print })
    return t

/-- The comparison with a type, as a call that is on record. -/
def checking (o : Checker.Options) (Γ : Context) (e : Expr) (expected : Ty)
    (rule : Ty → Tracked Unit) : Tracked Unit :=
  calling e do
    lift (enter e)
    let expected ← lift (Check.normalize o expected)
    lift (note fun _ =>
      { description := "Checking " ++ e.form ++ ": " ++ e.print
        loc := e.loc
        bindings := Γ.bindings.entries
        result := some expected.print })
    rule expected

end Tracked

/-! ## The tracked checker -/

open Tracked (lift) in
/-- What the rules of the tracked checker call, given its two functions. -/
def Checker.Callees.tracked (same : Checker.Comparison) (o : Checker.Options) (n : Nat)
    (infer : Context → Expr → Tracked Ty) (check : Context → Expr → Ty → Tracked Unit) :
    Checker.Callees Tracked where
  step := lift
  infer := infer
  check := check
  value Γ x v := do
    let t ← infer Γ v
    lift (keepExpr o x t)
    pure t
  type Γ t := lift (t.elaborate o n Γ)
  kind Γ k := lift (k.elaborate o n Γ)
  normalize t := lift (Check.normalize o t)
  agreeAt e t u := lift (Check.agreeAt same e t u)

mutual

/-- The type of an expression. -/
def Expr.inferTracked (same : Checker.Comparison) (o : Checker.Options) :
    Nat → Context → Expr → Tracked Ty
  | 0, _, _ => Tracked.lift (raise .circular)
  | n + 1, Γ, e =>
    Tracked.inferring Γ e (e.inferRule (.tracked same o n (Expr.inferTracked same o n)
      (Expr.checkTracked same o n)) Γ)

/-- Compares an expression with an expected type. -/
def Expr.checkTracked (same : Checker.Comparison) (o : Checker.Options) :
    Nat → Context → Expr → Ty → Tracked Unit
  | 0, _, _, _ => Tracked.lift (raise .circular)
  | n + 1, Γ, e, expected =>
    Tracked.checking o Γ e expected (e.checkRule (.tracked same o n (Expr.inferTracked same o n)
      (Expr.checkTracked same o n)) Γ)

end

/-! ## Where the checker stands -/

/-- `y` is inferred before anything else when `e` is looked at: it is the function of the
application `e`, or `e` itself where its type is compared. -/
inductive Expr.InferredFirst : Expr → Expr → Prop
  | app (f a : Expr) (l : Option Location) : InferredFirst f (.app f a l)
  | tapp (f : Expr) (t : TypeExpr) (l : Option Location) : InferredFirst f (.tapp f t l)
  | compared (e : Expr) : InferredFirst e e

namespace Checker.Calls

variable {c : Calls} {s s' : State} {e y : Expr} {outer : List Expr}

/-- The checker stands at the expression whose call was started last. -/
def Stands (c : Calls) (s : State) : Prop :=
  ∃ x l, c.last = some x ∧ x.loc = some l ∧ s.loc = some l

/-- The checker is in the call for `e`, within those for `outer`. -/
structure Back (c : Calls) (s : State) (e : Expr) (outer : List Expr) : Prop where
  pending : c.pending = e :: outer
  stands : c.Stands s

/-- The call for `e` has been started last, or it goes on after what is inferred first. -/
structure Within (c : Calls) (s : State) (e : Expr) (outer : List Expr) : Prop extends
    Back c s e outer where
  fresh : c.ended = [] → c.last = some e
  first {y : Expr} : c.ended.head? = some y → y.InferredFirst e

/-- The call for `e` has ended, within those for `outer`. -/
structure Done (e : Expr) (outer : List Expr) (s : State) (c : Calls) : Prop where
  pending : c.pending = outer
  stands : c.Stands s
  ended : c.ended.head? = some e

/-- The checker has stopped inside of some call. -/
def Stopped (c : Calls) (s : State) : Prop := ∃ e outer, c.Within s e outer

theorem Stands.of_loc (h : c.Stands s) (hs : s'.loc = s.loc) : c.Stands s' := by
  obtain ⟨x, l, hx, hl, hloc⟩ := h
  exact ⟨x, l, hx, hl, hs.trans hloc⟩

theorem Back.of_loc (h : c.Back s e outer) (hs : s'.loc = s.loc) : c.Back s' e outer :=
  ⟨h.pending, h.stands.of_loc hs⟩

theorem Within.of_loc (h : c.Within s e outer) (hs : s'.loc = s.loc) : c.Within s' e outer :=
  ⟨h.toBack.of_loc hs, h.fresh, h.first⟩

theorem Within.stopped (h : c.Within s e outer) : c.Stopped s := ⟨e, outer, h⟩

theorem within_start {l : Location} (he : e.loc = some l) (hs : s.loc = some l) :
    (c.start e).Within s e c.pending :=
  ⟨⟨rfl, e, l, rfl, he, hs⟩, fun _ => rfl, fun h => by cases h⟩

theorem Back.finish (h : c.Back s e outer) : Done e outer s (c.finish e) :=
  ⟨congrArg List.tail h.pending, h.stands, rfl⟩

theorem Done.back (h : Done y (e :: outer) s c) : c.Back s e outer := ⟨h.pending, h.stands⟩

theorem Done.within (h : Done y (e :: outer) s c) (hy : y.InferredFirst e) :
    c.Within s e outer := by
  refine ⟨h.back, fun hnil => ?_, fun {z} hz => ?_⟩
  · have hended := h.ended
    rw [hnil] at hended
    cases hended
  · obtain rfl := Option.some.inj (h.ended.symm.trans hz)
    exact hy

end Checker.Calls

/-! ## The two checkers side by side -/

namespace Check

/-- The computation does not move. -/
def Keeps (m : Check α) : Prop := ∀ s, (endState (m s)).loc = s.loc

theorem keeps_steady (N : Option Location → Prop) : Steady N fun m => Keeps m where
  pure a s := rfl
  bind {α β m f} hm hf s := by
    have hs := hm s
    cases h : m s with
    | ok a s' =>
      rw [h] at hs
      rw [bind_of_ok f h]
      exact (hf a s').trans hs
    | error g s' =>
      rw [h] at hs
      rw [bind_of_error f h]
      exact hs
  get s := rfl
  raise c l _ s := rfl
  note step s := by
    show (if s.trace.enabled then _ else _ : Checker.State).loc = _
    split <;> rfl
  normalize o t s := by
    unfold Check.normalize
    split <;> rfl
  subst x r t s := rfl
  keepKind o x k s := by
    show (if o.cache then _ else _ : Checker.State).loc = _
    split <;> rfl
  keepType o x t s := by
    show (if o.cache then _ else _ : Checker.State).loc = _
    split <;> rfl
  keepExpr o x t s := by
    show (if o.cache then _ else _ : Checker.State).loc = _
    split <;> rfl

theorem keeps_note (step : Unit → Trace.Step) : Keeps (note step) :=
  (keeps_steady fun _ => True).note step

theorem keeps_normalize (o : Checker.Options) (t : Ty) : Keeps (Check.normalize o t) :=
  (keeps_steady fun _ => True).normalize o t

end Check

/-- The tracked computation `m'` does what `m` does. Where they end well, the result, the state and
the record satisfy `P`; where they fail, a call is in progress. -/
inductive Tells (m' : Tracked α) (m : Check α) (s : Checker.State) (c : Checker.Calls)
    (P : α → Checker.State → Checker.Calls → Prop) : Prop
  | ok {a : α} {s₁ : Checker.State} {c₁ : Checker.Calls} : m s = .ok a s₁ →
    m' (s, c) = .ok a (s₁, c₁) → P a s₁ c₁ → Tells m' m s c P
  | error {f : Failure} {s₁ : Checker.State} {c₁ : Checker.Calls} : m s = .error f s₁ →
    m' (s, c) = .error f (s₁, c₁) → c₁.Stopped s₁ → Tells m' m s c P

namespace Tells

open Checker.Calls

variable {m : Check α} {m' : Tracked α} {f : α → Check β} {f' : α → Tracked β} {s : Checker.State}
  {c : Checker.Calls} {P : α → Checker.State → Checker.Calls → Prop}
  {R : β → Checker.State → Checker.Calls → Prop} {e : Expr} {outer : List Expr} {Γ : Context}

theorem pure {a : α} (h : P a s c) : Tells (Pure.pure a) (Pure.pure a) s c P := .ok rfl rfl h

theorem bind (h : Tells m' m s c P)
    (hf : ∀ a s₁ c₁, P a s₁ c₁ → Tells (f' a) (f a) s₁ c₁ R) :
    Tells (m' >>= f') (m >>= f) s c R := by
  cases h with
  | @ok a s₁ c₁ hm hm' hP =>
    have hrun := bind_of_ok f hm
    have hrun' := bind_of_ok f' hm'
    cases hf a s₁ c₁ hP with
    | ok h h' hR => exact .ok (hrun.trans h) (hrun'.trans h') hR
    | error h h' hstop => exact .error (hrun.trans h) (hrun'.trans h') hstop
  | error hm hm' hstop => exact .error (bind_of_error f hm) (bind_of_error f' hm') hstop

theorem mono {P' : α → Checker.State → Checker.Calls → Prop} (h : Tells m' m s c P)
    (hP : ∀ a s₁ c₁, P a s₁ c₁ → P' a s₁ c₁) : Tells m' m s c P' := by
  cases h with
  | ok hm hm' h => exact .ok hm hm' (hP _ _ _ h)
  | error hm hm' h => exact .error hm hm' h

/-- A computation that does not move stays in its call. -/
theorem lift (hm : Keeps m) (h : c.Within s e outer) :
    Tells (Tracked.lift m) m s c fun _ s₁ c₁ => c₁.Within s₁ e outer := by
  have hs := hm s
  have hrun : Tracked.lift m (s, c) = Tracked.withCalls c (m s) := rfl
  cases hend : m s with
  | ok a s₁ =>
    rw [hend] at hs hrun
    exact .ok hend hrun (h.of_loc hs)
  | error g s₁ =>
    rw [hend] at hs hrun
    exact .error hend hrun (h.of_loc hs).stopped

/-- A change of the state that does not move. -/
theorem change {g : Checker.State → Checker.State} (hg : ∀ s, (g s).loc = s.loc)
    (h : c.Back s e outer) :
    Tells (Tracked.lift (modify g)) (modify g) s c fun _ s₁ c₁ => c₁.Back s₁ e outer :=
  .ok rfl rfl (h.of_loc (hg s))

theorem note {step : Unit → Trace.Step} (h : c.Back s e outer) :
    Tells (Tracked.lift (note step)) (note step) s c fun _ s₁ c₁ => c₁.Back s₁ e outer :=
  .change (fun s => by split <;> rfl) h

/-- A name is looked up. -/
theorem found {table : Table Name α} {x : Ident} (h : c.Within s e outer)
    (hf : ∀ a, table.get? x.name = some a → Tells (f' a) (f a) s c R) :
    Tells (Tracked.lift (found (Context.find table x)) >>= f') (found (Context.find table x) >>= f)
      s c R := by
  unfold Context.find
  cases hx : table.get? x.name with
  | none => exact .error rfl rfl h.stopped
  | some a =>
    have hpure : Tells (Tracked.lift (Check.found (.ok a))) (Check.found (.ok a)) s c
      fun b s₁ c₁ => b = a ∧ s₁ = s ∧ c₁ = c := .ok rfl rfl ⟨rfl, rfl, rfl⟩
    refine hpure.bind ?_
    rintro _ _ _ ⟨rfl, rfl, rfl⟩
    exact hf _ hx

/-- A call starts at its expression. -/
theorem calling {l : Location} (he : e.loc = some l)
    (h : ∀ s, (c.start e).Within s e c.pending →
      Tells m' m s (c.start e) fun _ s₁ c₁ => c₁.Back s₁ e c.pending) :
    Tells (Tracked.calling e do Tracked.lift (enter e); m') (do enter e; m) s c
      fun _ => Done e c.pending := by
  have henter : enter e s = .ok () { s with loc := some l } := by
    show EStateM.Result.ok _ _ = EStateM.Result.ok _ _
    rw [he]
    rfl
  have henter' : Tracked.lift (enter e) (s, c.start e) =
      .ok () ({ s with loc := some l }, c.start e) := by
    show Tracked.withCalls _ (enter e s) = _
    rw [henter]
    rfl
  -- what is left of the call once its start has been recorded
  have hcall : Tracked.calling e (do Tracked.lift (enter e); m') (s, c) =
      ((do Tracked.lift (enter e); m') >>= fun a => do
        modify fun p => (p.1, p.2.finish e)
        return a : Tracked α) (s, c.start e) := rfl
  cases h { s with loc := some l } (within_start he rfl) with
  | ok hm hm' hback =>
    refine .ok ((bind_of_ok _ henter).trans hm) ?_ hback.finish
    rw [hcall, bind_of_ok _ ((bind_of_ok _ henter').trans hm')]
    rfl
  | error hm hm' hstop =>
    refine .error ((bind_of_ok _ henter).trans hm) ?_ hstop
    rw [hcall, bind_of_error _ ((bind_of_ok _ henter').trans hm')]

theorem inferring {l : Location} {rule : Check Ty} {rule' : Tracked Ty} (he : e.loc = some l)
    (h : ∀ {s c'}, c'.Within s e c.pending →
      Tells rule' rule s c' fun _ s₁ c₁ => c₁.Back s₁ e c.pending) :
    Tells (Tracked.inferring Γ e rule') (inferring Γ e rule) s c fun _ => Done e c.pending := by
  refine calling he fun s hs => ?_
  refine (lift (keeps_note _) hs).bind fun _ s₁ c₁ hs₁ => ?_
  refine (h hs₁).bind fun t s₂ c₂ hs₂ => ?_
  exact (note hs₂).bind fun _ s₃ c₃ hs₃ => .pure hs₃

theorem checking {l : Location} {o : Checker.Options} {t : Ty} {rule : Ty → Check Unit}
    {rule' : Ty → Tracked Unit} (he : e.loc = some l)
    (h : ∀ {s c'} t, c'.Within s e c.pending →
      Tells (rule' t) (rule t) s c' fun _ s₁ c₁ => c₁.Back s₁ e c.pending) :
    Tells (Tracked.checking o Γ e t rule') (checking o Γ e t rule) s c
      fun _ => Done e c.pending := by
  refine calling he fun s hs => ?_
  refine (lift (keeps_normalize o t) hs).bind fun t' s₁ c₁ hs₁ => ?_
  exact (lift (keeps_note _) hs₁).bind fun _ s₂ c₂ hs₂ => h t' hs₂

end Tells

/-! ## Inference and comparison -/

namespace Expr

open Checker.Calls

variable (L : Location → Prop) (same : Checker.Comparison) (o : Checker.Options)

/-- Within the bound `n`, tracked inference is inference. -/
def InferTells (n : Nat) : Prop :=
  ∀ {Γ : Context} {e : Expr} {s : Checker.State} {c : Checker.Calls}, Γ.Each (Located L) →
    e.Each (Located L ·.loc) (Located L) → 0 < n ∨ c.Stopped s →
    Tells (e.inferTracked same o n Γ) (e.inferBy same o n Γ) s c fun _ => Done e c.pending

/-- Within the bound `n`, a tracked comparison is a comparison. -/
def CheckTells (n : Nat) : Prop :=
  ∀ {Γ : Context} {e : Expr} {t : Ty} {s : Checker.State} {c : Checker.Calls},
    Γ.Each (Located L) → e.Each (Located L ·.loc) (Located L) → 0 < n ∨ c.Stopped s →
    Tells (e.checkTracked same o n Γ t) (e.checkBy same o n Γ t) s c fun _ => Done e c.pending

variable {L same o} {n : Nat} {Γ : Context} {e e' : Expr} {s : Checker.State}
  {c : Checker.Calls} {outer : List Expr}

/-- Inference is called from within another call. -/
theorem InferTells.call (infer : InferTells L same o n) (hΓ : Γ.Each (Located L))
    (he : e.Each (Located L ·.loc) (Located L)) (h : c.Within s e' outer) :
    Tells (e.inferTracked same o n Γ) (e.inferBy same o n Γ) s c fun _ => Done e (e' :: outer) :=
  h.pending ▸ infer hΓ he (.inr h.stopped)

/-- A comparison is called from within another call. -/
theorem CheckTells.call (check : CheckTells L same o n) {t : Ty} (hΓ : Γ.Each (Located L))
    (he : e.Each (Located L ·.loc) (Located L)) (h : c.Within s e' outer) :
    Tells (e.checkTracked same o n Γ t) (e.checkBy same o n Γ t) s c
      fun _ => Done e (e' :: outer) :=
  h.pending ▸ check hΓ he (.inr h.stopped)

theorem Applies.inferredFirst {f : Expr} (h : e.Applies f) : f.InferredFirst e := by
  cases h with
  | app f a l => exact .app f a l
  | tapp f u l => exact .tapp f u l

/-- The rules of the tracked checker, in the call for `e`, call the same as those of the checker.
After the last call it may stand anywhere. -/
theorem tracked_related (infer : InferTells L same o n) (check : CheckTells L same o n)
    (hΓ : Γ.Each (Located L)) (he : e.Each (Located L ·.loc) (Located L)) (outer : List Expr) :
    Checker.Callees.Related
      (fun m' m => ∀ s c, Within c s e outer → Tells m' m s c fun _ s₁ c₁ => c₁.Within s₁ e outer)
      (fun m' m => ∀ s c, Within c s e outer → Tells m' m s c fun _ s₁ c₁ => c₁.Back s₁ e outer)
      (.tracked same o n (inferTracked same o n) (checkTracked same o n)) (.within same o n)
      Γ e where
  pure a s c hs := .pure hs
  last h s c hs := (h s c hs).mono fun _ _ _ h => h.toBack
  bind h hf s c hs := (h s c hs).bind fun a s₁ c₁ hs₁ => hf a s₁ c₁ hs₁
  map g h s c hs := (h s c hs).bind fun _ _ _ hs₁ => .pure hs₁
  step hm s c hs := .lift (hm.steady (keeps_steady (Located L)) he.loc) hs
  normalize t s c hs := .lift (keeps_normalize o t) hs
  agreeAt t u s c hs := .lift ((keeps_steady (Located L)).agreeAt same he.loc t u) hs
  found _ hf s c hs := .found hs fun d hd => hf d hd s c hs
  type hu s c hs := .lift (TypeExpr.elaborate_stable (keeps_steady (Located L)) hΓ (hu.each he)) hs
  kind hk s c hs := .lift (KindExpr.elaborate_stable (keeps_steady (Located L)) hΓ (hk.each he)) hs
  -- the checker has moved into what is applied, and it goes on from there
  first hf s c hs :=
    (infer.call hΓ (hf.each he) hs).mono fun _ _ _ h => h.within hf.inferredFirst
  value _ hv s c hs := by
    refine (infer.call hΓ (hΓ.exprs hv) hs).bind fun t s₁ c₁ hs₁ => ?_
    refine (Tells.change (fun s => ?_) hs₁.back).bind fun _ s₂ c₂ hs₂ => .pure hs₂
    split <;> rfl
  infer h s c hs :=
    (infer.call (h.each hΓ he).1 (h.each hΓ he).2 hs).mono fun _ _ _ h => h.back
  check t h s c hs :=
    (check.call (h.each hΓ he).1 (h.each hΓ he).2 hs).mono fun _ _ _ h => h.back

/-- The tracked checker is the checker, and where it fails a call is in progress. -/
theorem tracked (n : Nat) : InferTells L same o n ∧ CheckTells L same o n := by
  induction n with
  | zero =>
    constructor
    · intro Γ e s c _ _ h
      rw [inferTracked, inferBy]
      exact .error rfl rfl (h.resolve_left (Nat.lt_irrefl 0))
    · intro Γ e t s c _ _ h
      rw [checkTracked, checkBy]
      exact .error rfl rfl (h.resolve_left (Nat.lt_irrefl 0))
  | succ n ih =>
    have hrules {Γ : Context} {e : Expr} := @tracked_related L same o n Γ e ih.1 ih.2
    constructor
    · intro Γ e s c hΓ he _
      obtain ⟨l, hl, -⟩ := he.loc
      rw [inferTracked, inferBy_succ]
      exact .inferring hl fun hs => (hrules hΓ he c.pending).inferRule _ _ hs
    · intro Γ e t s c hΓ he _
      obtain ⟨l, hl, -⟩ := he.loc
      rw [checkTracked, checkBy_succ]
      refine .checking hl fun t' hs =>
        (hrules hΓ he c.pending).checkRule (fun s c hs => ?_) t' _ _ hs
      exact (InferTells.call ih.1 hΓ he hs).mono fun _ _ _ h => h.within (.compared e)

/-! ## Programs -/

/-- Where a program that was read from a text fails without a place, the failure is put at the
expression whose call was started last. It is put at the innermost expression in progress if and
only if that has the same place. The two are the same unless a call has ended since; what has ended
then is the call for the function of the application in progress, or for the expression in progress
itself, whose type is compared. -/
theorem unplaced_at_last_started {text : String} {file : Option String} {depth : Nat} {e r : Expr}
    {c : Int} {o : Checker.Options} {tr : Trace} {g : Failure} {s : Checker.State}
    (hparse : Expr.parse text file depth = .ok e) (hrename : e.rename {} 1 = .ok r c)
    (hrun : r.infer o (Context.reach {} r.size) {} { supply := c, trace := tr } = .error g s)
    (hg : g.loc = none) :
    ∃ (calls : Checker.Calls) (x cur : Expr) (outer : List Expr) (l : Location),
      r.inferTracked Ty.conform o (Context.reach {} r.size) {} ({ supply := c, trace := tr }, {}) =
        .error g (s, calls) ∧
      calls.last = some x ∧ calls.pending = cur :: outer ∧ x.loc = some l ∧
      (e.typeOf o tr).1 = .error { g with loc := some l } ∧
      ((e.typeOf o tr).1 = .error { g with loc := cur.loc } ↔ x.loc = cur.loc) ∧
      (calls.ended = [] → x = cur) ∧
      ∀ y, calls.ended.head? = some y → y.InferredFirst cur := by
  have heach := (rename_each (s := {}) (c := 1) ((parse_within text file depth).1 e hparse)).of_ok
    hrename
  have hpos : 0 < Context.reach {} r.size := by
    unfold Context.reach
    omega
  have htells : Tells (r.inferTracked Ty.conform o (Context.reach {} r.size) {})
      (r.inferBy Ty.conform o (Context.reach {} r.size) {}) { supply := c, trace := tr } {}
      fun _ => Done r [] := (tracked _).1 .empty heach (.inl hpos)
  -- the tracked checker is the checker, so that it has failed in the same way
  cases htells with
  | ok hm => cases hm.symm.trans hrun
  | @error f s₁ calls hm hm' hstop =>
    obtain ⟨rfl, rfl⟩ := EStateM.Result.error.inj (hm.symm.trans hrun)
    obtain ⟨cur, outer, hcur⟩ := hstop
    obtain ⟨x, l, hlast, hx, hs⟩ := hcur.stands
    have hnormal : r.inferNormal Ty.conform o { supply := c, trace := tr } = .error f s₁ :=
      bind_of_error _ hm
    have htype : (e.typeOf o tr).1 = .error { f with loc := some l } := by
      rw [typeOf, typeOfBy_of_rename hrename, hnormal]
      show Except.error { f with loc := f.loc.or s₁.loc } = _
      rw [hg, hs]
      rfl
    refine ⟨calls, x, cur, outer, l, hm', hlast, hcur.pending, hx, htype, ?_, fun hnil => ?_,
      fun y hy => hcur.first hy⟩
    · rw [htype, hx]
      constructor
      · intro h
        exact congrArg Failure.loc (Except.error.inj h)
      · intro h
        rw [h]
    · exact Option.some.inj (hlast.symm.trans (hcur.fresh hnil))

/-- The type of a parameter that takes an argument: the abstraction in progress has just been
started. -/
theorem unplaced_at_last_started_parameter :
    ∃ e r c g s, Expr.parse "λy: Int. λx: Int Int. x" = .ok e ∧ e.rename {} 1 = .ok r c ∧
      r.infer {} (Context.reach {} r.size) {} { supply := c } = .error g s ∧ g.loc = none ∧
      ∃ (calls : Checker.Calls) (cur : Expr) (outer : List Expr),
        r.inferTracked Ty.conform {} (Context.reach {} r.size) {} ({ supply := c }, {}) =
          .error g (s, calls) ∧
        calls.pending = cur :: outer ∧ calls.ended = [] ∧ cur.loc = some ⟨1, 10, none⟩ ∧
        (e.typeOf {}).1 = .error { g with loc := cur.loc } := by
  have hrun : ∃ e ∈ (Expr.parse "λy: Int. λx: Int Int. x").toOption,
      ∃ p ∈ success? (e.rename {} 1),
      ∃ q ∈ failure? (p.1.inferTracked Ty.conform {} (Context.reach {} p.1.size) {}
        ({ supply := p.2 }, {})),
      failure? (p.1.infer {} (Context.reach {} p.1.size) {} { supply := p.2 }) = some (q.1, q.2.1) ∧
        q.1.loc = none ∧ q.2.2.ended = [] ∧
        q.2.2.pending.head?.bind (·.loc) = some ⟨1, 10, none⟩ := by
    decide +kernel
  obtain ⟨e, he, ⟨r, c⟩, hr, ⟨g, s, calls⟩, htracked, hinfer, hg, hended, hloc⟩ := hrun
  have hparse := toOption_eq_some.1 he
  have hrename := success?_eq_some.1 hr
  have hfailure := failure?_eq_some.1 hinfer
  obtain ⟨calls', x, cur, outer, l, hcalls, -, hpending, -, -, hiff, hfresh, -⟩ :=
    unplaced_at_last_started hparse hrename hfailure hg
  obtain ⟨-, hcalls⟩ := EStateM.Result.error.inj ((failure?_eq_some.1 htracked).symm.trans hcalls)
  obtain ⟨-, rfl⟩ := Prod.mk.inj hcalls
  rw [hpending] at hloc
  exact ⟨e, r, c, g, s, hparse, hrename, hfailure, hg, calls, cur, outer,
    failure?_eq_some.1 htracked, hpending, hended, hloc,
    hiff.2 (congrArg Expr.loc (hfresh hended))⟩

/-- A type argument of the wrong kind for an abstraction: the call for the application is the only
one in progress, and the failure is put at the variable in the body of the abstraction, whose call
has ended. -/
theorem unplaced_at_ended_call :
    ∃ e r c g s, Expr.parse "(λX: *. λx: X. x) [λY: *. Y]" = .ok e ∧ e.rename {} 1 = .ok r c ∧
      r.infer {} (Context.reach {} r.size) {} { supply := c } = .error g s ∧ g.loc = none ∧
      ∃ calls : Checker.Calls,
        r.inferTracked Ty.conform {} (Context.reach {} r.size) {} ({ supply := c }, {}) =
          .error g (s, calls) ∧
        calls.pending.map (·.loc) = [some ⟨1, 2, none⟩] ∧
        (e.typeOf {}).1 = .error { g with loc := some ⟨1, 16, none⟩ } := by
  have hrun : ∃ e ∈ (Expr.parse "(λX: *. λx: X. x) [λY: *. Y]").toOption,
      ∃ p ∈ success? (e.rename {} 1),
      ∃ q ∈ failure? (p.1.inferTracked Ty.conform {} (Context.reach {} p.1.size) {}
        ({ supply := p.2 }, {})),
      failure? (p.1.infer {} (Context.reach {} p.1.size) {} { supply := p.2 }) = some (q.1, q.2.1) ∧
        q.1.loc = none ∧ q.2.2.pending.map (·.loc) = [some ⟨1, 2, none⟩] ∧
        error? (e.typeOf {}).1 = some { q.1 with loc := some ⟨1, 16, none⟩ } := by
    decide +kernel
  obtain ⟨e, he, ⟨r, c⟩, hr, ⟨g, s, calls⟩, htracked, hinfer, hg, hpending, htype⟩ := hrun
  exact ⟨e, r, c, g, s, toOption_eq_some.1 he, success?_eq_some.1 hr, failure?_eq_some.1 hinfer, hg,
    calls, failure?_eq_some.1 htracked, hpending, error?_eq_some.1 htype⟩

end Expr

end SystemFOmega
