import SystemFOmega.Proofs.Checker.Proper
import SystemFOmega.Proofs.Checker.Safety
import SystemFOmega.Proofs.Checker.Wording
import SystemFOmega.Proofs.Surface.Plain

/-!
# Reading back types and results

The texts of the type of a program and of what the program reduces to show display names only. Such
a text can be read, and what is read is the type or the result again, up to bound names, exactly if
every reference in it has the name of the innermost binder with its display name
(`Expr.typeOf_reduce_readBack`). Substitution can put a reference under another binder with its
display name, so this need not be the case (`Expr.readBack_captured`).

A type that is read back is elaborated in the empty context (`TypeExpr.coreType?`). It is plain, so
that elaboration adds nothing but kinds to it (`TypeExpr.phrase_core`).
-/

namespace SystemFOmega

open Run

/-! ## Elaboration of plain types -/

/-- Where names stand for themselves, the core type of a plain type is written like the type. -/
theorem TypeExpr.phrase_core {u : TypeExpr} (h : u.phrase.Plain) {ρ : Env}
    {σ : Name → Except Failure.Cause Ty}
    (hσ : ∀ x t, σ x = .ok t → t.surface.phrase = .ref .type x) {t : Ty}
    (hc : u.core ρ σ = .ok t) : t.surface.phrase = u.phrase := by
  induction u generalizing ρ σ t with
  | int =>
    obtain rfl := Except.ok.inj hc
    rfl
  | var x => exact hσ x.name t hc
  | arrow u v hu hv =>
    obtain ⟨u', h₁, -, hc⟩ := Ty.requireKind_bind_ok.1 hc
    obtain ⟨v', h₂, -, hc⟩ := Ty.requireKind_bind_ok.1 hc
    obtain rfl := Except.ok.inj hc
    exact congrArg₂ (Phrase.pair .typeArrow) (hu h.2.1 hσ h₁) (hv h.2.2 hσ h₂)
  | bind b x k v ih =>
    have hbind (y : Name) (t : Ty)
        (hy : Function.update σ x.name (.ok (.var x.name (k.expand ρ))) y = .ok t) :
        t.surface.phrase = .ref .type y := by
      by_cases hyx : y = x.name
      · rw [hyx, Function.update_self] at hy
        obtain rfl := Except.ok.inj hy
        rw [hyx]
        rfl
      · rw [Function.update_of_ne hyx] at hy
        exact hσ y t hy
    have hk := k.surface_expand h.1 ρ
    cases b with
    | all =>
      obtain ⟨v', h₁, -, hc⟩ := Ty.requireKind_bind_ok.1 hc
      obtain rfl := Except.ok.inj hc
      exact congrArg₂ (Phrase.bind _ x.name) hk (ih h.2 hbind h₁)
    | lam =>
      obtain ⟨v', h₁, hc⟩ := Run.except_bind_ok.1 hc
      obtain rfl := Except.ok.inj hc
      exact congrArg₂ (Phrase.bind _ x.name) hk (ih h.2 hbind h₁)
  | app f a hf ha =>
    obtain ⟨f', h₁, hc⟩ := Run.except_bind_ok.1 hc
    split at hc
    · cases hc
    · obtain ⟨a', h₂, -, hc⟩ := Ty.requireKind_bind_ok.1 hc
      obtain rfl := Except.ok.inj hc
      exact congrArg₂ (Phrase.pair .typeApp) (hf h.2.1 hσ h₁) (ha h.2.2 hσ h₂)
  | kinded t k => exact absurd rfl h.1

/-- The core type of a closed type as it is read, if it has one: the type is renamed and then
elaborated in the empty context. -/
def TypeExpr.coreType? (o : Checker.Options) (t : TypeExpr) : Option Ty :=
  match t.rename {} 1 with
  | .ok u _ => (u.elaborate o (Context.reach {} u.size) {}).run' {}
  | .error _ _ => none

section

variable {o : Checker.Options} {t u : TypeExpr} {T : Ty} {c c' : Int}

/-- The elaboration of a plain type that has been renamed adds nothing but kinds, and it succeeds if
the expansion of the type has a kind. -/
theorem TypeExpr.elaborate_plain (hu : t.rename {} c = .ok u c') (h : u.phrase.Plain) :
    (∀ T, (u.elaborate o (Context.reach {} u.size) {}).run' {} = some T →
      T.surface.phrase = u.phrase) ∧
    ((∃ k, Nameless.Kinded Kinds.empty (u.expand Env.empty) k) →
      ∃ T, (u.elaborate o (Context.reach {} u.size) {}).run' {} = some T) := by
  obtain ⟨-, place, hplace⟩ := (t.rename_placed (c := c) .nil).of_ok hu
  have hplace : u.Placed place [] := hplace place fun _ _ _ => rfl
  have hn : u.size + Telescope.weight [] ≤ Context.reach {} u.size := by
    unfold Context.reach Telescope.weight
    omega
  have hgives := u.elaborate_gives o (S := []) trivial hplace (.nil {}) (.refl (.start 1 {})) hn
  constructor
  · intro T hT
    obtain ⟨s, hT⟩ := Run.run'_eq_some.1 hT
    exact phrase_core h (fun x t ht => by cases ht) (hgives.of_ok hT).1
  · intro hk
    have hdec := hplace.decided trivial
    cases hcore : u.coreAt [] with
    | ok T =>
      rw [hcore] at hgives
      obtain ⟨s, hT, -⟩ := hgives.exists_ok
      exact ⟨T, Run.run'_eq_some.2 ⟨s, hT⟩⟩
    | error =>
      rw [hcore] at hdec
      exact absurd hk hdec

end

/-- The kinding of a closed type, without names. -/
theorem Ty.WellKinded.kinded_nameless {T : Ty} {k : Kind} (h : T.WellKinded (fun _ => none) k) :
    Nameless.Kinded Kinds.empty T.nameless k := by
  have hrefs : NameKinds.refs (fun _ => none) = Kinds.empty := by
    funext r
    cases r <;> rfl
  exact hrefs ▸ h.nameless

theorem Kind.legible_surface {lets : Prop} (k : Kind) : k.surface.phrase.Legible lets := by
  induction k with
  | star => trivial
  | arrow j k hj hk => exact ⟨hj, hk⟩

theorem Ty.Legible.surface {lets : Prop} {T : Ty} (h : T.Legible) :
    T.surface.phrase.Legible lets := by
  induction T with
  | int => trivial
  | var x k => exact h
  | arrow s t k hs ht | app s t k hs ht => exact ⟨hs h.1, ht h.2⟩
  | bind b x xk t k ih => exact ⟨h.1, trivial, xk.legible_surface, ih h.2⟩

/-- What is read back from the text of a closed core type has a core type that is alpha-equivalent
to it exactly if all of its references resolve. -/
theorem Ty.readsBack_iff {T : Ty} (hT : T.Legible) {k : Kind}
    (hk : T.WellKinded (fun _ => none) k) (o : Checker.Options) :
    Parser.ReadsBack (TypeExpr.parse T.print ·) fun t =>
      (∃ T', t.coreType? o = some T' ∧ T'.AlphaEq T) ↔ ∀ v ∈ T.surface.visits [], v.Bound := by
  have hclosed : T.surface.Closed := by
    refine closed_surface (List.eq_nil_iff_forall_not_mem.2 fun x hx => ?_)
    obtain ⟨j, hj⟩ := hk.exists_kind hx
    cases hj
  have hphrase : T.surface.phrase.Legible True := hT.surface
  have hlegible : T.surface.unnumbered.Legible := TypeExpr.legible_unnumbered hphrase
  rw [← T.print_surface, ← T.surface.print_unnumbered]
  refine (Parser.type_faithful.readsBack hlegible.printed.type none).mono fun t ht => ?_
  have hread : t.phrase = T.surface.phrase.unnumbered := by
    have h := congrArg TypeExpr.phrase ht
    rwa [TypeExpr.phrase_unlocated, TypeExpr.phrase_unlocated, TypeExpr.phrase_unnumbered] at h
  obtain ⟨u, c, hu, hnames, hiff⟩ := TypeExpr.exists_rename_unnumbered hread hclosed 1
  have hplain : u.phrase.Plain := (Phrase.plain_congr hnames).2 T.plain_surface
  obtain ⟨hcore, hsucceeds⟩ := TypeExpr.elaborate_plain (o := o) hu hplain
  rw [← hiff, TypeExpr.coreType?, hu]
  constructor
  · rintro ⟨T', hT', hα⟩
    rw [← hcore T' hT']
    exact alphaEq_iff_skeleton_eq.1 hα
  · intro hskel
    have hexp : u.expand Env.empty = T.nameless := by
      apply Nameless.skeleton_injective
      rw [TypeExpr.skeleton_expand hplain, hskel, T.skeleton_surface]
    obtain ⟨T', hT'⟩ := hsucceeds ⟨k, hexp ▸ hk.kinded_nameless⟩
    refine ⟨T', hT', alphaEq_iff_skeleton_eq.2 ?_⟩
    rw [hcore T' hT', hskel]

/-! ## Types and results of programs -/

instance (v : Visit) : Decidable v.Bound :=
  match v with
  | .binder _ => inferInstanceAs (Decidable True)
  | .reference _ _ _ => inferInstanceAs (Decidable (_ = _))

namespace Expr

variable {e r : Expr} {c : Int}

/-- Renaming keeps a phrase legible. -/
theorem Legible.of_rename {lets : Prop} (h : e.Legible) (hr : e.rename {} 1 = .ok r c) :
    r.phrase.Legible lets := by
  obtain ⟨hsame, -⟩ := (e.rename_resolves .nil).of_ok hr
  have hnames : r.phrase.unnumbered = e.phrase.unnumbered := by
    rw [← phrase_unnumbered, hsame, phrase_unnumbered]
  exact (Phrase.legible_congr hnames).2 h.phrase

/-- In a run of a closed expression all expressions are closed. -/
theorem Run.closed {s : Strategy} {e' : Expr} {c' : Int} (h : Run s (e, c) (e', c'))
    (hc : Below c e.names) (he : e.Closed) : e'.Closed := by
  obtain ⟨hsteps, -⟩ := h.steps hc
  refine fun l => List.eq_nil_iff_forall_not_mem.2 fun y hy => ?_
  have hfree : y ∈ e.free l := mem_free.2 (hsteps.uses (mem_free.1 hy))
  rw [he l] at hfree
  cases hfree

/-- Take a program that the checker accepts with the type `T`, and what the program reduces to under
any strategy and limit. The names of `T` are words if those of the program are. Its text is then
read as a type, which has a core type that is alpha-equivalent to `T` exactly if every reference of
`T` has the name of the innermost binder with its display name. In the same way, a result whose
definitions still tell the types of their values is read back from its text, and renaming what has
been read gives the result again, up to bound names, exactly if every reference of the result has
the name of the innermost binder with its display name. -/
theorem typeOf_reduce_readBack {o : Checker.Options} {tr : Trace} {T : Ty}
    (h : (e.typeOf o tr).1 = .ok T) :
    ((e.Legible → T.Legible) ∧
      (T.Legible → ∀ o', Parser.ReadsBack (TypeExpr.parse T.print ·) fun t =>
        (∃ T', t.coreType? o' = some T' ∧ T'.AlphaEq T) ↔
          ∀ v ∈ T.surface.visits [], v.Bound)) ∧
    ∃ r₀ c₀, e.rename {} 1 = .ok r₀ c₀ ∧ ∀ (s : Strategy) (limit c : Int), 0 ≤ limit →
      r₀.Starts c → ∃ run r, (Tree.expr r₀).reduce s limit c = .ok run ∧ run.result = .expr r ∧
        (e.Legible → (s.eager → r.annotatesLets) → r.unnumbered.Legible) ∧
        (r.unnumbered.Legible → ∀ file, Parser.ReadsBack (Expr.parse r.print file ·) fun e' =>
          ∃ r' c', e'.rename {} 1 = .ok r' c' ∧
            (r'.AlphaEq r ↔ ∀ v ∈ r.visits [], v.Bound)) := by
  cases hr : e.rename {} 1 with
  | error u c =>
    rw [typeOf, typeOfBy, EStateM.run, hr] at h
    cases h
  | ok r₀ c₀ =>
    obtain ⟨place, hplace⟩ := exists_placed hr
    obtain ⟨s, hrun⟩ := (typeOfBy_ok hr).1 h
    refine ⟨⟨fun he => ?_, fun hT o' => ?_⟩, r₀, c₀, rfl, fun s limit c hlimit hc => ?_⟩
    · have hr₀ : r₀.phrase.Legible True := he.of_rename hr
      exact inferNormal_legible hplace hr₀ hrun
    · exact Ty.readsBack_iff hT (inferNormal_proper hplace hrun).1 o'
    · obtain ⟨run, r, hreduce, hresult, hsteps⟩ := exists_run_of_reduce s r₀ c hlimit
      refine ⟨run, r, hreduce, hresult, fun he hlets => ?_, fun hl file => ?_⟩
      · exact legible_unnumbered (hsteps.legible (he.of_rename hr))
          fun hs => hlets (by simpa using hs)
      · exact readsBack_iff hl (hsteps.closed hc.below (closed_of_rename hr)) file

/-- An alias with a parameter `A` is used with a type variable `A`. The parameter shadows the
variable in the operator only, where nothing refers to the variable. After the step that puts in the
alias, the `let` is still there. -/
theorem typeOf_reduce_readBack_alias :
    let x (v : String) (n : Int) : Ident := { name := ⟨v, n⟩ }
    let operator (n : Int) := TypeExpr.kinded
      (.bind .lam (x "A" n) .star (.arrow (.var (x "A" n)) (.var (x "A" n)))) (.arrow .star .star)
    let body (f : TypeExpr) (i j k : Int) := tlam (x "A" i) .star
      (lam (x "f" j) (.app f (.var (x "A" i)))
        (letIn (x "g" k) (ann (var (x "f" j) none) (.app f (.var (x "A" i))) none)
          (var (x "g" k) none) none) none) none
    let e := typeIn (x "F" 0) (operator 0) (body (.var (x "F" 0)) 0 0 0) none
    let r₀ := typeIn (x "F" 2) (operator 1) (body (.var (x "F" 2)) 3 4 5) none
    let r := body (operator 1) 3 4 5
    let A := Ty.var ⟨"A", 3⟩ .star
    let T := Ty.bind .all ⟨"A", 3⟩ .star
      (.arrow (.arrow A A .star) (.arrow A A .star) .star) .star
    (e.typeOf {}).1 = .ok T ∧ T.print = "∀A: *. (A -> A) -> A -> A" ∧
      Parser.ReadsBack (TypeExpr.parse T.print ·)
        (fun t => ∃ T', t.coreType? {} = some T' ∧ T'.AlphaEq T) ∧
      e.rename {} 1 = .ok r₀ 6 ∧
      (Tree.expr r₀).reduce .normal 1 6 = .ok { result := .expr r, counter := 6, history := [r] } ∧
      r.print = "λA: *. λf: ((λA: *. A -> A : * -> *)) A. " ++
        "let g: ((λA: *. A -> A : * -> *)) A = f in g" ∧
      Parser.ReadsBack (Expr.parse r.print none ·)
        (fun e' => ∃ r' c', e'.rename {} 1 = .ok r' c' ∧ r'.AlphaEq r) := by
  intro x operator body e r₀ r A T
  have hT : (e.typeOf {}).1 = .ok T := Run.toOption_eq_some.1 (by decide +kernel)
  have hr₀ : e.rename {} 1 = .ok r₀ 6 := rfl
  have hreduce : (Tree.expr r₀).reduce .normal 1 6 =
      .ok { result := .expr r, counter := 6, history := [r] } :=
    Run.toOption_eq_some.1 (by decide +kernel)
  have he : e.Legible := by
    have hname (v : String) (k : TokenKind) (h : Token.Spells k v) : (x v 0).Legible k := ⟨h, rfl⟩
    have hA := hname "A" .upperName (by decide +kernel)
    have hF := hname "F" .upperName (by decide +kernel)
    have hf := hname "f" .lowerName (by decide +kernel)
    have hg := hname "g" .lowerName (by decide +kernel)
    have happ : (TypeExpr.app (.var (x "F" 0)) (.var (x "A" 0))).Legible :=
      .app (.var hF) (.var hA)
    exact .typeIn hF (.arrow .star .star) (.bind hA .star (.arrow (.var hA) (.var hA)))
      (.tlam hA .star (.lam hf happ (.letIn hg happ (.var hf) (.var hg))))
  obtain ⟨⟨hwords, hback⟩, r₁, c₁, hr₁, hresults⟩ := typeOf_reduce_readBack hT
  obtain ⟨rfl, rfl⟩ := EStateM.Result.ok.inj (hr₀.symm.trans hr₁)
  obtain ⟨run, r', hrun, hr', hlegible, hback'⟩ :=
    hresults .normal 1 6 (by decide) (.inl ⟨e, 1, hr₀⟩)
  obtain rfl := Except.ok.inj (hreduce.symm.trans hrun)
  obtain rfl := Tree.expr.inj hr'
  have hboundT : ∀ v ∈ T.surface.visits [], v.Bound := by decide +kernel
  have hbound : ∀ v ∈ r.visits [], v.Bound := by decide +kernel
  refine ⟨hT, by decide +kernel, (hback (hwords he) {}).mono fun t ht => ht.2 hboundT, hr₀, hreduce,
    by decide +kernel, ?_⟩
  refine (hback' (hlegible he (fun h => by cases h)) none).mono fun e' he' => ?_
  obtain ⟨r', c', hr', hiff⟩ := he'
  exact ⟨r', c', hr', hiff.2 hbound⟩

/-- In the type of the first program and in the result of the second, substitution has put a
reference under another binder with its display name. What is read back from their texts refers to
that binder instead. -/
theorem readBack_captured :
    let x (v : String) (n : Int) : Ident := { name := ⟨v, n⟩ }
    let e := tlam (x "A" 0) .star (tapp (tlam (x "B" 0) .star (tlam (x "A" 0) .star
      (lam (x "x" 0) (.var (x "B" 0)) (lam (x "y" 0) (.var (x "A" 0)) (var (x "x" 0) none) none)
        none) none) none) (.var (x "A" 0)) none) none
    let A (n : Int) := Ty.var ⟨"A", n⟩ .star
    let quantified (i j k : Int) := Ty.bind .all ⟨"A", i⟩ .star (.bind .all ⟨"A", j⟩ .star
      (.arrow (A k) (.arrow (A j) (A k) .star) .star) .star) .star
    let T := quantified 1 3 1
    let d := lam (x "y" 0) .int (app (lam (x "x" 0) .int
      (lam (x "y" 0) .int (var (x "x" 0) none) none) none) (var (x "y" 0) none) none) none
    let constant (i j k : Int) :=
      lam (x "y" i) .int (lam (x "y" j) .int (var (x "y" k) none) none) none
    let r := constant 1 3 1
    (e.typeOf {}).1 = .ok T ∧ T.print = "∀A: *. ∀A: *. A -> A -> A" ∧
      (∃ t, TypeExpr.parse T.print 16 = .ok t ∧ t.coreType? {} = some (quantified 1 2 2) ∧
        ¬ (quantified 1 2 2).AlphaEq T) ∧
      (d.typeOf {}).1 = .ok (.arrow (.int .star) (.arrow (.int .star) (.int .star) .star) .star) ∧
      (∃ r₀ run, d.rename {} 1 = .ok r₀ 4 ∧ (Tree.expr r₀).reduce .normal 100 4 = .ok run ∧
        run.result = .expr r) ∧
      r.print = "λy: Int. λy: Int. y" ∧
      ∃ e', Expr.parse r.print none 16 = .ok e' ∧
        ∃ r' c', e'.rename {} 1 = .ok r' c' ∧ ¬ r'.AlphaEq r := by
  intro x e A quantified T d constant r
  -- what is read, and then done with it, is found by evaluation
  have read {α β : Type} {m : Except ReadFault α} {f : α → Option β} {b : β}
      (h : m.toOption.bind f = some b) : ∃ a, m = .ok a ∧ f a = some b := by
    obtain ⟨a, ha, hb⟩ := Option.bind_eq_some_iff.1 h
    exact ⟨a, Run.toOption_eq_some.1 ha, hb⟩
  have htype : ∃ t, TypeExpr.parse T.print 16 = .ok t ∧
      t.coreType? {} = some (quantified 1 2 2) := read (by decide +kernel)
  have hexpr : ∃ e', Expr.parse r.print none 16 = .ok e' ∧
      ((e'.rename {}).run' 1).map Expr.skeleton = some (constant 1 2 2).skeleton :=
    read (by decide +kernel)
  obtain ⟨t, ht, hcore⟩ := htype
  obtain ⟨e', he', hskel⟩ := hexpr
  obtain ⟨r', hr', hskel⟩ := Option.map_eq_some_iff.1 hskel
  obtain ⟨c', hr'⟩ := Run.run'_eq_some.1 hr'
  refine ⟨Run.toOption_eq_some.1 (by decide +kernel), by decide +kernel,
    ⟨t, ht, hcore, by decide +kernel⟩, Run.toOption_eq_some.1 (by decide +kernel), ?_,
    by decide +kernel, e', he', r', c', hr', ?_⟩
  · refine ⟨lam (x "y" 1) .int (app (lam (x "x" 2) .int
      (lam (x "y" 3) .int (var (x "x" 2) none) none) none) (var (x "y" 1) none) none) none,
      { result := .expr r, counter := 4, history := [r] }, rfl, ?_, rfl⟩
    exact Run.toOption_eq_some.1 (by decide +kernel)
  · rw [AlphaEq, hskel]
    decide +kernel

end Expr

end SystemFOmega
