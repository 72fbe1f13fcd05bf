import SystemFOmega.Proofs.Checker.Proper
import SystemFOmega.Proofs.Checker.Simulation
import SystemFOmega.Proofs.Checker.Watch
import SystemFOmega.Proofs.Core.Twin
import SystemFOmega.Proofs.Surface.Unused

/-!
# Unused definitions do not matter

The checker goes through two programs that differ in the values of unused definitions. It never
looks at such a value, so that both runs take the same steps. They are a simulation
(`Mirror.simulation`), whose worlds are relabelings: what the runs find is the same up to a
relabeling, which starts as the matching of the two renamed programs and is extended with each
fresh name. The contexts and the tables of the two runs correspond at the names that the programs
may refer to (`Table.Matches`), and say what they like of the others.
-/

namespace SystemFOmega

open Run

variable {b : Int}

/-! ## Contexts and states -/

/-- What the tables have for names that the programs may refer to is related by `R`. -/
def Table.Matches {α β : Type} (M : Matching b) (R : α → β → Prop) (T : Table Name α)
    (T' : Table Name β) : Prop :=
  ∀ x x', M.Used x x' → Option.Rel R (T.get? x) (T'.get? x')

namespace Table.Matches

variable {α β : Type} {M : Matching b} {R R' : α → β → Prop} {T : Table Name α} {T' : Table Name β}

theorem empty (M : Matching b) (R : α → β → Prop) : Matches M R {} {} := fun _ _ _ => .none

/-- Both tables have something for a name that the programs may refer to, or none of them. -/
theorem get?_cases (h : T.Matches M R T') {x x' : Name} (hx : M.Used x x') :
    (T.get? x = none ∧ T'.get? x' = none) ∨
      ∃ a a', T.get? x = some a ∧ T'.get? x' = some a' ∧ R a a' := by
  have hrel := h x x' hx
  generalize T.get? x = v, T'.get? x' = v' at hrel ⊢
  cases hrel with
  | none => exact .inl ⟨rfl, rfl⟩
  | some ha => exact .inr ⟨_, _, rfl, rfl, ha⟩

theorem mono (h : T.Matches M R T') (hR : ∀ a a', R a a' → R' a a') : T.Matches M R' T' := by
  intro x x' hx
  obtain ⟨ha, ha'⟩ | ⟨a, a', ha, ha', hrel⟩ := h.get?_cases hx
  · rw [ha, ha']
    exact .none
  · rw [ha, ha']
    exact .some (hR a a' hrel)

/-- The tables may get anything for a definition that is not used. -/
theorem insert {x x' : Name} {a : α} {a' : β} (h : T.Matches M R T') (hx : M.Pairs x x')
    (ha : x ∉ M.unused → R a a') : (T.insert x a).Matches M R (T'.insert x' a') := by
  intro y y' hy
  rw [get?_insert, get?_insert]
  by_cases hxy : x = y
  · subst hxy
    rw [if_pos rfl, if_pos (hx.eq.symm.trans hy.eq)]
    exact .some (ha hy.not_mem)
  · have hxy' : x' ≠ y' := fun e => hxy (M.perm.injective (hx.eq.trans (e.trans hy.eq.symm)))
    rw [if_neg hxy, if_neg hxy']
    exact h y y' hy

end Table.Matches

/-- Two entries are of one sort, and what they hold is related. -/
inductive Entry.Rel {α β α' β' : Type} (R : α → α' → Prop) (Q : β → β' → Prop) :
    Entry α β → Entry α' β' → Prop
  | bound {a : α} {a' : α'} : R a a' → Rel R Q (.bound a) (.bound a')
  | defined {d : β} {d' : β'} : Q d d' → Rel R Q (.defined d) (.defined d')

/-- At the names that the programs may refer to, the contexts of both runs have types that
correspond, the same kinds, and definitions that correspond. -/
structure Context.Mirrors (M : Matching b) (ρ : Relabeling b) (Γ Γ' : Context) : Prop where
  exprs : Γ.exprs.Matches M (Entry.Rel ρ.Maps (Expr.Mirrors M)) Γ'.exprs
  types : Γ.types.Matches M (Entry.Rel Eq (TypeExpr.Mirrors M)) Γ'.types
  kinds : Γ.kinds.Matches M (KindExpr.Mirrors M) Γ'.kinds

namespace Context.Mirrors

variable {M : Matching b} {ρ σ : Relabeling b} {Γ Γ' : Context} {x x' : Name}

theorem empty (M : Matching b) (ρ : Relabeling b) : Mirrors M ρ {} {} :=
  ⟨.empty M _, .empty M _, .empty M _⟩

theorem mono (h : Γ.Mirrors M ρ Γ') (hle : ρ.Le σ) : Γ.Mirrors M σ Γ' := by
  refine ⟨h.exprs.mono fun a a' ha => ?_, h.types, h.kinds⟩
  cases ha with
  | bound ht => exact .bound (ht.mono hle)
  | defined he => exact .defined he

theorem bindExpr (h : Γ.Mirrors M ρ Γ') (hx : M.Pairs x x') {t t' : Ty} (ht : ρ.Maps t t') :
    (Γ.bindExpr x t).Mirrors M ρ (Γ'.bindExpr x' t') :=
  ⟨h.exprs.insert hx fun _ => .bound ht, h.types, h.kinds⟩

theorem bindType (h : Γ.Mirrors M ρ Γ') (hx : M.Pairs x x') (k : Kind) :
    (Γ.bindType x k).Mirrors M ρ (Γ'.bindType x' k) :=
  ⟨h.exprs, h.types.insert hx fun _ => .bound rfl, h.kinds⟩

theorem defineExpr (h : Γ.Mirrors M ρ Γ') (hx : M.Pairs x x') {v v' : Expr}
    (hv : x ∉ M.unused → v.Mirrors M v') : (Γ.defineExpr x v).Mirrors M ρ (Γ'.defineExpr x' v') :=
  ⟨h.exprs.insert hx fun hu => .defined (hv hu), h.types, h.kinds⟩

theorem defineType (h : Γ.Mirrors M ρ Γ') (hx : M.Pairs x x') {v v' : TypeExpr}
    (hv : x ∉ M.unused → v.Mirrors M v') : (Γ.defineType x v).Mirrors M ρ (Γ'.defineType x' v') :=
  ⟨h.exprs, h.types.insert hx fun hu => .defined (hv hu), h.kinds⟩

theorem defineKind (h : Γ.Mirrors M ρ Γ') (hx : M.Pairs x x') {v v' : KindExpr}
    (hv : x ∉ M.unused → v.Mirrors M v') : (Γ.defineKind x v).Mirrors M ρ (Γ'.defineKind x' v') :=
  ⟨h.exprs, h.types, h.kinds.insert hx hv⟩

end Context.Mirrors

/-- The counters of the two runs are those of the relabeling. -/
structure Checker.State.Mirrors (M : Matching b) (ρ : Relabeling b) (s s' : Checker.State) :
    Prop where
  le : M.toRelabeling.Le ρ
  left : s.supply = ρ.left
  right : s'.supply = ρ.right
  exprs : s.exprs.Matches M ρ.Maps s'.exprs
  types : s.types.Matches M ρ.Maps s'.types
  kinds : s.kinds.Matches M Eq s'.kinds

namespace Checker.State.Mirrors

variable {M : Matching b} {ρ σ : Relabeling b} {s s' : Checker.State}

/-- After steps that take fresh names. -/
theorem supply (h : s.Mirrors M ρ s') (hle : ρ.Le σ) :
    ({ s with supply := σ.left } : Checker.State).Mirrors M σ { s' with supply := σ.right } :=
  ⟨h.le.trans hle, rfl, rfl, h.exprs.mono fun _ _ ht => ht.mono hle,
    h.types.mono fun _ _ ht => ht.mono hle, h.kinds⟩

end Checker.State.Mirrors

/-! ## Names and types that correspond -/

section

variable {M : Matching b} {ρ : Relabeling b}

theorem Matching.Pairs.value_eq {x x' : Name} (h : M.Pairs x x') : x'.value = x.value :=
  h.eq ▸ M.value x

theorem Matching.Pairs.maps_var {x x' : Name} (hx : M.Pairs x x') (hle : M.toRelabeling.Le ρ)
    (k : Kind) : ρ.Maps (.var x k) (.var x' k) := by
  refine ⟨fun {y} hy => ?_, ?_⟩
  · rw [List.mem_singleton.1 hy]
    exact hle.covers hx.covers
  · rw [Ty.mapNames, hle.perm hx.covers, hx.eq]

/-- A binder of names that correspond. -/
theorem Relabeling.Maps.bind_var {x x' : Name} {t t' : Ty} {i : Kind}
    (hx : ρ.Maps (.var x i) (.var x' i)) (ht : ρ.Maps t t') (c : Binder) (j k : Kind) :
    ρ.Maps (.bind c x j t k) (.bind c x' j t' k) := by
  obtain ⟨rfl, -⟩ := Ty.var.inj hx.eq
  exact ht.bind (hx.covers List.mem_cons_self) c j k

theorem KindExpr.Mirrors.print_eq {k k' : KindExpr} (h : k.Mirrors M k') : k'.print = k.print := by
  induction h with
  | star => rfl
  | var hx => exact hx.value_eq
  | @arrow j j' k k' hj _ ihj ihk =>
    have harrow : j'.isArrow = j.isArrow := by cases hj <;> rfl
    rw [print, print, harrow, ihj, ihk]

/-- Types that mirror each other are printed alike. -/
theorem TypeExpr.Mirrors.print_eq {t t' : TypeExpr} (h : t.Mirrors M t') : t'.print = t.print := by
  induction h with
  | int => rfl
  | var hx => exact hx.value_eq
  | @arrow s s' t t' hs _ ihs iht =>
    have hopen : s'.isOpen = s.isOpen := by cases hs <;> rfl
    rw [print, print, hopen, ihs, iht]
  | @bind c x x' k k' t t' hx hk _ ih =>
    have hvalue : x'.value = x.value := hx.value_eq
    rw [print, print, hvalue, hk.print_eq, ih]
  | @app f f' a a' hf ha ihf iha =>
    have hhead : f'.isHead = f.isHead := by cases hf <;> rfl
    have hword : a'.isWord = a.isWord := by cases ha <;> rfl
    rw [print, print, hhead, hword, ihf, iha]
  | kinded _ hk ih => rw [print, print, hk.print_eq, ih]

/-- Surface types at the same place correspond. -/
theorem Expr.Mirrors.writes {e e' : Expr} {u u' : TypeExpr} (h : e.Mirrors M e') (hu : e.Writes u)
    (hu' : e'.Writes u') : u.Mirrors M u' := by
  cases h with
  | ann l _ h | lam l _ h _ | tapp l _ h =>
    cases hu
    cases hu'
    exact h
  | _ => cases hu

theorem Relabeling.Maps.kind_eq {t t' : Ty} (h : ρ.Maps t t') : t'.kind = t.kind := by
  rw [h.eq]
  cases t <;> rfl

theorem Relabeling.Maps.print_eq {t t' : Ty} (h : ρ.Maps t t') : t'.print = t.print := by
  rw [h.eq]
  exact Ty.print_mapNames ρ.value t

/-- Whether a type conforms to another depends on which names are equal. -/
theorem Relabeling.Maps.conform_iff {t t' u u' : Ty} (ht : ρ.Maps t t') (hu : ρ.Maps u u') :
    t'.conform u' = .ok () ↔ t.conform u = .ok () := by
  rw [Ty.conform_ok_iff, Ty.conform_ok_iff, ht.eq, hu.eq, Ty.nameless_mapNames ρ.perm.injective,
    Nameless.conforms_mapNames ρ.perm.injective]

end

/-! ## Steps of both runs -/

namespace Mirror

variable {M : Matching b} {ρ σ : Relabeling b} {Γ Γ' : Context} {s s' : Checker.State}
  {t t' u u' : Ty} {x x' : Ident} {o : Checker.Options} {n : Nat}

/-- A name that may be used is found in both contexts, with entries that correspond. -/
theorem found_pairs {α : Type} {R : α → α → Prop} {T T' : Table Name α} (h : T.Matches M R T')
    (hx : M.Used x.name x'.name) (s s' : Checker.State) :
    Pairs (Check.found (Context.find T x)) s (Check.found (Context.find T' x')) s'
      (fun a s₁ a' s₁' => R a a' ∧ s₁ = s ∧ s₁' = s') Failure.Alike := by
  unfold Context.find
  obtain ⟨ha, ha'⟩ | ⟨a, a', ha, ha', hrel⟩ := h.get?_cases hx
  · rw [ha, ha']
    have hname : x'.value = x.value := hx.value_eq
    refine .throw ⟨rfl, ?_⟩
    simp only [Undefined.failure, Failure.diagnostic, hname]
    rfl
  · rw [ha, ha']
    exact .pure ⟨hrel, rfl, rfl⟩

theorem ofKind_pairs (ht : ρ.Maps t t') (k : Kind) (s s' : Checker.State) :
    Pairs (Check.ofKind k t) s (Check.ofKind k t') s'
      (fun u s₁ u' s₁' => ρ.Maps u u' ∧ s₁ = s ∧ s₁' = s') Failure.Alike := by
  unfold Check.ofKind
  rw [ht.kind_eq]
  refine .bind (Check.agree_pairs t.kind k) fun _ s₁ _ s₁' h => ?_
  exact .pure ⟨ht, h.2⟩

/-- A type of a known kind is found, in both runs with the same relabeling. -/
theorem ofKind_then {α : Type} {m m' : Check Ty} {f f' : Ty → Check α}
    {R : α → Checker.State → α → Checker.State → Prop} (k : Kind)
    (h : Pairs m s m' s' (fun t s₁ t' s₁' => ρ.Maps t t' ∧ s₁.Mirrors M ρ s₁') Failure.Alike)
    (hf : ∀ t s₁ t' s₁', ρ.Maps t t' → s₁.Mirrors M ρ s₁' →
      Pairs (f t) s₁ (f' t') s₁' R Failure.Alike) :
    Pairs (m >>= fun t => Check.ofKind k t >>= f) s (m' >>= fun t => Check.ofKind k t >>= f') s' R
      Failure.Alike := by
  refine .bind h fun t s₁ t' s₁' h₁ => ?_
  refine .bind (ofKind_pairs h₁.1 k s₁ s₁') fun u s₂ u' s₂' h₂ => ?_
  obtain ⟨hu, rfl, rfl⟩ := h₂
  exact hf u s₂ u' s₂' hu h₁.2

theorem keepKind_mirrors (hs : s.Mirrors M ρ s') (hx : M.Used x.name x'.name) (k : Kind) :
    Pairs (Check.keepKind o x.name k) s (Check.keepKind o x'.name k) s'
      (fun _ s₁ _ s₁' => s₁.Mirrors M ρ s₁') Failure.Alike := by
  refine .ok rfl rfl ?_
  cases o.cache with
  | false => exact hs
  | true => exact { hs with kinds := hs.kinds.insert hx.toPairs fun _ => rfl }

theorem keepType_mirrors (hs : s.Mirrors M ρ s') (hx : M.Used x.name x'.name) (ht : ρ.Maps t t') :
    Pairs (Check.keepType o x.name t) s (Check.keepType o x'.name t') s'
      (fun _ s₁ _ s₁' => s₁.Mirrors M ρ s₁') Failure.Alike := by
  refine .ok rfl rfl ?_
  cases o.cache with
  | false => exact hs
  | true => exact { hs with types := hs.types.insert hx.toPairs fun _ => ht }

theorem keepExpr_mirrors (hs : s.Mirrors M ρ s') (hx : M.Used x.name x'.name) (ht : ρ.Maps t t') :
    Pairs (Check.keepExpr o x.name t) s (Check.keepExpr o x'.name t') s'
      (fun _ s₁ _ s₁' => s₁.Mirrors M ρ s₁') Failure.Alike := by
  refine .ok rfl rfl ?_
  cases o.cache with
  | false => exact hs
  | true => exact { hs with exprs := hs.exprs.insert hx.toPairs fun _ => ht }

/-! ### Elaboration -/

theorem elaborate_kind {k k' : KindExpr} (hΓ : Γ.Mirrors M ρ Γ') (hk : k.Mirrors M k')
    (hs : s.Mirrors M ρ s') :
    Pairs (k.elaborate o n Γ) s (k'.elaborate o n Γ') s'
      (fun j s₁ j' s₁' => j = j' ∧ s₁.Mirrors M ρ s₁') Failure.Alike := by
  induction n generalizing k k' s s' with
  | zero => exact .throw (.of_cause rfl)
  | succ n ih =>
    cases hk with
    | star => exact .pure ⟨rfl, hs⟩
    | arrow hj hk =>
      refine .bind (ih hj hs) fun j s₁ j' s₁' h₁ => ?_
      refine .bind (ih hk h₁.2) fun k s₂ k' s₂' h₂ => ?_
      exact .pure ⟨congrArg₂ Kind.arrow h₁.1 h₂.1, h₂.2⟩
    | @var x x' hx =>
      refine .bind (.of_ends .get .get) fun _ _ _ _ hget => ?_
      obtain ⟨⟨rfl, rfl⟩, rfl, rfl⟩ := hget
      obtain ⟨hj, hj'⟩ | ⟨j, j', hj, hj', rfl⟩ := hs.kinds.get?_cases hx
      · rw [hj, hj']
        refine .bind (found_pairs hΓ.kinds hx _ _) fun v _ v' _ h₁ => ?_
        obtain ⟨hv, rfl, rfl⟩ := h₁
        refine .bind (ih hv hs) fun j s₂ j' s₂' h₂ => ?_
        obtain ⟨rfl, hs₂⟩ := h₂
        exact .bind (keepKind_mirrors hs₂ hx j) fun _ _ _ _ hs₃ => .pure ⟨rfl, hs₃⟩
      · rw [hj, hj']
        exact .pure ⟨rfl, hs⟩

theorem notOperator_alike {a a' : TypeExpr} (ht : ρ.Maps t t') (ha : a.Mirrors M a') :
    Failure.Alike ⟨.notOperator t a, none⟩ ⟨.notOperator t' a', none⟩ := by
  refine ⟨rfl, ?_⟩
  simp only [Failure.diagnostic, ht.kind_eq, ht.print_eq, ha.print_eq]

/-- Elaboration takes no fresh names, so that the relabeling stays as it is. -/
theorem elaborate_type {v v' : TypeExpr} (hΓ : Γ.Mirrors M ρ Γ') (hv : v.Mirrors M v')
    (hs : s.Mirrors M ρ s') :
    Pairs (v.elaborate o n Γ) s (v'.elaborate o n Γ') s'
      (fun t s₁ t' s₁' => ρ.Maps t t' ∧ s₁.Mirrors M ρ s₁') Failure.Alike := by
  induction n generalizing v v' s s' Γ Γ' with
  | zero => exact .throw (.of_cause rfl)
  | succ n ih =>
    cases hv with
    | int => exact .pure ⟨.int ρ .star, hs⟩
    | @var x x' hx =>
      refine .bind (found_pairs hΓ.types hx _ _) fun d _ d' _ h₁ => ?_
      obtain ⟨hd, rfl, rfl⟩ := h₁
      cases hd with
      | bound hk =>
        subst hk
        exact .pure ⟨hx.maps_var hs.le _, hs⟩
      | defined hv =>
        refine .bind (.of_ends .get .get) fun _ _ _ _ hget => ?_
        obtain ⟨⟨rfl, rfl⟩, rfl, rfl⟩ := hget
        obtain ⟨ht, ht'⟩ | ⟨t, t', ht, ht', hmaps⟩ := hs.types.get?_cases hx
        -- neither table has the type yet
        · rw [ht, ht']
          refine .bind (ih hΓ hv hs) fun t s₂ t' s₂' h₂ => ?_
          exact .bind (keepType_mirrors h₂.2 hx h₂.1) fun _ _ _ _ hs₃ => .pure ⟨h₂.1, hs₃⟩
        -- both tables have it
        · rw [ht, ht']
          exact .pure ⟨hmaps, hs⟩
    | arrow hu hw =>
      refine ofKind_then .star (ih hΓ hu hs) fun t s₁ t' s₁' ht hs₁ => ?_
      refine ofKind_then .star (ih hΓ hw hs₁) fun u s₂ u' s₂' hu hs₂ => ?_
      exact .pure ⟨ht.arrow hu .star, hs₂⟩
    | @bind c x x' k k' v v' hx hk hv =>
      have hbind {t t' : Ty} {j l : Kind} {s s' : Checker.State} (ht : ρ.Maps t t')
          (hs : s.Mirrors M ρ s') : ρ.Maps (.bind c x.name j t l) (.bind c x'.name j t' l) :=
        (hx.maps_var hs.le j).bind_var ht c j l
      cases c with
      | all =>
        refine .bind (elaborate_kind hΓ hk hs) fun j s₁ j' s₁' h₁ => ?_
        obtain ⟨rfl, hs₁⟩ := h₁
        refine ofKind_then .star (ih (hΓ.bindType hx.toPairs j) hv hs₁) fun t s₂ t' s₂' ht hs₂ => ?_
        exact .pure ⟨hbind ht hs₂, hs₂⟩
      | lam =>
        refine .bind (elaborate_kind hΓ hk hs) fun j s₁ j' s₁' h₁ => ?_
        obtain ⟨rfl, hs₁⟩ := h₁
        refine .bind (ih (hΓ.bindType hx.toPairs j) hv hs₁) fun t s₂ t' s₂' h₂ => ?_
        rw [h₂.1.kind_eq]
        exact .pure ⟨hbind h₂.1 h₂.2, h₂.2⟩
    | app hf ha =>
      refine .bind (ih hΓ hf hs) fun f s₁ f' s₁' h₁ => ?_
      rw [h₁.1.kind_eq]
      cases f.kind with
      | star => exact .throw (notOperator_alike h₁.1 ha)
      | arrow j k =>
        refine ofKind_then j (ih hΓ ha h₁.2) fun a s₂ a' s₂' ha hs₂ => ?_
        exact .pure ⟨h₁.1.app ha k, hs₂⟩
    | kinded hu hk =>
      refine .bind (elaborate_kind hΓ hk hs) fun j s₁ j' s₁' h₁ => ?_
      obtain ⟨rfl, hs₁⟩ := h₁
      refine .bind (ih hΓ hu hs₁) fun t s₂ t' s₂' h₂ => ?_
      refine (ofKind_pairs h₂.1 j s₂ s₂').mono (fun _ _ _ _ h₃ => ?_) fun _ _ h => h
      obtain ⟨ht, rfl, rfl⟩ := h₃
      exact ⟨ht, h₂.2⟩

/-! ## The simulation -/

/-- Both runs are in contexts that correspond. -/
structure In (M : Matching b) (c : Context × Context) (ρ : Relabeling b) : Prop where
  contexts : c.1.Mirrors M ρ c.2
  le : M.toRelabeling.Le ρ

/-- After both runs have gone on, the relabeling has been extended by the names they have taken. -/
structure Ran (M : Matching b) (c : Context × Context) (ρ σ : Relabeling b) : Prop
    extends In M c σ where
  later : ρ.Le σ

/-- Both runs look at expressions that correspond. -/
structure Looks (M : Matching b) (c : Context × Context) (ρ : Relabeling b) (e e' : Expr)
    (n n' : Nat) : Prop extends In M c ρ where
  mirrors : e.Mirrors M e'
  bound : n' = n

/-- The runs for two programs that differ in the values of unused definitions. -/
def simulation (M : Matching b) : Checker.Simulation where
  Scope := Context × Context
  left := Prod.fst
  right := Prod.snd
  World := Relabeling b
  States ρ s s' := s.Mirrors M ρ s'
  In := In M
  Ran c _ := Ran M c
  Types ρ := ρ.Maps
  Written ρ := ρ.Maps
  At _ := Looks M

variable {c : Context × Context} {n' : Nat} {e e' : Expr}

theorem In.ran (h : In M c ρ) (hle : ρ.Le σ) : Ran M c ρ σ :=
  ⟨⟨h.contexts.mono hle, h.le.trans hle⟩, hle⟩

/-- Into the scope of a binder and out again. -/
theorem In.opens (h : In M c ρ) (hΓ : Γ.Mirrors M ρ Γ') (he : e.Mirrors M e')
    {xs : List Name} : (simulation M).Opens c xs ρ Γ Γ' e e' n n :=
  ⟨(Γ, Γ'), rfl, rfl, fun _ => ⟨⟨hΓ, h.le⟩, he, rfl⟩, fun _ h₁ => h.ran (Ran.later h₁)⟩

theorem normalize_follows (h : In M c ρ) (ht : ρ.Maps t t') :
    (simulation M).Follows ρ (Check.normalize o t) (Check.normalize o t')
      ((simulation M).Found c [] ρ) := by
  intro s s' hs
  have hs : s.Mirrors M ρ s' := hs
  have hsync : ρ.Syncs ⟨o.fuel, s.supply⟩ ⟨o.fuel, s'.supply⟩ := ⟨hs.left, hs.right, rfl⟩
  have hrun := Ty.normalizeFrom_relabel o.order o.depth hsync ht
  refine (Check.normalize_pairs rfl hrun).mono (fun u s₁ u' s₁' h₁ => ?_) fun _ _ h => h
  obtain ⟨k, k', rfl, rfl, σ, hle, hsync, hu⟩ := h₁
  rw [hsync.left, hsync.right]
  exact ⟨σ, hs.supply hle, h.ran hle, hu⟩

theorem subst_follows {a a' : Ty} {x x' : Name} {β : Binder} {k k' j j' : Kind} (h : In M c ρ)
    (ht : ρ.Maps (.bind β x k t j) (.bind β x' k' t' j')) (ha : ρ.Maps a a') :
    (simulation M).Follows ρ (Check.subst x a t) (Check.subst x' a' t')
      ((simulation M).Found c [] ρ) := by
  intro s s' hs
  have hs : s.Mirrors M ρ s' := hs
  obtain ⟨_, heq, hx, ht⟩ := ht.bind_inv
  obtain ⟨-, rfl, -, rfl, -⟩ := Ty.bind.inj heq
  obtain ⟨σ, hle, hl, hr, hm⟩ := Ty.subst_relabel ht ha hx
  rw [← hs.left, ← hs.right] at hm
  rw [← hs.left] at hl
  rw [← hs.right] at hr
  refine .ok rfl rfl ⟨σ, ?_, h.ran hle, hm⟩
  rw [hl, hr]
  exact hs.supply hle

/-- Steps that take no fresh names. -/
theorem In.follows {α : Type} {m m' : Check α} {P : α → α → Prop} (h : In M c ρ)
    (hrun : ∀ {s s'}, s.Mirrors M ρ s' →
      Pairs m s m' s' (fun a s₁ a' s₁' => P a a' ∧ s₁.Mirrors M ρ s₁') Failure.Alike) :
    (simulation M).Follows ρ m m' (fun σ a a' => (simulation M).Ran c [] ρ σ ∧ σ = ρ ∧ P a a') := by
  intro s s' hs
  refine (hrun hs).mono (fun a s₁ a' s₁' h₁ => ?_) fun _ _ h => h
  exact ⟨ρ, h₁.2, h.ran (.refl ρ), rfl, h₁.1⟩

/-- Steps that change neither the tables nor the counter. -/
theorem In.quiet {m m' : Check Unit} (h : In M c ρ)
    (hrun : ∀ {s s'}, s.Mirrors M ρ s' →
      Pairs m s m' s' (fun _ s₁ _ s₁' => s₁.Mirrors M ρ s₁') Failure.Alike) :
    (simulation M).Follows ρ m m' (fun σ _ _ => (simulation M).Ran c [] ρ σ) := by
  refine (h.follows (P := fun _ _ => True) fun hs => ?_).mono fun _ _ _ h₁ => h₁.1
  exact (hrun hs).mono (fun _ _ _ _ h₁ => ⟨trivial, h₁⟩) fun _ _ h => h

theorem type_follows {u u' : TypeExpr} (h : In M c ρ) (hu : u.Mirrors M u') (k : Kind) :
    (simulation M).Follows ρ (u.elaborate o n c.1 >>= Check.ofKind k)
      (u'.elaborate o n c.2 >>= Check.ofKind k)
      (fun σ t t' => (simulation M).Ran c [] ρ σ ∧ σ.Maps t t') := by
  refine (h.follows (P := ρ.Maps) fun hs => ?_).mono fun σ _ _ h₁ => ⟨h₁.1, h₁.2.1 ▸ h₁.2.2⟩
  refine .bind (elaborate_type h.contexts hu hs) fun t s₁ t' s₁' h₁ => ?_
  refine (ofKind_pairs h₁.1 k s₁ s₁').mono (fun _ _ _ _ h₂ => ?_) fun _ _ h => h
  obtain ⟨ht, rfl, rfl⟩ := h₂
  exact ⟨ht, h₁.2⟩

theorem enter_pairs (hs : s.Mirrors M ρ s') (e e' : Expr) :
    Pairs (Check.enter e) s (Check.enter e') s' (fun _ s₁ _ s₁' => s₁.Mirrors M ρ s₁')
      Failure.Alike :=
  .ok rfl rfl { hs with }

theorem note_pairs (hs : s.Mirrors M ρ s') (step step' : Unit → Trace.Step) :
    Pairs (Check.note step) s (Check.note step') s' (fun _ s₁ _ s₁' => s₁.Mirrors M ρ s₁')
      Failure.Alike := by
  refine .ok rfl rfl ?_
  show Checker.State.Mirrors M ρ (if s.trace.enabled then _ else _)
    (if s'.trace.enabled then _ else _)
  split <;> split <;> exact { hs with }

/-- A name: its type is in the context, in the table, or is that of its definition. -/
theorem var_follows {l l' : Option Location} (infer : (simulation M).Infers o o n)
    (h : In M c ρ) (hx : M.Used x.name x'.name) :
    (simulation M).Follows ρ ((Expr.var x l).inferRule (.within Ty.conform o n) c.1)
      ((Expr.var x' l').inferRule (.within Ty.conform o n) c.2)
      ((simulation M).Found c [] ρ) := by
  intro s s' hs
  have hs : s.Mirrors M ρ s' := hs
  refine .bind (found_pairs h.contexts.exprs hx s s') fun d _ d' _ h₁ => ?_
  obtain ⟨hd, rfl, rfl⟩ := h₁
  cases hd with
  | bound ht => exact .pure ⟨ρ, hs, h.ran (.refl ρ), ht⟩
  | defined hv =>
    refine .bind (.of_ends .get .get) fun _ _ _ _ hget => ?_
    obtain ⟨⟨rfl, rfl⟩, rfl, rfl⟩ := hget
    obtain ⟨ht, ht'⟩ | ⟨t, t', ht, ht', hmaps⟩ := hs.exprs.get?_cases hx
    · rw [ht, ht']
      have hlook : Looks M c ρ _ _ n n := ⟨h, hv, rfl⟩
      refine .bind (infer hlook _ _ hs) fun t s₂ t' s₂' h₂ => ?_
      obtain ⟨σ, hs₂, h₂⟩ := h₂
      refine .bind (keepExpr_mirrors hs₂ hx h₂.types) fun _ _ _ _ hs₃ => ?_
      exact .pure ⟨σ, hs₃, h.ran (Ran.later h₂.ran), h₂.types⟩
    · rw [ht, ht']
      exact .pure ⟨ρ, hs, h.ran (.refl ρ), hmaps⟩

/-! ## The laws -/

/-- Programs that mirror each other are checked side by side. -/
theorem lawful (M : Matching b) (o : Checker.Options) : (simulation M).Lawful o o where
  refl {_ ρ} h := In.ran h (.refl ρ)
  trans h h₁ _ _ := ⟨Ran.toIn h₁, (Ran.later h).trans (Ran.later h₁)⟩
  ran_in h := Ran.toIn h
  types_ran h ht := Relabeling.Maps.mono ht (Ran.later h)
  written_ran h ht := Relabeling.Maps.mono ht (Ran.later h)
  at_in h := Looks.toIn h
  at_ran h h₁ := ⟨Ran.toIn h₁, h.mirrors, h.bound⟩
  form h := by
    cases h.mirrors <;> constructor
  zero h := h.bound
  succ {_ _ _ _ _ n _} h := ⟨n, h.bound⟩
  inferred h := ⟨Looks.toIn h, h.mirrors, Nat.succ.inj h.bound⟩
  ann h := by
    cases h.mirrors with
    | ann l he hu => exact ⟨Looks.toIn h, he, Nat.succ.inj h.bound⟩
  first h hf hf' := by
    cases h.mirrors with
    | app l hm _ | tapp l hm _ =>
      cases hf
      cases hf'
      exact ⟨Looks.toIn h, hm, Nat.succ.inj h.bound⟩
    | _ => cases hf
  argument h h₁ := by
    cases h.mirrors with
    | app l _ hm => exact ⟨Ran.toIn h₁, hm, Nat.succ.inj h.bound⟩
  letIn h := by
    cases Nat.succ.inj h.bound
    cases h.mirrors with
    | letIn l hx hv he => exact In.opens (Looks.toIn h) (h.contexts.defineExpr hx hv) he
  typeIn h := by
    cases Nat.succ.inj h.bound
    cases h.mirrors with
    | typeIn l hx hv he => exact In.opens (Looks.toIn h) (h.contexts.defineType hx hv) he
  kindIn h := by
    cases Nat.succ.inj h.bound
    cases h.mirrors with
    | kindIn l hx hv he => exact In.opens (Looks.toIn h) (h.contexts.defineKind hx hv) he
  lam h ht := by
    cases Nat.succ.inj h.bound
    cases h.mirrors with
    | lam l hx hu he => exact In.opens (Looks.toIn h) (h.contexts.bindExpr hx.toPairs ht) he
  relabeled {ρ _ _} ht := ⟨ρ.perm, ρ.value, Relabeling.Maps.eq ht⟩
  conform_iff ht hu := Relabeling.Maps.conform_iff ht hu
  written _ ht := ht
  int {_ ρ} _ := .int ρ .star
  bound j h h₁ := by
    cases h.mirrors with
    | tlam l hx _ _ => exact hx.maps_var (In.le h₁) j
  arrow _ ht hu := Relabeling.Maps.arrow ht hu .star
  arrow_inv h := by
    obtain ⟨_, _, heq, ht, hu⟩ := Relabeling.Maps.arrow_inv h
    obtain ⟨rfl, rfl, -⟩ := Ty.arrow.inj heq
    exact ⟨ht, hu⟩
  all _ hx ht := Relabeling.Maps.bind_var hx ht .all _ .star
  enter e e' h := In.quiet h fun hs => enter_pairs hs e e'
  note step step' h := In.quiet h fun hs => note_pairs hs step step'
  normalize h ht := normalize_follows h ht
  subst h ht ha := subst_follows h ht ha
  type k h hu hu' h₁ := by
    cases Nat.succ.inj h.bound
    exact type_follows h₁ (h.mirrors.writes hu hu') k
  kind h := by
    cases Nat.succ.inj h.bound
    cases h.mirrors with
    | tlam l hx hk he =>
      refine (In.follows (P := Eq) (Looks.toIn h) fun hs => elaborate_kind h.contexts hk hs).mono ?_
      rintro _ j _ ⟨h₁, rfl, rfl⟩
      refine ⟨h₁, rfl, fun σ h₂ => ?_⟩
      exact In.opens (Ran.toIn h₂) ((Ran.toIn h₂).contexts.bindType hx.toPairs j) he
  var infer h := by
    cases Nat.succ.inj h.bound
    cases h.mirrors with
    | var l hx => exact var_follows infer (Looks.toIn h) hx

end Mirror

/-! ## Whole programs -/

theorem Expr.Mirrors.inferNormal_pairs {M : Matching b} {r r' : Expr} (h : r.Mirrors M r')
    {place place' : Name → Telescope} (hr : r.Placed place []) (hr' : r'.Placed place' [])
    (o : Checker.Options) (tr tr' : Trace) :
    Pairs (r.inferNormal Ty.conform o) { supply := M.left, trace := tr }
      (r'.inferNormal Ty.conform o) { supply := M.right, trace := tr' }
      (fun t _ t' _ => ∃ ρ : Relabeling b, ρ.Maps t t') Failure.Alike := by
  -- one bound is large enough for both programs
  rw [inferNormal_eq hr (Nat.le_max_left (2 * r.size) (2 * r'.size)),
    inferNormal_eq hr' (Nat.le_max_right (2 * r.size) (2 * r'.size))]
  have hstart : Checker.State.Mirrors M M.toRelabeling { supply := M.left, trace := tr }
      { supply := M.right, trace := tr' } :=
    ⟨.refl _, rfl, rfl, .empty M _, .empty M _, .empty M _⟩
  have hlook (n : Nat) : Mirror.Looks M ({}, {}) M.toRelabeling r r' n n :=
    ⟨⟨.empty M _, .refl _⟩, h, rfl⟩
  refine ((Mirror.lawful M o).inferNormal (hlook _) _ _ hstart).mono (fun _ _ _ _ h₁ => ?_)
    fun _ _ h => h
  obtain ⟨ρ, -, h₁⟩ := h₁
  exact ⟨ρ, h₁.types⟩

/-- The values of unused definitions do not change what the checker gives for a program, or why it
rejects it, as long as all names in it have binders. -/
theorem Expr.typeOf_unused_irrelevant {e e' r r' : Expr} {c c' : Int} (h : e.Redefines e')
    (hr : e.rename {} 1 = .ok r c) (hr' : e'.rename {} 1 = .ok r' c') (o : Checker.Options)
    (tr tr' : Trace) : Checker.SameOutcome (e.typeOf o tr).1 (e'.typeOf o tr').1 := by
  obtain ⟨M, rfl, rfl, hM⟩ := h.mirrors hr hr'
  obtain ⟨place, hplace⟩ := exists_placed hr
  obtain ⟨place', hplace'⟩ := exists_placed hr'
  refine .of_pairs hr hr' ((hM.inferNormal_pairs hplace hplace' o tr tr').with_left.mono
    (fun t s t' s' h₁ => ?_) fun _ _ h => h)
  obtain ⟨hrun, ρ, ht⟩ := h₁
  have hclosed (x : Name) (hx : x ∈ t.freeVars) : x.id < 1 := by
    obtain ⟨k, hk⟩ := (inferNormal_proper hplace hrun).1.exists_kind hx
    cases hk
  have htwin := Ty.Twin.of_maps ht hclosed
  exact ⟨htwin.alphaEq, htwin.print_eq.symm⟩

/-- An alias outside of a binder and a `let` inside of another one, with values that have no kind
and no type. -/
theorem Expr.typeOf_unused_irrelevant_nested :
    let T : Ident := { name := ⟨"T", 0⟩ }
    let A : Ident := { name := ⟨"A", 0⟩ }
    let f : Ident := { name := ⟨"f", 0⟩ }
    let x : Ident := { name := ⟨"x", 0⟩ }
    let y : Ident := { name := ⟨"y", 0⟩ }
    let program (t : TypeExpr) (v : Expr) : Expr :=
      typeIn T t (tlam A .star (letIn f
        (ann (letIn y v (lam x (.var A) (var x none) none) none) (.arrow (.var A) (.var A)) none)
        (var f none) none) none) none
    let e := program .int (lit 5 none)
    let e' := program (.bind .all A .star (.app (.var A) (.var A)))
      (app (lit 5 none) (lit 6 none) none)
    e.Redefines e' ∧ (∃ r c, e.rename {} 1 = .ok r c) ∧ (∃ r c, e'.rename {} 1 = .ok r c) ∧
      Checker.SameOutcome (e.typeOf {}).1 (e'.typeOf {}).1 := by
  intro T A f x y program e e'
  have h : e.Redefines e' :=
    .typeIn T none (fun h => absurd h (by decide)) (.tlam A .star none (.letIn f none
      (fun _ => .ann _ none (.letIn y none (fun h => absurd h (by decide)) (.refl _))) (.refl _)))
  have hok {e : Expr} (h : ((e.rename {}).run' 1).isSome) : ∃ r c, e.rename {} 1 = .ok r c := by
    obtain ⟨r, hr⟩ := Option.isSome_iff_exists.1 h
    exact ⟨r, run'_eq_some.1 hr⟩
  obtain ⟨r, c, hr⟩ : ∃ r c, e.rename {} 1 = .ok r c := hok (by decide +kernel)
  obtain ⟨r', c', hr'⟩ : ∃ r c, e'.rename {} 1 = .ok r c := hok (by decide +kernel)
  exact ⟨h, ⟨r, c, hr⟩, ⟨r', c', hr'⟩, typeOf_unused_irrelevant h hr hr' {} {} {}⟩

end SystemFOmega
