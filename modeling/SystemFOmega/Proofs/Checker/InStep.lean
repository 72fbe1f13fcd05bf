import SystemFOmega.Checker.Typing
import SystemFOmega.Proofs.Checker.Core
import SystemFOmega.Proofs.Core.Twin
import SystemFOmega.Proofs.Surface.Binders

/-!
# A checker that keeps types beside one that does not

Two checkers go through a program side by side: the first keeps the types of names that a `let` has
defined, the second infers them at every use. They are in step at a place (`Memo.InStep`) if what
the first has in its table, the second is known to find, up to the numbers of fresh names, in
whatever context and from whatever counter (`Memo.Confirms`).

When the first checker puts a type into its table, it has just found it by a run that the second
went along with (`Memo.After.keep`). For that the table must have nothing of the names that are
defined inside the definition; so the invariant also says that where the table has no type for a
definition, it has none for any name inside of it.
-/

namespace SystemFOmega

open Run

/-! ## Definitions in a telescope -/

/-- The names that `let` has defined in a telescope, and inside the values of these. -/
def Telescope.lets : Telescope → List Name
  | [] => []
  | .exprDef x v :: S => v.lets ++ x :: lets S
  | _ :: S => lets S

theorem Telescope.lets_suffix {S S' : Telescope} (h : S' <:+ S) : S'.lets <:+ S.lets := by
  induction S with
  | nil =>
    obtain rfl := List.suffix_nil.1 h
    exact List.suffix_rfl
  | cons d S ih =>
    rcases List.suffix_cons_iff.1 h with rfl | h
    · exact List.suffix_rfl
    · refine (ih h).trans ?_
      cases d with
      | exprDef x v => exact (List.suffix_cons x _).trans (List.suffix_append _ _)
      | _ => exact List.suffix_rfl

/-- In a telescope whose lets have different names, those of a definition are none of those before
it. -/
theorem Telescope.not_mem_lets {S T : Telescope} {y z : Name} {w : Expr} (h : S.lets.Nodup)
    (hT : .exprDef y w :: T <:+ S) (hz : z ∈ w.lets ∨ z = y) : z ∉ T.lets := by
  have hnodup : (w.lets ++ y :: T.lets).Nodup := h.sublist (lets_suffix hT).sublist
  obtain ⟨-, hy, hne⟩ := List.nodup_append.1 hnodup
  rcases hz with hz | rfl
  · exact fun hmem => hne z hz z (.tail _ hmem) rfl
  · exact (List.nodup_cons.1 hy).1

/-- Two definitions of a telescope are the same, or one of them comes before the other. -/
theorem Telescope.exprDef_cases {S T T' : Telescope} {x y : Name} {v w : Expr}
    (hT : .exprDef y w :: T <:+ S) (hT' : .exprDef x v :: T' <:+ S) :
    (y = x ∧ w = v ∧ T = T') ∨ .exprDef y w :: T <:+ T' ∨ .exprDef x v :: T' <:+ T := by
  have heq {x y : Name} {v w : Expr} {T T' : Telescope}
      (h : Decl.exprDef y w :: T = .exprDef x v :: T') : y = x ∧ w = v ∧ T = T' := by
    obtain ⟨hd, rfl⟩ := List.cons.inj h
    obtain ⟨rfl, rfl⟩ := Decl.exprDef.inj hd
    exact ⟨rfl, rfl, rfl⟩
  rcases List.suffix_or_suffix_of_suffix hT hT' with h | h
  · rcases List.suffix_cons_iff.1 h with h | h
    · exact .inl (heq h)
    · exact .inr (.inl h)
  · rcases List.suffix_cons_iff.1 h with h | h
    · exact .inl (heq h.symm)
    · exact .inr (.inr h)

/-! ## Steps without a new type -/

/-- The state `s₁` comes from `s` by steps that put no type of an expression into the table. -/
structure Checker.State.Grows (place : Name → Telescope) (s s₁ : Checker.State) : Prop where
  keeps : s₁.Keeps place
  exprs_eq : s₁.exprs = s.exprs
  le : s.supply ≤ s₁.supply

theorem Checker.State.Extends.grows {place : Name → Telescope} {s s₁ : Checker.State}
    (h : s.Extends place s₁) : s.Grows place s₁ :=
  ⟨h.keeps, h.exprs_eq, Int.le_of_eq h.supply_eq.symm⟩

theorem Check.enter_grows {place : Name → Telescope} {s : Checker.State} (hs : s.Keeps place)
    (e : Expr) : Ends (Check.enter e) s (fun _ s₁ => s.Grows place s₁) False :=
  ⟨⟨hs.kinds, hs.types⟩, rfl, Int.le_refl _⟩

theorem Check.note_grows {place : Name → Telescope} {s : Checker.State} (hs : s.Keeps place)
    (step : Unit → Trace.Step) : Ends (Check.note step) s (fun _ s₁ => s.Grows place s₁) False := by
  show Checker.State.Grows place s (if s.trace.enabled then _ else _)
  split
  · exact ⟨⟨hs.kinds, hs.types⟩, rfl, Int.le_refl _⟩
  · exact ⟨hs, rfl, Int.le_refl _⟩

/-! ## The state of the two checkers -/

namespace Memo

section

variable (place : Name → Telescope) (b : Int) (o : Checker.Options)

/-- The second checker, which keeps no types of expressions, is at the place `S`, where the first
has the context `Γ`. -/
structure Partner (S : Telescope) (Γ Γ' : Context) (s' : Checker.State) : Prop where
  covers : Γ'.Covers S
  keeps : s'.Keeps place
  le : b ≤ s'.supply
  blank (x : Name) : s'.exprs.get? x = none
  twin {x : Name} {u : TypeExpr} {S' : Telescope} {t : Ty} : .exprVar x u :: S' <:+ S →
    Γ.exprs.get? x = some (.bound t) →
      ∃ t', Γ'.exprs.get? x = some (.bound t') ∧ t.Twin b t' ∧ t'.Below s'.supply

/-- Wherever it is at the place `S`, the second checker finds a twin of `t` for `v`. -/
def Confirms (S : Telescope) (Γ : Context) (v : Expr) (t : Ty) : Prop :=
  ∀ {Γ' : Context} {s' : Checker.State} {n : Nat}, Partner place b S Γ Γ' s' →
    2 * (v.size + S.weight) ≤ n →
    Ends (v.inferBy Ty.conform { o with cache := false } n Γ') s'
      (fun t' s₁' => t.Twin b t' ∧ t'.Below s₁'.supply ∧ Partner place b S Γ Γ' s₁' ∧
        s'.supply ≤ s₁'.supply) False

/-- The first checker is at the place `S`. What its table has is confirmed, and where it has no
type for a definition, it has none for any name inside of it. -/
structure Ready (S : Telescope) (Γ : Context) (s : Checker.State) : Prop where
  covers : Γ.Covers S
  keeps : s.Keeps place
  le : b ≤ s.supply
  below {x : Name} {u : TypeExpr} {S' : Telescope} {t : Ty} : .exprVar x u :: S' <:+ S →
    Γ.exprs.get? x = some (.bound t) → t.Below s.supply
  cached {x : Name} {v : Expr} {S' : Telescope} {t : Ty} : .exprDef x v :: S' <:+ S →
    s.exprs.get? x = some t → t.Below s.supply ∧ Confirms place b o S' Γ v t
  uncached {x : Name} {v : Expr} {S' : Telescope} : .exprDef x v :: S' <:+ S →
    s.exprs.get? x = none → ∀ y ∈ v.lets, s.exprs.get? y = none

/-- Both checkers are at the place `S`. -/
structure InStep (S : Telescope) (Γ Γ' : Context) (s s' : Checker.State) : Prop where
  ready : Ready place b o S Γ s
  partner : Partner place b S Γ Γ' s'

/-- After a run of both checkers they are at the place `S` again, and of the names outside of `xs`
and of the telescope the table of the first says what it did before. -/
structure After (S : Telescope) (Γ Γ' : Context) (xs : List Name) (s s' s₁ s₁' : Checker.State) :
    Prop extends InStep place b o S Γ Γ' s₁ s₁' where
  left : s.supply ≤ s₁.supply
  right : s'.supply ≤ s₁'.supply
  frame {y : Name} : y ∉ xs → y ∉ S.lets → s₁.exprs.get? y = s.exprs.get? y

/-- The names that `let` defines in an expression and in the telescope differ, and the table has
nothing of those in the expression. -/
structure Fresh (S : Telescope) (e : Expr) (s : Checker.State) : Prop where
  nodup : (e.lets ++ S.lets).Nodup
  uncached : ∀ y ∈ e.lets, s.exprs.get? y = none

end

section

variable {place : Name → Telescope} {b : Int} {o : Checker.Options} {S S' S₁ : Telescope}
  {Γ Γ' Γ₁ Γ₁' : Context} {s s' s₁ s₁' s₂ s₂' : Checker.State} {xs ys zs : List Name} {d : Decl}
  {x : Name}

/-! ### Moving about -/

namespace Partner

theorem suffix (h : Partner place b S Γ Γ' s') (hS : S' <:+ S) : Partner place b S' Γ Γ' s' :=
  ⟨h.covers.suffix hS, h.keeps, h.le, h.blank, fun hx => h.twin (hx.trans hS)⟩

/-- Back at a place, in a state that the checker has reached elsewhere. -/
theorem later (h : Partner place b S Γ Γ' s') (h₁ : Partner place b S₁ Γ₁ Γ₁' s₁')
    (hle : s'.supply ≤ s₁'.supply) : Partner place b S Γ Γ' s₁' := by
  refine ⟨h.covers, h₁.keeps, h₁.le, h₁.blank, fun hx ht => ?_⟩
  obtain ⟨t', ht', htwin, hbelow⟩ := h.twin hx ht
  exact ⟨t', ht', htwin, hbelow.mono hle⟩

theorem step (h : Partner place b S Γ Γ' s') (hs : s'.Grows place s₁') :
    Partner place b S Γ Γ' s₁' := by
  refine ⟨h.covers, hs.keeps, Int.le_trans h.le hs.le, fun x => ?_, fun hx ht => ?_⟩
  · rw [hs.exprs_eq]
    exact h.blank x
  · obtain ⟨t', ht', htwin, hbelow⟩ := h.twin hx ht
    exact ⟨t', ht', htwin, hbelow.mono hs.le⟩

/-- Only the types of the values in scope play a part in the context of the first checker. -/
theorem congr (h : Partner place b S Γ Γ' s')
    (he : ∀ x ∈ S.names, Γ₁.exprs.get? x = Γ.exprs.get? x) : Partner place b S Γ₁ Γ' s' := by
  refine ⟨h.covers, h.keeps, h.le, h.blank, fun {x u T t} hx ht => h.twin hx ?_⟩
  rwa [← he x (List.mem_map_of_mem (hx.subset List.mem_cons_self))]

/-- Into the scope of a declaration. -/
theorem enter (h : Partner place b S Γ Γ' s') (hΓ : Γ₁'.Covers (d :: S))
    (he : ∀ x ∈ S.names, Γ₁.exprs.get? x = Γ.exprs.get? x)
    (he' : ∀ x ∈ S.names, Γ₁'.exprs.get? x = Γ'.exprs.get? x)
    (hd : ∀ x u t, d = .exprVar x u → Γ₁.exprs.get? x = some (.bound t) →
      ∃ t', Γ₁'.exprs.get? x = some (.bound t') ∧ t.Twin b t' ∧ t'.Below s'.supply) :
    Partner place b (d :: S) Γ₁ Γ₁' s' := by
  refine ⟨hΓ, h.keeps, h.le, h.blank, fun {x u T t} hx ht => ?_⟩
  rcases List.suffix_cons_iff.1 hx with heq | hx
  · exact hd x u t (List.cons.inj heq).1.symm ht
  · have hmem : x ∈ S.names := List.mem_map_of_mem (hx.subset List.mem_cons_self)
    rw [he x hmem] at ht
    rw [he' x hmem]
    exact h.twin hx ht

end Partner

theorem Confirms.congr {v : Expr} {t : Ty} (h : Confirms place b o S Γ v t)
    (he : ∀ x ∈ S.names, Γ₁.exprs.get? x = Γ.exprs.get? x) : Confirms place b o S Γ₁ v t := by
  intro Γ' s' n hp hn
  refine (h (hp.congr fun x hx => (he x hx).symm) hn).mono (fun t' s₁' ht => ?_) id
  exact ⟨ht.1, ht.2.1, ht.2.2.1.congr he, ht.2.2.2⟩

namespace Ready

theorem suffix (h : Ready place b o S Γ s) (hS : S' <:+ S) : Ready place b o S' Γ s where
  covers := h.covers.suffix hS
  keeps := h.keeps
  le := h.le
  below hx := h.below (hx.trans hS)
  cached hx := h.cached (hx.trans hS)
  uncached hx := h.uncached (hx.trans hS)

theorem step (h : Ready place b o S Γ s) (hs : s.Grows place s₁) : Ready place b o S Γ s₁ where
  covers := h.covers
  keeps := hs.keeps
  le := Int.le_trans h.le hs.le
  below hx ht := (h.below hx ht).mono hs.le
  cached hx ht := by
    obtain ⟨hbelow, hconf⟩ := h.cached hx (hs.exprs_eq ▸ ht)
    exact ⟨hbelow.mono hs.le, hconf⟩
  uncached hx hnone y hy := by
    rw [hs.exprs_eq] at hnone ⊢
    exact h.uncached hx hnone y hy

/-- Into the scope of a declaration. -/
theorem enter (h : Ready place b o S Γ s) (hΓ : Γ₁.Covers (d :: S))
    (he : ∀ x ∈ S.names, Γ₁.exprs.get? x = Γ.exprs.get? x)
    (hvar : ∀ x u t, d = .exprVar x u → Γ₁.exprs.get? x = some (.bound t) → t.Below s.supply)
    (hdef : ∀ x v, d = .exprDef x v →
      s.exprs.get? x = none ∧ ∀ y ∈ v.lets, s.exprs.get? y = none) :
    Ready place b o (d :: S) Γ₁ s := by
  have hname {x : Name} {d' : Decl} {T : Telescope} (hd : d'.name = x) (hT : d' :: T <:+ S) :
      x ∈ S.names := hd ▸ List.mem_map_of_mem (hT.subset List.mem_cons_self)
  refine ⟨hΓ, h.keeps, h.le, fun {x u T t} hx ht => ?_, fun {x v T t} hx ht => ?_,
    fun {x v T} hx hnone => ?_⟩
  · rcases List.suffix_cons_iff.1 hx with heq | hx
    · exact hvar x u t (List.cons.inj heq).1.symm ht
    · rw [he x (hname rfl hx)] at ht
      exact h.below hx ht
  · rcases List.suffix_cons_iff.1 hx with heq | hx
    · rw [(hdef x v (List.cons.inj heq).1.symm).1] at ht
      cases ht
    · obtain ⟨hbelow, hconf⟩ := h.cached hx ht
      refine ⟨hbelow, hconf.congr fun y hy => he y ?_⟩
      exact (((List.suffix_cons _ _).trans hx).map Decl.name).subset hy
  · rcases List.suffix_cons_iff.1 hx with heq | hx
    · exact (hdef x v (List.cons.inj heq).1.symm).2
    · exact h.uncached hx hnone

/-- Out of a scope. -/
theorem leave (h : Ready place b o S Γ s) (h₁ : Ready place b o S₁ Γ₁ s₁) (hS : S <:+ S₁)
    (he : ∀ x ∈ S.names, Γ₁.exprs.get? x = Γ.exprs.get? x) (hle : s.supply ≤ s₁.supply) :
    Ready place b o S Γ s₁ where
  covers := h.covers
  keeps := h₁.keeps
  le := h₁.le
  below hx ht := (h.below hx ht).mono hle
  cached {x v T t} hx ht := by
    obtain ⟨hbelow, hconf⟩ := h₁.cached (hx.trans hS) ht
    refine ⟨hbelow, hconf.congr fun y hy => (he y ?_).symm⟩
    exact (((List.suffix_cons _ _).trans hx).map Decl.name).subset hy
  uncached hx := h₁.uncached (hx.trans hS)

/-- The type of a definition is put into the table, after a run at the place of the definition. -/
theorem keep {x : Name} {v : Expr} {t : Ty} (h : Ready place b o S Γ s)
    (hsuf : .exprDef x v :: S' <:+ S) (hnodup : S.lets.Nodup)
    (h₁ : After place b o S' Γ Γ' v.lets s s' s₁ s₁') (ht : t.Below s₁.supply)
    (hconf : Confirms place b o S' Γ v t) :
    Ready place b o S Γ { s₁ with exprs := s₁.exprs.insert x t } := by
  have hget {y : Name} (hy : x ≠ y) : (s₁.exprs.insert x t).get? y = s₁.exprs.get? y := by
    simp [hy]
  have hx : x ∉ S'.lets := Telescope.not_mem_lets hnodup hsuf (.inr rfl)
  -- names of the telescope at the definition keep what the run has found for them
  have hinner {y : Name} (hy : y ∈ S'.lets) :
      (s₁.exprs.insert x t).get? y = s₁.exprs.get? y := hget fun e => hx (e ▸ hy)
  -- names of later definitions keep what the table had for them before
  have houter {y z : Name} {w : Expr} {T : Telescope} (hT : .exprDef y w :: T <:+ S)
      (hxT : .exprDef x v :: S' <:+ T) (hz : z ∈ w.lets ∨ z = y) :
      (s₁.exprs.insert x t).get? z = s.exprs.get? z := by
    have hzT := Telescope.not_mem_lets hnodup hT hz
    have hzx : z ∉ v.lets ++ x :: S'.lets := fun h => hzT ((Telescope.lets_suffix hxT).subset h)
    simp only [List.mem_append, List.mem_cons, not_or] at hzx
    rw [hget fun e => hzx.2.1 e.symm]
    exact h₁.frame hzx.1 hzx.2.2
  have hlets {y z : Name} {w : Expr} {T : Telescope} (hT : .exprDef y w :: T <:+ S')
      (hz : z ∈ w.lets ∨ z = y) : z ∈ S'.lets := by
    refine (Telescope.lets_suffix hT).subset ?_
    simp only [Telescope.lets, List.mem_append, List.mem_cons]
    exact hz.imp_right .inl
  refine ⟨h.covers, ⟨h₁.ready.keeps.kinds, h₁.ready.keeps.types⟩, h₁.ready.le,
    fun hy ht => (h.below hy ht).mono h₁.left, fun {y w T u} hT hu => ?_,
    fun {y w T} hT hnone z hz => ?_⟩
  · rcases Telescope.exprDef_cases hT hsuf with ⟨rfl, rfl, rfl⟩ | hT' | hT'
    · obtain rfl := Option.some.inj ((Table.get?_insert_self _ _ _).symm.trans hu)
      exact ⟨ht, hconf⟩
    · exact h₁.ready.cached hT' ((hinner (hlets hT' (.inr rfl))).symm.trans hu)
    · obtain ⟨hbelow, hold⟩ := h.cached hT ((houter hT hT' (.inr rfl)).symm.trans hu)
      exact ⟨hbelow.mono h₁.left, hold⟩
  · rcases Telescope.exprDef_cases hT hsuf with ⟨rfl, rfl, rfl⟩ | hT' | hT'
    · cases (Table.get?_insert_self _ _ _).symm.trans hnone
    · exact (hinner (hlets hT' (.inl hz))).trans
        (h₁.ready.uncached hT' ((hinner (hlets hT' (.inr rfl))).symm.trans hnone) z hz)
    · exact (houter hT hT' (.inl hz)).trans
        (h.uncached hT ((houter hT hT' (.inr rfl)).symm.trans hnone) z hz)

end Ready

namespace InStep

/-- Into the scope of a declaration. -/
theorem enter (h : InStep place b o S Γ Γ' s s') (hΓ : Γ₁.Covers (d :: S))
    (hΓ' : Γ₁'.Covers (d :: S)) (he : ∀ x ∈ S.names, Γ₁.exprs.get? x = Γ.exprs.get? x)
    (he' : ∀ x ∈ S.names, Γ₁'.exprs.get? x = Γ'.exprs.get? x)
    (hvar : ∀ x u t, d = .exprVar x u → Γ₁.exprs.get? x = some (.bound t) →
      ∃ t', Γ₁'.exprs.get? x = some (.bound t') ∧ Ty.TwinAt b s.supply s'.supply t t')
    (hdef : ∀ x v, d = .exprDef x v →
      s.exprs.get? x = none ∧ ∀ y ∈ v.lets, s.exprs.get? y = none) :
    InStep place b o (d :: S) Γ₁ Γ₁' s s' := by
  refine ⟨h.ready.enter hΓ he (fun x u t hd ht => ?_) hdef,
    h.partner.enter hΓ' he he' fun x u t hd ht => ?_⟩
  · obtain ⟨t', -, htwin⟩ := hvar x u t hd ht
    exact htwin.below
  · obtain ⟨t', ht', htwin⟩ := hvar x u t hd ht
    exact ⟨t', ht', htwin.twin, htwin.below'⟩

theorem bindType (h : InStep place b o S Γ Γ' s s') (hx : x ∉ S.names) (k : KindExpr) :
    InStep place b o (.typeVar x k :: S) (Γ.bindType x (k.expand S.env))
      (Γ'.bindType x (k.expand S.env)) s s' :=
  h.enter (h.ready.covers.bindType hx k) (h.partner.covers.bindType hx k) (fun _ _ => rfl)
    (fun _ _ => rfl) (fun _ _ _ hd => nomatch hd) (fun _ _ hd => nomatch hd)

theorem defineType (h : InStep place b o S Γ Γ' s s') (hx : x ∉ S.names) (u : TypeExpr) :
    InStep place b o (.typeDef x u :: S) (Γ.defineType x u) (Γ'.defineType x u) s s' :=
  h.enter (h.ready.covers.defineType hx u) (h.partner.covers.defineType hx u) (fun _ _ => rfl)
    (fun _ _ => rfl) (fun _ _ _ hd => nomatch hd) (fun _ _ hd => nomatch hd)

theorem defineKind (h : InStep place b o S Γ Γ' s s') (hx : x ∉ S.names) (k : KindExpr) :
    InStep place b o (.kindDef x k :: S) (Γ.defineKind x k) (Γ'.defineKind x k) s s' :=
  h.enter (h.ready.covers.defineKind hx k) (h.partner.covers.defineKind hx k) (fun _ _ => rfl)
    (fun _ _ => rfl) (fun _ _ _ hd => nomatch hd) (fun _ _ hd => nomatch hd)

theorem bindExpr (h : InStep place b o S Γ Γ' s s') (hx : x ∉ S.names) (u : TypeExpr) {t t' : Ty}
    (ht : Ty.TwinAt b s.supply s'.supply t t') :
    InStep place b o (.exprVar x u :: S) (Γ.bindExpr x t) (Γ'.bindExpr x t') s s' := by
  refine h.enter (h.ready.covers.bindExpr hx u t) (h.partner.covers.bindExpr hx u t')
    (Table.get?_insert_of_not_mem hx) (Table.get?_insert_of_not_mem hx) (fun y v w hd hw => ?_)
    fun _ _ hd => nomatch hd
  obtain ⟨rfl, rfl⟩ := Decl.exprVar.inj hd
  obtain rfl := Entry.bound.inj (Option.some.inj ((Table.get?_insert_self _ _ _).symm.trans hw))
  exact ⟨t', Table.get?_insert_self _ _ _, ht⟩

theorem defineExpr (h : InStep place b o S Γ Γ' s s') (hx : x ∉ S.names) {v : Expr}
    (hv : s.exprs.get? x = none ∧ ∀ y ∈ v.lets, s.exprs.get? y = none) :
    InStep place b o (.exprDef x v :: S) (Γ.defineExpr x v) (Γ'.defineExpr x v) s s' := by
  refine h.enter (h.ready.covers.defineExpr hx v) (h.partner.covers.defineExpr hx v)
    (Table.get?_insert_of_not_mem hx) (Table.get?_insert_of_not_mem hx) (fun _ _ _ hd => nomatch hd)
    fun y w hd => ?_
  obtain ⟨rfl, rfl⟩ := Decl.exprDef.inj hd
  exact hv

end InStep

/-! ### What a run changes -/

namespace After

theorem refl (h : InStep place b o S Γ Γ' s s') : After place b o S Γ Γ' [] s s' s s' :=
  ⟨h, Int.le_refl _, Int.le_refl _, fun _ _ => rfl⟩

theorem step (h : After place b o S Γ Γ' xs s s' s₁ s₁') (hs : s₁.Grows place s₂)
    (hs' : s₁'.Grows place s₂') : After place b o S Γ Γ' xs s s' s₂ s₂' := by
  refine ⟨⟨h.ready.step hs, h.partner.step hs'⟩, Int.le_trans h.left hs.le,
    Int.le_trans h.right hs'.le, fun hy hyS => ?_⟩
  rw [hs.exprs_eq]
  exact h.frame hy hyS

theorem trans (h : After place b o S Γ Γ' xs s s' s₁ s₁')
    (h₁ : After place b o S Γ Γ' ys s₁ s₁' s₂ s₂') (hx : xs ⊆ zs) (hy : ys ⊆ zs) :
    After place b o S Γ Γ' zs s s' s₂ s₂' := by
  refine ⟨h₁.toInStep, Int.le_trans h.left h₁.left, Int.le_trans h.right h₁.right,
    fun hz hzS => ?_⟩
  exact (h₁.frame (fun hmem => hz (hy hmem)) hzS).trans (h.frame (fun hmem => hz (hx hmem)) hzS)

/-- Out of the scope of a declaration. -/
theorem leave (h : InStep place b o S Γ Γ' s s')
    (h₁ : After place b o (d :: S) Γ₁ Γ₁' xs s s' s₁ s₁')
    (he : ∀ x ∈ S.names, Γ₁.exprs.get? x = Γ.exprs.get? x)
    (hy : xs ++ Telescope.lets (d :: S) ⊆ ys ++ S.lets) :
    After place b o S Γ Γ' ys s s' s₁ s₁' := by
  refine ⟨⟨h.ready.leave h₁.ready (List.suffix_cons d S) he h₁.left,
    h.partner.later h₁.partner h₁.right⟩, h₁.left, h₁.right, fun {z} hz hzS => ?_⟩
  have hnot : z ∉ xs ++ Telescope.lets (d :: S) := fun hmem =>
    (List.mem_append.1 (hy hmem)).elim hz hzS
  rw [List.mem_append, not_or] at hnot
  exact h₁.frame hnot.1 hnot.2

/-- After a run for a definition, its type is put into the table of the first checker. -/
theorem keep {v : Expr} {t : Ty} (h : InStep place b o S Γ Γ' s s')
    (hsuf : .exprDef x v :: S' <:+ S) (hnodup : S.lets.Nodup)
    (h₁ : After place b o S' Γ Γ' v.lets s s' s₁ s₁') (ht : t.Below s₁.supply)
    (hconf : Confirms place b o S' Γ v t) :
    After place b o S Γ Γ' [] s s' { s₁ with exprs := s₁.exprs.insert x t } s₁' := by
  refine ⟨⟨h.ready.keep hsuf hnodup h₁ ht hconf, h.partner.later h₁.partner h₁.right⟩, h₁.left,
    h₁.right, fun {y} _ hy => ?_⟩
  have hyx : y ∉ v.lets ++ x :: S'.lets := fun hmem => hy ((Telescope.lets_suffix hsuf).subset hmem)
  simp only [List.mem_append, List.mem_cons, not_or] at hyx
  rw [← h₁.frame hyx.1 hyx.2.2]
  exact (Table.get?_insert _ _ _ _).trans (if_neg fun e => hyx.2.1 e.symm)

end After

/-! ### Names that the table does not have -/

namespace Fresh

variable {e f a v : Expr} {l : Option Location}

theorem not_mem (h : Fresh S e s) {y : Name} (hy : y ∈ e.lets) : y ∉ S.lets :=
  fun hmem => (List.nodup_append.1 h.nodup).2.2 y hy y hmem rfl

theorem after (h : Fresh S e s) (h₁ : After place b o S Γ Γ' xs s s' s₁ s₁')
    (hxs : ∀ y ∈ e.lets, y ∉ xs) : Fresh S e s₁ :=
  ⟨h.nodup, fun y hy => (h₁.frame (hxs y hy) (h.not_mem hy)).trans (h.uncached y hy)⟩

theorem of_sublist (h : Fresh S e s) (hf : f.lets.Sublist e.lets) : Fresh S f s :=
  ⟨h.nodup.sublist (hf.append_right S.lets), fun y hy => h.uncached y (hf.subset hy)⟩

theorem app_left (h : Fresh S (.app f a l) s) : Fresh S f s :=
  h.of_sublist (List.sublist_append_left f.lets a.lets)

/-- The argument of an application, after a run for the function. -/
theorem app_right (h : Fresh S (.app f a l) s)
    (h₁ : After place b o S Γ Γ' f.lets s s' s₁ s₁') : Fresh S a s₁ := by
  have hnodup := (List.nodup_append.1 h.nodup).1
  refine (h.of_sublist (List.sublist_append_right f.lets a.lets)).after h₁ fun y hy hmem => ?_
  exact (List.nodup_append.1 hnodup).2.2 y hmem y hy rfl

/-- Into the scope of a definition. -/
theorem letIn {x : Ident} (h : Fresh S (.letIn x v e l) s) :
    Fresh (.exprDef x.name v :: S) e s := by
  refine ⟨?_, fun y hy => h.uncached y (List.mem_append_right _ (.tail _ hy))⟩
  have hnodup : (v.lets ++ x.name :: e.lets ++ S.lets).Nodup := h.nodup
  show (e.lets ++ (v.lets ++ x.name :: S.lets)).Nodup
  grind

/-- At the place of a definition for which the table has no type. -/
theorem value (h : Ready place b o S Γ s) (hsuf : .exprDef x v :: S' <:+ S) (hnodup : S.lets.Nodup)
    (hx : s.exprs.get? x = none) : Fresh S' v s := by
  have hlets : (v.lets ++ x :: S'.lets).Nodup :=
    hnodup.sublist (Telescope.lets_suffix hsuf).sublist
  exact ⟨hlets.sublist ((List.sublist_cons_self x _).append_left _), h.uncached hsuf hx⟩

end Fresh

end

end Memo

end SystemFOmega
