import SystemFOmega.Proofs.Checker.Callees
import SystemFOmega.Proofs.Checker.Core
import SystemFOmega.Proofs.Checker.Steps
import SystemFOmega.Proofs.Core.Equiv

/-!
# Disciplines

What the checker finds at the places of a program is proved in one way, whatever it is: there is a
notion of the types that an expression may have, and every rule of the checker respects it. Such a
notion is a discipline (`Checker.Discipline`). It also says with which types an expression may be
compared, which core types stand for a surface type, and for which reasons the checker may fail.

A discipline has one law for each rule about types (`Checker.Discipline.Typing`) and one for each
way to fail (`Checker.Discipline.Blame`). The rules are gone through here once, for all disciplines:
if the laws hold, the checker keeps to the discipline (`Checker.Discipline.Typing.expr`).

The options may depend on a bound. What is said then holds of all large enough bounds.
-/

namespace SystemFOmega

open Run

/-! ## What the checker looks at -/

section

variable {place : Name → Telescope} {S S' : Telescope} {e e' : Expr} {u : TypeExpr}

/-- To look at `e` at the place `S`, the checker looks at `e'` at the place `S'`. -/
inductive Expr.Visits : Telescope → Expr → Telescope → Expr → Prop
  | value {S S' : Telescope} {x : Ident} {v : Expr} (l : Option Location) :
    .exprDef x.name v :: S' <:+ S → Visits S (.var x l) S' v
  | ann (S : Telescope) (e : Expr) (u : TypeExpr) (l : Option Location) : Visits S (.ann e u l) S e
  | letIn (S : Telescope) (x : Ident) (v e : Expr) (l : Option Location) :
    Visits S (.letIn x v e l) (.exprDef x.name v :: S) e
  | typeIn (S : Telescope) (x : Ident) (v : TypeExpr) (e : Expr) (l : Option Location) :
    Visits S (.typeIn x v e l) (.typeDef x.name v :: S) e
  | kindIn (S : Telescope) (x : Ident) (v : KindExpr) (e : Expr) (l : Option Location) :
    Visits S (.kindIn x v e l) (.kindDef x.name v :: S) e
  | lam (S : Telescope) (x : Ident) (u : TypeExpr) (e : Expr) (l : Option Location) :
    Visits S (.lam x u e l) (.exprVar x.name u :: S) e
  | function (S : Telescope) (f a : Expr) (l : Option Location) : Visits S (.app f a l) S f
  | argument (S : Telescope) (f a : Expr) (l : Option Location) : Visits S (.app f a l) S a
  | tlam (S : Telescope) (x : Ident) (k : KindExpr) (e : Expr) (l : Option Location) :
    Visits S (.tlam x k e l) (.typeVar x.name k :: S) e
  | operator (S : Telescope) (f : Expr) (u : TypeExpr) (l : Option Location) :
    Visits S (.tapp f u l) S f

theorem Expr.size_pos (e : Expr) : 0 < e.size := by cases e <;> simp [size]

namespace Expr.Visits

/-- What a rule visits is placed in the telescope that the rule has entered. -/
theorem placed (h : e.Visits S S' e') (hS : S.Placed place) (he : e.Placed place S) :
    S'.Placed place ∧ e'.Placed place S' := by
  cases h with
  | value l hsuf =>
    have hdef := hS.suffix hsuf
    exact ⟨hdef.2.2, hdef.1⟩
  | ann | function | operator => exact ⟨hS, he.1⟩
  | argument => exact ⟨hS, he.2⟩
  | letIn | typeIn | kindIn | lam | tlam => exact ⟨⟨he.1, he.2.1, hS⟩, he.2.2⟩

/-- Together with the definitions in scope, what is looked at weighs less. -/
theorem weight_lt (h : e.Visits S S' e') : e'.size + S'.weight < e.size + S.weight := by
  cases h with
  | value l hsuf =>
    have hle := Telescope.weight_le_of_suffix hsuf
    simp only [Telescope.weight, Decl.weight] at hle
    simp only [size]
    omega
  | _ =>
    simp only [size, Telescope.weight, Decl.weight]
    omega

end Expr.Visits

namespace Expr.Writes

/-- A type that is written in a placed expression is placed. -/
theorem placed (h : e.Writes u) (he : e.Placed place S) : u.Placed place S := by
  cases h with
  | ann | tapp => exact he.2
  | lam => exact he.1

/-- A type that is written in an expression is smaller than it. -/
theorem size_lt (h : e.Writes u) : u.size < e.size := by
  cases h <;> simp only [size] <;> omega

end Expr.Writes

end

/-! ## Disciplines -/

/-- The checker with one of the options can bring `t` to the normal form `t'`. -/
def Ty.HasNormal (o : Nat → Checker.Options) (t t' : Ty) : Prop := ∃ d, t.NormalizesBy (o d) t'

namespace Checker

/-- A notion of the types of expressions, each at a place. -/
structure Discipline where
  /-- The expressions that may be looked at. -/
  Fit : Telescope → Expr → Prop
  /-- The types that may be found for an expression, or for which it may be accepted. -/
  OfExpr : Telescope → Expr → Ty → Prop
  /-- The types that an expression may be compared with. -/
  Expected : Telescope → Expr → Ty → Prop
  /-- The core types that may stand for a surface type of some kind. -/
  Stands : Telescope → TypeExpr → Kind → Ty → Prop
  /-- The reasons for which the checker may fail. -/
  Fault : Failure.Cause → Prop

namespace Discipline

section

variable (D : Discipline) (place : Name → Telescope) (same : Comparison) (o : Nat → Options)

/-- The expression is at the place `S` and may be looked at. -/
structure At (S : Telescope) (e : Expr) : Prop where
  scope : S.Placed place
  placed : e.Placed place S
  fit : D.Fit S e

/-- The laws of a discipline that speak of types. -/
structure Typing : Prop where
  cache (d : Nat) : (o d).cache = (o 0).cache
  visit {S S' e e'} : D.At place S e → e.Visits S S' e' → D.Fit S' e'
  core {S e u t} : D.At place S e → e.Writes u → u.coreAt S = .ok t → D.Stands S u t.kind t
  -- normal forms
  ofExpr_normal {S e} {t t' : Ty} : D.OfExpr S e t → t.HasNormal o t' → D.OfExpr S e t'
  ofExpr_of_normal {S e} {t t' : Ty} : D.Expected S e t → t.HasNormal o t' → D.OfExpr S e t' →
    D.OfExpr S e t
  expected_normal {S e} {t t' : Ty} : D.Expected S e t → t.HasNormal o t' → D.Expected S e t'
  stands_normal {S u k} {t t' : Ty} : D.Stands S u k t → t.HasNormal o t' → D.Stands S u k t'
  -- inference
  lit (S m l) : D.OfExpr S (.lit m l) (.int .star)
  exprVar {S S' : Telescope} {u t} {x : Ident} (l) : S.Placed place →
    .exprVar x.name u :: S' <:+ S → D.Stands S' u .star t → D.OfExpr S (.var x l) t
  exprDef {S S' : Telescope} {v t} {x : Ident} (l) : S.Placed place →
    .exprDef x.name v :: S' <:+ S → D.OfExpr S' v t → D.OfExpr S (.var x l) t
  letIn {S v e l t} {x : Ident} : D.OfExpr (.exprDef x.name v :: S) e t →
    D.OfExpr S (.letIn x v e l) t
  typeIn {S v e l t} {x : Ident} : D.OfExpr (.typeDef x.name v :: S) e t →
    D.OfExpr S (.typeIn x v e l) t
  kindIn {S v e l t} {x : Ident} : D.OfExpr (.kindDef x.name v :: S) e t →
    D.OfExpr S (.kindIn x v e l) t
  ann_expected {S e u l t} : D.At place S (.ann e u l) → D.Stands S u .star t → D.Expected S e t
  ann {S e u l t} : D.Stands S u .star t → D.OfExpr S e t → D.OfExpr S (.ann e u l) t
  lam {S u e l t t'} {x : Ident} : D.Stands S u .star t → D.OfExpr (.exprVar x.name u :: S) e t' →
    D.OfExpr S (.lam x u e l) (.arrow t t' .star)
  app_expected {S f a l t t' k} : D.At place S (.app f a l) → D.OfExpr S f (.arrow t t' k) →
    D.Expected S a t
  app {S f a l t t' k} : D.OfExpr S f (.arrow t t' k) → D.OfExpr S a t → D.OfExpr S (.app f a l) t'
  tlam {S e l t} {x : Ident} {k : KindExpr} : D.At place S (.tlam x k e l) →
    D.OfExpr (.typeVar x.name k :: S) e t →
    D.OfExpr S (.tlam x k e l) (.bind .all x.name (k.expand S.env) t .star)
  tapp {S f u l x k j a} {t : Ty} (c : Int) : D.OfExpr S f (.bind .all x k t j) →
    D.Stands S u k a → D.OfExpr S (.tapp f u l) (t.subst x a c).1
  -- comparison
  tlam_expected {S e l y j} {x : Ident} {k : KindExpr} {t : Ty} (c : Int) :
    D.At place S (.tlam x k e l) →
    D.Expected S (.tlam x k e l) (.bind .all y (k.expand S.env) t j) →
    D.Expected (.typeVar x.name k :: S) e (t.subst y (.var x.name (k.expand S.env)) c).1
  tlam_accepted {S e l y j} {x : Ident} {k : KindExpr} {t : Ty} (c : Int) :
    D.At place S (.tlam x k e l) →
    D.Expected S (.tlam x k e l) (.bind .all y (k.expand S.env) t j) →
    D.OfExpr (.typeVar x.name k :: S) e (t.subst y (.var x.name (k.expand S.env)) c).1 →
    D.OfExpr S (.tlam x k e l) (.bind .all y (k.expand S.env) t j)
  lam_agreed {S x u e l t s t' j} : D.Expected S (.lam x u e l) (.arrow s t' j) →
    D.Stands S u .star t → same t s = .ok () → D.Stands S u .star s
  lam_expected {S u e l s t j} {x : Ident} : D.At place S (.lam x u e l) →
    D.Expected S (.lam x u e l) (.arrow s t j) → D.Expected (.exprVar x.name u :: S) e t
  lam_accepted {S u e l s t j} {x : Ident} : D.Expected S (.lam x u e l) (.arrow s t j) →
    D.Stands S u .star s → D.OfExpr (.exprVar x.name u :: S) e t →
    D.OfExpr S (.lam x u e l) (.arrow s t j)
  accepted {S e t t'} : D.OfExpr S e t → D.Expected S e t' → same t t' = .ok () → D.OfExpr S e t'

/-- In the end, the normalization of `t` has a result or fails for a reason of the discipline. -/
def Halts (t : Ty) : Prop :=
  ∀ s, Tends (fun d => Check.normalize (o d) t) s (fun _ _ => True) fun f => D.Fault f.cause

/-- The laws of a discipline that speak of failures. -/
structure Blame : Prop where
  -- normalization
  ofExpr_halts {S e t} : D.OfExpr S e t → D.Halts o t
  expected_halts {S e t} : D.Expected S e t → D.Halts o t
  stands_halts {S u k t} : D.Stands S u k t → D.Halts o t
  -- elaboration
  ann {S e u l c} : D.At place S (.ann e u l) → u.coreOf S .star = .error c → D.Fault c
  lam {S x u e l c} : D.At place S (.lam x u e l) → u.coreOf S .star = .error c → D.Fault c
  tapp {S f u l x k j t c} : D.At place S (.tapp f u l) → D.OfExpr S f (.bind .all x k t j) →
    u.coreOf S k = .error c → D.Fault c
  -- heads of types
  notArrow {S f a l} {t t' : Ty} : D.At place S (.app f a l) → D.OfExpr S f t' →
    t.HasNormal o t' → (∀ s u k, t' ≠ .arrow s u k) → D.Fault (.notArrow t')
  notForall {S f u l} {t t' : Ty} : D.At place S (.tapp f u l) → D.OfExpr S f t' →
    t.HasNormal o t' → (∀ x k s j, t' ≠ .bind .all x k s j) → D.Fault (.notForall t')
  -- comparison
  clash {S x e l y yk j t c} {k : KindExpr} :
    D.Expected S (.tlam x k e l) (.bind .all y yk t j) →
    (k.expand S.env).conform yk = .error c → D.Fault (.clash c)
  parameter {S x u e l j c} {t₀ t s₀ s t' : Ty} : D.Expected S (.lam x u e l) (.arrow s t' j) →
    s₀.HasNormal o (.arrow s t' j) → D.Stands S u .star t → t₀.HasNormal o t →
    same t s = .error c → D.Fault (.mismatch s t c)
  mismatch {S e c} {t₀ t s₀ s : Ty} : D.Expected S e s → s₀.HasNormal o s → D.OfExpr S e t →
    t₀.HasNormal o t → same t s = .error c → D.Fault (.mismatch s t c)

/-- The context has the entries of a telescope, with types that stand for the written ones. -/
structure Suits (Γ : Context) (S : Telescope) : Prop where
  covers : Γ.Covers S
  bound {x : Name} {u : TypeExpr} {S' : Telescope} {t : Ty} : .exprVar x u :: S' <:+ S →
    Γ.exprs.get? x = some (.bound t) → D.Stands S' u .star t

/-- What the tables say of a name is right at its place. -/
structure Sustains (s : State) : Prop where
  keeps : s.Keeps place
  exprs {x : Name} {t : Ty} : s.exprs.get? x = some t →
    ∀ (e : Expr) (S : Telescope), place x = .exprDef x e :: S → D.OfExpr S e t

/-- Within the bound `n` for the nesting, inference keeps to the discipline. -/
def Infers (n : Nat) : Prop :=
  ∀ {Γ : Context} {S : Telescope} {e : Expr} {s : State}, D.At place S e → D.Suits Γ S →
    D.Sustains place s → 2 * (e.size + S.weight) ≤ n →
    Tends (fun d => e.inferBy same (o d) n Γ) s
      (fun t s' => D.OfExpr S e t ∧ D.Sustains place s') fun f => D.Fault f.cause

/-- Within the bound `n` for the nesting, a comparison keeps to the discipline. -/
def Checks (n : Nat) : Prop :=
  ∀ {Γ : Context} {S : Telescope} {e : Expr} {s : State} {t : Ty}, D.At place S e → D.Suits Γ S →
    D.Sustains place s → D.Expected S e t → 2 * (e.size + S.weight) < n →
    Tends (fun d => e.checkBy same (o d) n Γ t) s
      (fun _ s' => D.OfExpr S e t ∧ D.Sustains place s') fun f => D.Fault f.cause

end

variable {D : Discipline} {place : Name → Telescope} {same : Comparison} {o : Nat → Options}
  {S S' : Telescope} {Γ Γ' : Context} {s s' : State} {x : Name} {n : Nat}

/-! ### Contexts -/

namespace Suits

theorem nil (D : Discipline) (Γ : Context) : D.Suits Γ [] :=
  ⟨.nil Γ, fun h => absurd h.length_le (by simp)⟩

theorem suffix (h : D.Suits Γ S) (hS : S' <:+ S) : D.Suits Γ S' :=
  ⟨h.covers.suffix hS, fun hx => h.bound (hx.trans hS)⟩

/-- Into the scope of a declaration. -/
theorem cons {d : Decl} (h : D.Suits Γ S) (hΓ : Γ'.Covers (d :: S))
    (he : ∀ x ∈ S.names, Γ'.exprs.get? x = Γ.exprs.get? x)
    (hd : ∀ x u t, d = .exprVar x u → Γ'.exprs.get? x = some (.bound t) →
      D.Stands S u .star t) : D.Suits Γ' (d :: S) := by
  refine ⟨hΓ, fun {x u T t} hx ht => ?_⟩
  rcases List.suffix_cons_iff.1 hx with heq | hx
  · obtain ⟨hd', rfl⟩ := List.cons.inj heq
    exact hd x u t hd'.symm ht
  · rw [he x (List.mem_map_of_mem (hx.subset List.mem_cons_self))] at ht
    exact h.bound hx ht

theorem bindType (h : D.Suits Γ S) (hx : x ∉ S.names) (k : KindExpr) :
    D.Suits (Γ.bindType x (k.expand S.env)) (.typeVar x k :: S) :=
  h.cons (h.covers.bindType hx k) (fun _ _ => rfl) fun _ _ _ hd => nomatch hd

theorem defineType (h : D.Suits Γ S) (hx : x ∉ S.names) (u : TypeExpr) :
    D.Suits (Γ.defineType x u) (.typeDef x u :: S) :=
  h.cons (h.covers.defineType hx u) (fun _ _ => rfl) fun _ _ _ hd => nomatch hd

theorem defineKind (h : D.Suits Γ S) (hx : x ∉ S.names) (k : KindExpr) :
    D.Suits (Γ.defineKind x k) (.kindDef x k :: S) :=
  h.cons (h.covers.defineKind hx k) (fun _ _ => rfl) fun _ _ _ hd => nomatch hd

theorem defineExpr (h : D.Suits Γ S) (hx : x ∉ S.names) (e : Expr) :
    D.Suits (Γ.defineExpr x e) (.exprDef x e :: S) :=
  h.cons (h.covers.defineExpr hx e) (Table.get?_insert_of_not_mem hx) fun _ _ _ hd => nomatch hd

theorem bindExpr (h : D.Suits Γ S) (hx : x ∉ S.names) {u : TypeExpr} {t : Ty}
    (ht : D.Stands S u .star t) : D.Suits (Γ.bindExpr x t) (.exprVar x u :: S) := by
  refine h.cons (h.covers.bindExpr hx u t) (Table.get?_insert_of_not_mem hx) fun y v w hd hw => ?_
  obtain ⟨rfl, rfl⟩ := Decl.exprVar.inj hd
  obtain rfl := Entry.bound.inj (Option.some.inj ((Table.get?_insert_self _ _ _).symm.trans hw))
  exact ht

end Suits

/-! ### Tables -/

namespace Sustains

theorem start (D : Discipline) (place : Name → Telescope) (c : Int) (tr : Trace) :
    D.Sustains place { supply := c, trace := tr } :=
  ⟨.start c tr, fun h => nomatch h⟩

theorem onTables : State.OnTables (D.Sustains place) := fun h hk ht he =>
  ⟨⟨fun hx => h.keeps.kinds (hk ▸ hx), fun hx => h.keeps.types (ht ▸ hx)⟩,
    fun hx => h.exprs (he ▸ hx)⟩

theorem extend (h : D.Sustains place s) (hs : s.Extends place s') : D.Sustains place s' :=
  ⟨hs.keeps, fun hx => h.exprs (hs.exprs_eq ▸ hx)⟩

theorem insertExpr (h : D.Sustains place s) {e : Expr} {t : Ty} (hx : place x = .exprDef x e :: S)
    (ht : D.OfExpr S e t) : D.Sustains place { s with exprs := s.exprs.insert x t } := by
  refine ⟨⟨h.keeps.kinds, h.keeps.types⟩, Table.forall_insert h.exprs fun v T hT => ?_⟩
  obtain ⟨hd, rfl⟩ := List.cons.inj (hx.symm.trans hT)
  cases hd
  exact ht

/-- The type of a definition may be kept if the discipline allows it. -/
theorem keepExpr (o : Options) (h : D.Sustains place s) {e : Expr} {t : Ty}
    (hx : place x = .exprDef x e :: S) (ht : D.OfExpr S e t) :
    Ends (Check.keepExpr o x t) s (fun _ s' => D.Sustains place s') False := by
  show D.Sustains place (if o.cache then _ else _)
  split
  · exact h.insertExpr hx ht
  · exact h

end Sustains

/-! ### Steps -/

namespace Typing

variable (hD : D.Typing place same o)
include hD

theorem visit_at {e e' : Expr} (h : D.At place S e) (hv : e.Visits S S' e') : D.At place S' e' := by
  obtain ⟨hS, he⟩ := hv.placed h.scope h.placed
  exact ⟨hS, he, hD.visit h hv⟩

omit hD in
/-- A type of the discipline is normalized, or the fault is one of its own. -/
theorem normalize_tends {t : Ty} (ht : D.Halts o t) (hs : D.Sustains place s) :
    Tends (fun d => Check.normalize (o d) t) s
      (fun t' s' => t.HasNormal o t' ∧ D.Sustains place s') fun f => D.Fault f.cause := by
  have hend (d : Nat) : Ends (Check.normalize (o d) t) s
      (fun t' s' => t.HasNormal o t' ∧ D.Sustains place s') True :=
    (Check.normalize_keeps Sustains.onTables (o d) hs t).mono (fun _ _ h => ⟨⟨d, h.1⟩, h.2⟩) id
  exact ((ht s).and_ends hend).imp fun _ _ h => h.2

/-- A surface type is elaborated and has the kind that is asked for, with what comes after it. -/
theorem type_then {α : Type} {e : Expr} {u : TypeExpr} {k : Kind} {f : Nat → Ty → Check α}
    {R : α → State → Prop} (h : D.At place S e) (hu : e.Writes u) (hΓ : D.Suits Γ S)
    (hs : D.Sustains place s) (hn : 2 * (e.size + S.weight) ≤ n + 1)
    (hc : ∀ c, u.coreOf S k = .error c → D.Fault c)
    (hf : ∀ t s', D.Stands S u k t → D.Sustains place s' →
      Tends (fun d => f d t) s' R fun f => D.Fault f.cause) :
    Tends (fun d => u.elaborate (o d) n Γ >>= fun t => Check.ofKind k t >>= f d) s R
      fun f => D.Fault f.cause := by
  have hlt := hu.size_lt
  -- elaboration normalizes nothing, so that one run of it stands for those of all depths
  have hgives : Check.Gives (u.elaborate (o 0) n Γ >>= Check.ofKind k) s (u.coreOf S k)
      (s.Extends place) := by
    refine .bind (u.elaborate_gives (o 0) h.scope (hu.placed h.placed) hΓ.covers (.refl hs.keeps)
      (by omega)) fun t s₁ _ hs₁ => ?_
    exact Check.ofKind_gives k t hs₁
  have hsettles : Settles (u.elaborate (o 0) n Γ >>= Check.ofKind k) s
      (fun t s' => D.Stands S u k t ∧ D.Sustains place s') fun f => D.Fault f.cause := by
    unfold Settles
    cases hcore : u.coreOf S k with
    | ok t =>
      rw [hcore] at hgives
      obtain ⟨s', hrun, hs'⟩ := hgives.exists_ok
      obtain ⟨hat, rfl⟩ := TypeExpr.coreOf_ok.1 hcore
      rw [hrun]
      exact ⟨hD.core h hu hat, hs.extend hs'⟩
    | error c =>
      rw [hcore] at hgives
      obtain ⟨f, s', hrun, rfl⟩ := hgives.exists_error
      rw [hrun]
      exact hc _ hcore
  have hoptions (d : Nat) : u.elaborate (o d) n Γ = u.elaborate (o 0) n Γ :=
    u.elaborate_congr (hD.cache d) Γ
  simp only [hoptions, ← bind_assoc]
  exact (Tends.of_settles hsettles).bind fun t s' h => hf t s' h.1 h.2

theorem kind_then {α : Type} {x : Ident} {k : KindExpr} {e : Expr} {l : Option Location}
    {f : Nat → Kind → Check α} {R : α → State → Prop} {Q : Failure → Prop}
    (h : D.At place S (.tlam x k e l)) (hΓ : D.Suits Γ S) (hs : D.Sustains place s)
    (hn : 2 * ((Expr.tlam x k e l).size + S.weight) ≤ n + 1)
    (hf : ∀ s', D.Sustains place s' → Tends (fun d => f d (k.expand S.env)) s' R Q) :
    Tends (fun d => k.elaborate (o d) n Γ >>= f d) s R Q := by
  have hoptions (d : Nat) : k.elaborate (o d) n Γ = k.elaborate (o 0) n Γ :=
    k.elaborate_congr (hD.cache d) Γ
  simp only [hoptions]
  simp only [Expr.size] at hn
  refine .ends_bind (k.elaborate_gives (o 0) h.scope h.placed.1 hΓ.covers (.refl hs.keeps)
    (by omega)) fun j s' hj => ?_
  rw [hj.1]
  exact hf s' (hs.extend hj.2)

omit hD in
theorem inferring_tends {e : Expr} {rule : Nat → Check Ty} {R : Ty → Prop} {Q : Failure → Prop}
    (hs : D.Sustains place s)
    (h : ∀ s, D.Sustains place s → Tends rule s (fun t s' => R t ∧ D.Sustains place s') Q) :
    Tends (fun d => Check.inferring Γ e (rule d)) s (fun t s' => R t ∧ D.Sustains place s') Q := by
  refine .ends_bind (Check.enter_keeps Sustains.onTables hs e) fun _ s₁ hs₁ => ?_
  refine .ends_bind (Check.note_keeps Sustains.onTables hs₁ _) fun _ s₂ hs₂ => ?_
  refine .bind (h s₂ hs₂) fun t s₃ ht => ?_
  refine .ends_bind (Check.note_keeps Sustains.onTables ht.2 _) fun _ s₄ hs₄ => ?_
  exact .pure ⟨ht.1, hs₄⟩

omit hD in
theorem checking_tends {e : Expr} {t : Ty} {rule : Nat → Ty → Check Unit} {R : Prop}
    (ht : D.Halts o t) (hs : D.Sustains place s)
    (h : ∀ t' s, t.HasNormal o t' → D.Sustains place s → Tends (fun d => rule d t') s
      (fun _ s' => R ∧ D.Sustains place s') fun f => D.Fault f.cause) :
    Tends (fun d => Check.checking (o d) Γ e t (rule d)) s (fun _ s' => R ∧ D.Sustains place s')
      fun f => D.Fault f.cause := by
  refine .ends_bind (Check.enter_keeps Sustains.onTables hs e) fun _ s₁ hs₁ => ?_
  refine .bind (normalize_tends ht hs₁) fun t' s₂ ht' => ?_
  refine .ends_bind (Check.note_keeps Sustains.onTables ht'.2 _) fun _ s₃ hs₃ => ?_
  exact h t' s₃ ht'.1 hs₃

omit hD in
/-- Two types are compared, and a difference between them is a fault of the discipline. -/
theorem agreeAt_tends {e : Expr} {t u : Ty} {P : Prop} (hs : D.Sustains place s)
    (hok : same t u = .ok () → P) (herr : ∀ c, same t u = .error c → D.Fault (.mismatch u t c)) :
    Tends (fun _ => Check.agreeAt same e t u) s (fun _ s' => P ∧ D.Sustains place s')
      fun f => D.Fault f.cause := by
  unfold Check.agreeAt
  cases h : same t u with
  | ok => exact .pure ⟨hok h, hs⟩
  | error c => exact .throw (herr c h)

/-! ### Inference -/

variable (hB : D.Blame place same o)

/-- A name: its type is in the context, in the table, or is that of its definition. -/
theorem infers_var (infer : D.Infers place same o n) {x : Ident} {l : Option Location}
    (h : D.At place S (.var x l)) (hΓ : D.Suits Γ S) (hs : D.Sustains place s)
    (hn : 2 * ((Expr.var x l).size + S.weight) ≤ n + 1) :
    Tends (fun d => (Expr.var x l).inferBy same (o d) (n + 1) Γ) s
      (fun t s' => D.OfExpr S (.var x l) t ∧ D.Sustains place s') fun f => D.Fault f.cause := by
  refine inferring_tends hs fun s hs => ?_
  obtain ⟨d, S', hl, hd, hsuf⟩ := h.placed
  cases d with
  | exprVar y u =>
    obtain rfl : y = x.name := hd
    obtain ⟨t, ht⟩ := hΓ.covers _ _ hsuf
    refine .ends_bind (Check.found_ends (Context.find_eq ht)) fun _ s₁ h₁ => ?_
    obtain ⟨rfl, rfl⟩ := h₁
    exact .pure ⟨hD.exprVar l h.scope hsuf (hΓ.bound hsuf ht), hs⟩
  | exprDef y v =>
    obtain rfl : y = x.name := hd
    have hplace := h.scope.place_eq hsuf
    refine .ends_bind (Check.found_ends (Context.find_eq (hΓ.covers _ _ hsuf))) fun _ s₁ h₁ => ?_
    obtain ⟨rfl, rfl⟩ := h₁
    refine .ends_bind .get fun st s₁ h₁ => ?_
    obtain ⟨rfl, rfl⟩ := h₁
    -- a type in the table has been found by the discipline at the place of the definition
    cases hx : s₁.exprs.get? x.name with
    | some t => exact .pure ⟨hD.exprDef l h.scope hsuf (hs.exprs hx v S' hplace), hs⟩
    | none =>
      have hvisit : (Expr.var x l).Visits S S' v := .value l hsuf
      have hlt := hvisit.weight_lt
      have hS' : S' <:+ S := (List.suffix_cons _ _).trans hsuf
      refine .bind (infer (hD.visit_at h hvisit) (hΓ.suffix hS') hs (by omega)) fun t s₁ ht => ?_
      have hkeep (d : Nat) : Check.keepExpr (o d) x.name t = Check.keepExpr (o 0) x.name t := by
        rw [Check.keepExpr, Check.keepExpr, hD.cache d]
      simp only [hkeep]
      refine .ends_bind (ht.2.keepExpr (o 0) hplace ht.1) fun _ s₂ hs₂ => ?_
      exact .pure ⟨hD.exprDef l h.scope hsuf ht.1, hs₂⟩
  | _ => cases hl

include hB

/-- Each rule that infers a type keeps the discipline, if its callees do. -/
theorem infers_succ (infer : D.Infers place same o n) (check : D.Checks place same o n) :
    D.Infers place same o (n + 1) := by
  intro Γ S e s h hΓ hs hn
  -- what is looked at on the way is at a place as well, within the bound
  have hinfer {S' : Telescope} {e' : Expr} {Γ' : Context} {s' : State} (hv : e.Visits S S' e')
      (hΓ' : D.Suits Γ' S') (hs' : D.Sustains place s') :=
    infer (hD.visit_at h hv) hΓ' hs' (by have := hv.weight_lt; omega)
  have hcheck {S' : Telescope} {e' : Expr} {Γ' : Context} {s' : State} {t : Ty}
      (hv : e.Visits S S' e') (hΓ' : D.Suits Γ' S') (hs' : D.Sustains place s')
      (ht : D.Expected S' e' t) :=
    check (hD.visit_at h hv) hΓ' hs' ht (by have := hv.weight_lt; omega)
  cases e with
  | lit m l => exact inferring_tends hs fun s hs => .pure ⟨hD.lit S m l, hs⟩
  | var x l => exact hD.infers_var infer h hΓ hs hn
  | ann e u l =>
    refine inferring_tends hs fun s hs => ?_
    refine hD.type_then h (.ann e u l) hΓ hs hn (fun _ => hB.ann h) fun t s₁ ht hs₁ => ?_
    refine .bind (hcheck (.ann S e u l) hΓ hs₁ (hD.ann_expected h ht)) fun _ s₂ he => ?_
    exact .pure ⟨hD.ann ht he.1, he.2⟩
  | letIn x v e l =>
    refine inferring_tends hs fun s hs => ?_
    have hΓ' := hΓ.defineExpr (h.scope.not_mem h.placed.2.1) v
    exact (hinfer (.letIn S x v e l) hΓ' hs).imp fun _ _ he => ⟨hD.letIn he.1, he.2⟩
  | typeIn x v e l =>
    refine inferring_tends hs fun s hs => ?_
    have hΓ' := hΓ.defineType (h.scope.not_mem h.placed.2.1) v
    exact (hinfer (.typeIn S x v e l) hΓ' hs).imp fun _ _ he => ⟨hD.typeIn he.1, he.2⟩
  | kindIn x v e l =>
    refine inferring_tends hs fun s hs => ?_
    have hΓ' := hΓ.defineKind (h.scope.not_mem h.placed.2.1) v
    exact (hinfer (.kindIn S x v e l) hΓ' hs).imp fun _ _ he => ⟨hD.kindIn he.1, he.2⟩
  | lam x u e l =>
    refine inferring_tends hs fun s hs => ?_
    refine hD.type_then h (.lam x u e l) hΓ hs hn (fun _ => hB.lam h) fun t s₁ ht hs₁ => ?_
    have hΓ' := hΓ.bindExpr (h.scope.not_mem h.placed.2.1) ht
    refine .bind (hinfer (.lam S x u e l) hΓ' hs₁) fun t' s₂ he => ?_
    exact .pure ⟨hD.lam ht he.1, he.2⟩
  | app f a l =>
    refine inferring_tends hs fun s hs => ?_
    refine .bind (hinfer (.function S f a l) hΓ hs) fun t s₁ hf => ?_
    refine .bind (normalize_tends (hB.ofExpr_halts hf.1) hf.2) fun t' s₂ ht => ?_
    have hft := hD.ofExpr_normal hf.1 ht.1
    cases t' with
    | arrow t u k =>
      refine .bind (hcheck (.argument S f a l) hΓ ht.2 (hD.app_expected h hft)) fun _ s₃ ha => ?_
      exact .pure ⟨hD.app hft ha.1, ha.2⟩
    | _ => exact .throw (hB.notArrow h hft ht.1 fun _ _ _ he => nomatch he)
  | tlam x k e l =>
    refine inferring_tends hs fun s hs => ?_
    refine hD.kind_then h hΓ hs hn fun s₁ hs₁ => ?_
    have hΓ' := hΓ.bindType (h.scope.not_mem h.placed.2.1) k
    refine .bind (hinfer (.tlam S x k e l) hΓ' hs₁) fun t s₂ he => ?_
    exact .pure ⟨hD.tlam h he.1, he.2⟩
  | tapp f u l =>
    refine inferring_tends hs fun s hs => ?_
    refine .bind (hinfer (.operator S f u l) hΓ hs) fun t s₁ hf => ?_
    refine .bind (normalize_tends (hB.ofExpr_halts hf.1) hf.2) fun t' s₂ ht => ?_
    have hft := hD.ofExpr_normal hf.1 ht.1
    have hfault (hne : ∀ x k s j, t' ≠ .bind .all x k s j) := hB.notForall h hft ht.1 hne
    cases t' with
    | bind b x k t j =>
      cases b with
      | all =>
        refine hD.type_then h (.tapp f u l) hΓ ht.2 hn (fun _ => hB.tapp h hft)
          fun a s₃ ha hs₃ => ?_
        refine .of_settles (.of_ends ((Check.subst_keeps Sustains.onTables hs₃ x a t).mono
          (fun t'' s₄ ht'' => ?_) id))
        obtain ⟨⟨c, rfl⟩, hs₄⟩ := ht''
        exact ⟨hD.tapp c hft ha, hs₄⟩
      | lam => exact .throw (hfault fun _ _ _ _ he => nomatch he)
    | _ => exact .throw (hfault fun _ _ _ _ he => nomatch he)

/-! ### Comparison -/

/-- Each rule that checks a type keeps the discipline, if its callees do. -/
theorem checks_succ (infer : D.Infers place same o n) (check : D.Checks place same o n) :
    D.Checks place same o (n + 1) := by
  intro Γ S e s t h hΓ hs ht hn
  refine (checking_tends (R := D.OfExpr S e t) (hB.expected_halts ht) hs fun t' s hnf hs => ?_)
  have ht' := hD.expected_normal ht hnf
  suffices h : Tends _ s (fun (_ : Unit) s' => D.OfExpr S e t' ∧ D.Sustains place s')
      (fun f : Failure => D.Fault f.cause) from
    h.imp fun _ _ he => ⟨hD.ofExpr_of_normal ht hnf he.1, he.2⟩
  have hcheck {S' : Telescope} {e' : Expr} {Γ' : Context} {s' : State} {t : Ty}
      (hv : e.Visits S S' e') (hΓ' : D.Suits Γ' S') (hs' : D.Sustains place s')
      (ht : D.Expected S' e' t) :=
    check (hD.visit_at h hv) hΓ' hs' ht (by have := hv.weight_lt; omega)
  -- an expression that is not an abstraction of the expected form is inferred
  have hinfer : Tends (fun d => do
      let actual ← Check.normalize (o d) (← e.inferBy same (o d) n Γ)
      Check.agreeAt same e actual t') s
      (fun _ s' => D.OfExpr S e t' ∧ D.Sustains place s') fun f => D.Fault f.cause := by
    refine .bind (infer h hΓ hs (by omega)) fun t₁ s₁ h₁ => ?_
    refine .bind (normalize_tends (hB.ofExpr_halts h₁.1) h₁.2) fun t₂ s₂ h₂ => ?_
    have hte := hD.ofExpr_normal h₁.1 h₂.1
    exact agreeAt_tends h₂.2 (hD.accepted hte ht') fun _ => hB.mismatch ht' hnf hte h₂.1
  cases e with
  | tlam x k e l =>
    cases t' with
    | bind b y yk t₁ j =>
      cases b with
      | all =>
        refine hD.kind_then h hΓ hs (by omega) fun s₁ hs₁ => ?_
        cases hk : (k.expand S.env).conform yk with
        | error c => exact .error 0 (fun _ _ => rfl) (hB.clash ht' hk)
        | ok =>
          obtain rfl := Kind.conform_ok_iff.1 hk
          refine .ends_bind (P := fun _ s' => D.Sustains place s') hs₁ fun _ s₂ hs₂ => ?_
          refine .ends_bind (Check.subst_keeps Sustains.onTables hs₂ y _ t₁) fun u s₃ hu => ?_
          obtain ⟨⟨c, rfl⟩, hs₃⟩ := hu
          have hΓ' := hΓ.bindType (h.scope.not_mem h.placed.2.1) k
          refine (hcheck (.tlam S x k e l) hΓ' hs₃ (hD.tlam_expected c h ht')).imp fun _ _ he => ?_
          exact ⟨hD.tlam_accepted c h ht' he.1, he.2⟩
      | lam => exact hinfer
    | _ => exact hinfer
  | lam x u e l =>
    cases t' with
    | arrow t₁ u₁ j =>
      refine hD.type_then h (.lam x u e l) hΓ hs (by omega) (fun _ => hB.lam h)
        fun t₂ s₁ h₂ hs₁ => ?_
      refine .bind (normalize_tends (hB.stands_halts h₂) hs₁) fun t₃ s₂ h₃ => ?_
      have hst := hD.stands_normal h₂ h₃.1
      refine .bind (agreeAt_tends h₃.2 (hD.lam_agreed ht' hst)
        fun _ => hB.parameter ht' hnf hst h₃.1) fun _ s₃ h₄ => ?_
      -- the parameter is bound to the expected type
      have hΓ' := hΓ.bindExpr (h.scope.not_mem h.placed.2.1) h₄.1
      refine (hcheck (.lam S x u e l) hΓ' h₄.2 (hD.lam_expected h ht')).imp fun _ _ he => ?_
      exact ⟨hD.lam_accepted ht' h₄.1 he.1, he.2⟩
    | _ => exact hinfer
  | _ => exact hinfer

/-- The checker keeps to a discipline whose laws hold. -/
theorem expr (n : Nat) : D.Infers place same o n ∧ D.Checks place same o n := by
  induction n with
  | zero =>
    refine ⟨fun _ _ _ hn => ?_, fun _ _ _ _ hn => absurd hn (Nat.not_lt_zero _)⟩
    have := Expr.size_pos ‹Expr›
    omega
  | succ n ih => exact ⟨hD.infers_succ hB ih.1 ih.2, hD.checks_succ hB ih.1 ih.2⟩

/-- A closed program: in the end there is a normal form, or a failure for a reason of the
discipline. -/
theorem inferNormal {r : Expr} (h : D.At place [] r) (c : Int) (tr : Trace) :
    Tends (fun d => r.inferNormal same (o d)) { supply := c, trace := tr }
      (fun t' _ => D.OfExpr [] r t' ∧ ∃ t : Ty, t.HasNormal o t') fun f => D.Fault f.cause := by
  have hn : 2 * (r.size + Telescope.weight []) ≤ Context.reach {} r.size := by
    unfold Context.reach Telescope.weight
    omega
  refine .bind ((hD.expr hB _).1 h (.nil D {}) (.start D place c tr) hn) fun t s ht => ?_
  refine (normalize_tends (hB.ofExpr_halts ht.1) ht.2).imp fun t' s' h' => ?_
  exact ⟨hD.ofExpr_normal ht.1 h'.1, t, h'.1⟩

end Typing

/-! ### Results

Where any reason to fail will do, only the laws about types are needed. -/

theorem Blame.of_fault (h : ∀ c, D.Fault c) (o : Options) : D.Blame place same fun _ => o := by
  have hhalts (t : Ty) : D.Halts (fun _ => o) t := by
    intro s
    refine .of_settles ?_
    unfold Settles
    cases Check.normalize o t s with
    | ok => trivial
    | error => exact h _
  exact {
    ofExpr_halts := fun _ => hhalts _
    expected_halts := fun _ => hhalts _
    stands_halts := fun _ => hhalts _
    ann := fun _ _ => h _
    lam := fun _ _ => h _
    tapp := fun _ _ _ => h _
    notArrow := fun _ _ _ _ => h _
    notForall := fun _ _ _ _ => h _
    clash := fun _ _ => h _
    parameter := fun _ _ _ _ _ => h _
    mismatch := fun _ _ _ _ _ => h _ }

theorem Typing.of_inferNormal {o : Options} (hD : D.Typing place same fun _ => o)
    (hfault : ∀ c, D.Fault c) {r : Expr} (hr : D.At place [] r) {c : Int} {tr : Trace} {t : Ty}
    (h : r.inferNormal same o { supply := c, trace := tr } = .ok t s) :
    D.OfExpr [] r t ∧ ∃ u : Ty, u.NormalizesBy o t := by
  obtain ⟨ht, u, _, hu⟩ := (hD.inferNormal (.of_fault hfault o) hr c tr).settles.of_ok h
  exact ⟨ht, u, hu⟩

end Discipline

end Checker

end SystemFOmega
