import SystemFOmega.Proofs.Checker.Elaborate
import SystemFOmega.Proofs.Checker.Scoping

/-!
# Kind inference in a context

In a well-scoped context, elaboration from empty tables succeeds on a type over the names of the
context if and only if the type with all definitions expanded has a kind. Its result is then that
expansion without ascriptions, up to the names of binders, with the kind of every node; otherwise
the failure is a clash of kinds (`TypeExpr.elaborate_iff_kinded`).

A definition is elaborated at its use, below binders that are not there at its place, and what it
gives is put in as it stands. So the proof follows two things at once: the context as it is below
the binders, and the context as a whole, to which the tables belong (`Context.Below`).
-/

namespace SystemFOmega

open Run
open Function (update)
open Nameless (Kinded)

/-- What the names mean below some binders: what they stand for with ascriptions of kinds and
without, their kinds, and the references that belong to free names and their kinds. -/
structure View where
  env : Env
  bare : Env
  names : NameKinds
  refs : Kinds
  ref : Ref → Ref

/-- The names of a context as a whole. -/
def Context.view (Γ : Context) : View := ⟨Γ.env, Γ.bare.env, Γ.nameKinds, Γ.nameKinds.refs, id⟩

/-- The names below one more binder. -/
def View.bindType (V : View) (x : Name) (k : Kind) : View where
  env := V.env.bindType x
  bare := V.bare.bindType x
  names := update V.names x (some k)
  refs := V.refs.push k
  ref := Ref.lift V.ref ∘ Ref.close x

/-- `t` is the expansion of `u` without ascriptions, every node carries its kind, and the kind of
the root is the one of the expansion with ascriptions. -/
structure Ty.Infers (V : View) (u : TypeExpr) (t : Ty) : Prop where
  nameless : t.nameless.rename V.ref = u.bare.expand V.bare
  wellKinded : t.WellKinded V.names t.kind
  kinded : Kinded V.refs (u.expand V.env) t.kind

theorem Ty.Infers.of_name {V : View} {x y : Ident} {t : Ty} (h : t.Infers V (.var x))
    (e : x.name = y.name) : t.Infers V (.var y) := by
  have hexpand (ρ : Env) : (TypeExpr.var x).expand ρ = (TypeExpr.var y).expand ρ :=
    congrArg ρ.types e
  exact ⟨h.nameless.trans (hexpand V.bare), h.wellKinded, hexpand V.env ▸ h.kinded⟩

/-- The expansion of the type has a kind. -/
def TypeExpr.Kindable (V : View) (u : TypeExpr) : Prop := ∃ k, Kinded V.refs (u.expand V.env) k

/-- A clash of kinds on account of `u`, which has no kind. -/
structure TypeExpr.Clashes (V : View) (u : TypeExpr) (f : Failure) : Prop where
  code : f.diagnostic.code = .typeClash
  unkinded : ¬ u.Kindable V

/-! ## Below binders -/

/-- The types of a context stand for what they do in `ρ₀`, with references changed by `σ`. -/
structure Env.Below (Γ : Context) (σ : Ref → Ref) (ρ₀ ρ : Env) : Prop where
  kinds : ρ.kinds = ρ₀.kinds
  types {y : Name} : y ∈ Γ.types.keys → ρ.types y = (ρ₀.types y).rename σ

/-- `Γ'` is `Γ` below binders with names other than those of `Γ`, and `V` says what the names mean
there. A reference of `Γ` is `σ` of it there. -/
structure Context.Below (Γ Γ' : Context) (V : View) (σ : Ref → Ref) : Prop where
  kinds : Γ'.kinds = Γ.kinds
  types {y : Name} : y ∈ Γ.types.keys → Γ'.types.get? y = Γ.types.get? y
  env : Env.Below Γ σ Γ.env V.env
  bare : Env.Below Γ σ Γ.bare.env V.bare
  names (y : Name) : V.names y = V.refs (V.ref (.free y))
  refs (r : Ref) : V.refs (σ r) = Γ.nameKinds.refs r
  ref {y : Name} : y ∈ Γ.types.keys → V.ref (.free y) = σ (.free y)
  own {y : Name} {k : Kind} : y ∉ Γ.types.keys → V.names y = some k →
    Γ'.types.get? y = some (.bound k) ∧ V.env.types y = .var (V.ref (.free y)) ∧
      V.bare.types y = .var (V.ref (.free y))

variable {Γ Γ' : Context} {V V' : View} {σ : Ref → Ref} {s : Checker.State}

theorem Context.mem_keys_of_nameKinds {y : Name} {k : Kind} (h : Γ.nameKinds y = some k) :
    y ∈ Γ.types.keys := by
  rw [nameKinds] at h
  split at h
  · rename_i j hj
    exact List.mem_map.2 ⟨_, Table.mem_of_lookup hj, rfl⟩
  · cases h

theorem KindExpr.expand_of_kinds {ρ ρ' : Env} (h : ρ.kinds = ρ'.kinds) (k : KindExpr) :
    k.expand ρ = k.expand ρ' := by
  induction k with
  | star => rfl
  | var x => exact congrFun h x.name
  | arrow j k hj hk => rw [expand, expand, hj, hk]

theorem Env.Below.refl (Γ : Context) (ρ : Env) : Env.Below Γ id ρ ρ :=
  ⟨rfl, fun _ => (Nameless.rename_id _).symm⟩

theorem Env.Below.bindType {ρ₀ ρ : Env} {x : Name} (h : Env.Below Γ σ ρ₀ ρ)
    (hx : x ∉ Γ.types.keys) : Env.Below Γ (Ref.shift ∘ σ) ρ₀ (ρ.bindType x) where
  kinds := h.kinds
  types {y} hy := by
    have hyx : y ≠ x := fun e => hx (e ▸ hy)
    simp only [Env.bindType, Function.update_of_ne hyx, h.types hy]
    exact Nameless.rename_rename _ _ _

namespace Context.Below

theorem refl (Γ : Context) : Γ.Below Γ Γ.view id where
  kinds := rfl
  types _ := rfl
  env := .refl Γ Γ.env
  bare := .refl Γ Γ.bare.env
  names _ := rfl
  refs _ := rfl
  ref _ := rfl
  own hy h := absurd (mem_keys_of_nameKinds h) hy

/-- Below binders, the names of the context may still be taken as in the context as a whole. -/
theorem outer (h : Γ.Below Γ' V σ) : Γ.Below Γ' Γ.view id :=
  { refl Γ with
    kinds := h.kinds
    types := h.types
    own := fun hy hk => absurd (mem_keys_of_nameKinds hk) hy }

theorem bindType {x : Name} (h : Γ.Below Γ' V σ) (hx : x ∉ Γ.types.keys) (k : Kind) :
    Γ.Below (Γ'.bindType x k) (V.bindType x k) (Ref.shift ∘ σ) := by
  have href {y : Name} (hyx : y ≠ x) :
      (Ref.lift V.ref ∘ Ref.close x) (.free y) = (V.ref (.free y)).shift := by
    rw [Function.comp_apply, Ref.close_of_ne fun e => hyx (Ref.free.inj e), Ref.lift_shift]
  refine ⟨h.kinds, fun {y} hy => ?_, h.env.bindType hx, h.bare.bindType hx,
    Ty.WellKinded.refs_push h.names x k, fun r => (Kinds.push_shift _ _ _).trans (h.refs r),
    fun {y} hy => ?_, fun {y l} hy hl => ?_⟩
  · have hxy : x ≠ y := fun e => hx (e ▸ hy)
    rw [Context.bindType, Table.get?_insert, if_neg hxy, h.types hy]
  · have hyx : y ≠ x := fun e => hx (e ▸ hy)
    exact (href hyx).trans (congrArg Ref.shift (h.ref hy))
  · by_cases hyx : y = x
    · subst hyx
      obtain rfl : k = l := by simpa [View.bindType] using hl
      simp [Context.bindType, View.bindType, Env.bindType]
    · have hl' : V.names y = some l := by simpa [View.bindType, hyx] using hl
      obtain ⟨hget, henv, hbare⟩ := h.own hy hl'
      simp only [Context.bindType, View.bindType, Env.bindType, Table.get?_insert,
        if_neg (Ne.symm hyx), Function.update_of_ne hyx, henv, hbare, href hyx]
      exact ⟨hget, rfl, rfl⟩

theorem expand_kind (h : Γ.Below Γ' V σ) (k : KindExpr) : k.expand V.env = k.expand Γ.env :=
  k.expand_of_kinds h.env.kinds

theorem expand_bare_kind (h : Γ.Below Γ' V σ) (k : KindExpr) :
    k.expand V.bare = k.expand V.env := by
  have hbare : Γ.bare.env.kinds = Γ.env.kinds := by
    rw [kinds_env, kinds_env]
    rfl
  exact k.expand_of_kinds (h.bare.kinds.trans (hbare.trans h.env.kinds.symm))

/-- What stands for a type of the context does so below binders too: its free names are those of
the context. -/
theorem infers (h : Γ.Below Γ' V σ) {x : Ident} {t : Ty} (hx : x.name ∈ Γ.types.keys)
    (ht : t.Infers Γ.view (.var x)) : t.Infers V (.var x) := by
  have hfree {y : Name} (hy : y ∈ t.freeVars) : V.ref (.free y) = σ (.free y) := by
    obtain ⟨k, hk⟩ := ht.wellKinded.exists_kind hy
    exact h.ref (mem_keys_of_nameKinds hk)
  refine ⟨?_, ?_, ?_⟩
  · have hsame : t.nameless.rename V.ref = t.nameless.rename σ := by
      refine Nameless.rename_congr fun r hr => ?_
      obtain ⟨y, hy, rfl⟩ := Ty.uses_nameless.1 hr
      exact hfree hy
    have hbase : t.nameless = Γ.bare.env.types x.name := by
      rw [← Nameless.rename_id t.nameless]
      exact ht.nameless
    rw [hsame, hbase]
    exact (h.bare.types hx).symm
  · refine ht.wellKinded.congr fun y hy => ?_
    rw [h.names, hfree hy, h.refs]
    rfl
  · rw [TypeExpr.expand, h.env.types hx]
    exact ht.kinded.rename fun r l _ hr => (h.refs r).trans hr

theorem clashes (h : Γ.Below Γ' V σ) {x : Ident} {f : Failure} (hx : x.name ∈ Γ.types.keys)
    (hf : (TypeExpr.var x).Clashes Γ.view f) : (TypeExpr.var x).Clashes V f := by
  refine ⟨hf.code, fun hk => hf.unkinded ?_⟩
  obtain ⟨k, hk⟩ := hk
  rw [TypeExpr.expand, h.env.types hx] at hk
  exact ⟨k, hk.of_rename h.refs⟩

end Context.Below

/-! ## Definitions -/

namespace Context.WellScoped

variable {es es' : List (Name × Entry Kind TypeExpr)} {x : Name}

theorem types_split (hΓ : Γ.WellScoped) {e : Entry Kind TypeExpr}
    (he : Γ.types.entries = es ++ (x, e) :: es') :
    InOrder (fun xs e => e.Over Γ xs) [] (es ++ (x, e) :: es') := he ▸ hΓ.types

theorem get?_types (hΓ : Γ.WellScoped) {e : Entry Kind TypeExpr}
    (he : Γ.types.entries = es ++ (x, e) :: es') : Γ.types.get? x = some e := by
  rw [Table.get?, he]
  exact (hΓ.types_split he).lookup_eq

theorem env_types (hΓ : Γ.WellScoped) {e : Entry Kind TypeExpr}
    (he : Γ.types.entries = es ++ (x, e) :: es') :
    Γ.env.types x = Γ.env.entryType x e ∧
      Γ.bare.env.types x = Γ.bare.env.entryType x e.bare := by
  have horder := hΓ.types_split he
  have hafter := horder.not_mem_after
  have hfree : ∀ t, e = .defined t → ∀ y ∈ t.free .type, y ∉ x :: es'.map Prod.fst := by
    rintro t rfl y hy
    obtain ⟨h, -⟩ | ⟨-, h⟩ := horder.at_split.free hy
    · cases h
    · exact horder.not_mem_of_before h
  refine ⟨Context.env_types he hafter hfree, ?_⟩
  have hsplit : Γ.bare.types.entries = (es.map fun e => (e.1, e.2.bare)) ++ (x, e.bare) ::
      es'.map fun e => (e.1, e.2.bare) := by simp [Context.bare, he]
  have hkeys : (es'.map fun e => (e.1, e.2.bare)).map Prod.fst = es'.map Prod.fst := by simp
  refine Context.env_types hsplit (hkeys ▸ hafter) ?_
  rintro t ht y hy
  rw [hkeys]
  cases e with
  | bound k => cases ht
  | defined u =>
    obtain rfl := Entry.defined.inj ht
    exact hfree u rfl y (TypeExpr.free_bare hy)

/-- A bound type stands for itself. -/
theorem infers_bound (hΓ : Γ.WellScoped) {y : Ident} {k : Kind}
    (he : Γ.types.entries = es ++ (y.name, .bound k) :: es') :
    (Ty.var y.name k).Infers Γ.view (.var y) := by
  obtain ⟨henv, hbare⟩ := hΓ.env_types he
  have hk : Γ.nameKinds y.name = some k := by rw [nameKinds, hΓ.get?_types he]
  refine ⟨hbare.symm, .var hk, ?_⟩
  have hexpand : (TypeExpr.var y).expand Γ.view.env = .var (.free y.name) := henv
  rw [hexpand]
  exact .var hk

/-- A defined type stands for what its definition stands for. -/
theorem infers_defined (hΓ : Γ.WellScoped) {y : Ident} {u : TypeExpr} {t : Ty}
    (he : Γ.types.entries = es ++ (y.name, .defined u) :: es') (ht : t.Infers Γ.view u) :
    t.Infers Γ.view (.var y) := by
  obtain ⟨henv, hbare⟩ := hΓ.env_types he
  have hexpand : (TypeExpr.var y).expand Γ.view.env = u.expand Γ.view.env := henv
  refine ⟨ht.nameless.trans hbare.symm, ht.wellKinded, ?_⟩
  rw [hexpand]
  exact ht.kinded

theorem clashes_defined (hΓ : Γ.WellScoped) {y : Ident} {u : TypeExpr} {f : Failure}
    (he : Γ.types.entries = es ++ (y.name, .defined u) :: es') (hf : u.Clashes Γ.view f) :
    (TypeExpr.var y).Clashes Γ.view f := by
  have hexpand : (TypeExpr.var y).expand Γ.view.env = u.expand Γ.view.env := (hΓ.env_types he).1
  refine ⟨hf.code, ?_⟩
  rw [TypeExpr.Kindable, hexpand]
  exact hf.unkinded

end Context.WellScoped

/-! ## Tables -/

/-- The tables hold what the names of the context stand for. -/
structure Checker.State.Holds (Γ : Context) (s : Checker.State) : Prop where
  kinds {x : Name} {k : Kind} : s.kinds.get? x = some k → k = Γ.env.kinds x
  types {x : Name} {t : Ty} : s.types.get? x = some t →
    ∀ y : Ident, y.name = x → t.Infers Γ.view (.var y)

theorem Check.keepKind_holds (o : Checker.Options) (hs : s.Holds Γ) {x : Name} {k : Kind}
    (hk : k = Γ.env.kinds x) :
    Ends (Check.keepKind o x k) s (fun _ s' => s'.Holds Γ) False := by
  show Checker.State.Holds Γ (if o.cache then _ else _)
  split
  · exact ⟨Table.forall_insert hs.kinds hk, hs.types⟩
  · exact hs

theorem Check.keepType_holds (o : Checker.Options) (hs : s.Holds Γ) {x : Ident} {t : Ty}
    (ht : t.Infers Γ.view (.var x)) :
    Ends (Check.keepType o x.name t) s (fun _ s' => s'.Holds Γ) False := by
  show Checker.State.Holds Γ (if o.cache then _ else _)
  split
  · exact ⟨hs.kinds, Table.forall_insert hs.types fun y hy => ht.of_name hy.symm⟩
  · exact hs

/-! ## Kinds -/

theorem Table.total_split {β : Type} (f : β → Nat) (es es' : List (Name × β)) (x : Name) (b : β) :
    Table.total f ⟨es ++ (x, b) :: es'⟩ = Table.total f ⟨es⟩ + f b + Table.total f ⟨es'⟩ := by
  induction es with
  | nil => simp [Table.total]
  | cons e es ih =>
    simp only [Table.total, List.cons_append, List.foldr_cons] at ih ⊢
    omega

/-- A kind over the first kinds of the context elaborates to its expansion. -/
theorem KindExpr.elaborate_expand (o : Checker.Options) (hΓ : Γ.WellScoped)
    (hΓ' : Γ'.kinds = Γ.kinds) {n : Nat} {k : KindExpr} {es : List (Name × KindExpr)}
    (hes : es <+: Γ.kinds.entries) (hk : k.Over (es.map Prod.fst)) (hs : s.Holds Γ)
    (hn : k.size + Table.total size ⟨es⟩ ≤ n) :
    Ends (k.elaborate o n Γ') s (fun j s' => j = k.expand Γ.env ∧ s'.Holds Γ) False := by
  induction n generalizing k es s with
  | zero => cases k <;> simp [size] at hn
  | succ n ih =>
    cases k with
    | star => exact .pure ⟨rfl, hs⟩
    | arrow j k =>
      simp only [size] at hn
      refine .bind (ih hes hk.1 hs (by omega)) fun j' s₁ h₁ => ?_
      refine .bind (ih hes hk.2 h₁.2 (by omega)) fun k' s₂ h₂ => ?_
      exact .pure ⟨by rw [h₁.1, h₂.1]; rfl, h₂.2⟩
    | var x =>
      refine .bind .get fun st s' h => ?_
      obtain ⟨rfl, rfl⟩ := h
      split
      · rename_i j hj
        exact .pure ⟨hs.kinds hj, hs⟩
      · obtain ⟨es₁, k, es₂, rfl⟩ := exists_split hk
        obtain ⟨rest, hrest⟩ := hes
        rw [List.append_assoc, List.cons_append] at hrest
        have horder := hΓ.kinds
        rw [← hrest] at horder
        have hget : Γ'.kinds.get? x.name = some k := by
          rw [hΓ', Table.get?, ← hrest]
          exact horder.lookup_eq
        have hdef := Context.env_kinds hΓ hrest.symm
        simp only [size, Table.total_split] at hn
        refine .bind (Check.found_ends (Context.find_eq hget)) fun k' s' h => ?_
        obtain ⟨rfl, rfl⟩ := h
        refine .bind (ih ⟨_, hrest⟩ horder.at_split hs (by omega)) fun j s₁ h₁ => ?_
        obtain ⟨rfl, h₁⟩ := h₁
        refine .bind (Check.keepKind_holds o h₁ hdef.symm) fun _ s₂ h₂ => ?_
        exact .pure ⟨hdef.symm, h₂⟩

/-! ## Types -/

theorem Check.ofKind_settles (k : Kind) (t : Ty) :
    Settles (Check.ofKind k t) s (fun t' s' => t' = t ∧ t.kind = k ∧ s' = s)
      (fun f => f.diagnostic.code = .typeClash ∧ t.kind ≠ k) := by
  unfold Check.ofKind Check.agree Kind.conform
  by_cases h : t.kind = k
  · rw [if_pos h]
    exact .pure ⟨rfl, h, rfl⟩
  · rw [if_neg h]
    exact .throw ⟨rfl, h⟩

/-- An elaboration with a check of the kind. -/
theorem Check.ofKind_infers {m : Check Ty} {u : TypeExpr} {k : Kind}
    (h : Settles m s (fun t s' => t.Infers V u ∧ s'.Holds Γ) (u.Clashes V)) :
    Settles (m >>= Check.ofKind k) s (fun t s' => t.Infers V u ∧ t.kind = k ∧ s'.Holds Γ)
      (fun f => f.diagnostic.code = .typeClash ∧ ¬ Kinded V.refs (u.expand V.env) k) := by
  refine .bind (h.mono (fun _ _ h => h) fun f hf => ?_) fun t s' ht => ?_
  · exact ⟨hf.code, fun hk => hf.unkinded ⟨k, hk⟩⟩
  · refine (Check.ofKind_settles k t).mono (fun t' s'' h => ?_) fun f hf => ?_
    · obtain ⟨rfl, hk, rfl⟩ := h
      exact ⟨ht.1, hk, ht.2⟩
    · exact ⟨hf.1, fun hk => hf.2 (ht.1.kinded.unique hk)⟩

/-- The same with what comes after it. -/
theorem Check.ofKind_infers_then {α : Type} {m : Check Ty} {g : Ty → Check α} {u w : TypeExpr}
    {k : Kind} {R : α → Checker.State → Prop}
    (h : Settles m s (fun t s' => t.Infers V u ∧ s'.Holds Γ) (u.Clashes V))
    (hg : ∀ t s', t.Infers V u → t.kind = k → s'.Holds Γ → Settles (g t) s' R (w.Clashes V'))
    (hw : w.Kindable V' → Kinded V.refs (u.expand V.env) k) :
    Settles (m >>= fun t => Check.ofKind k t >>= g) s R (w.Clashes V') := by
  rw [← bind_assoc]
  refine .bind ((Check.ofKind_infers h).mono (fun _ _ h => h) fun f hf => ?_) fun t s' ht => ?_
  · exact ⟨hf.1, fun hk => hf.2 (hw hk)⟩
  · exact hg t s' ht.1 ht.2.1 ht.2.2

namespace Ty.Infers

variable {t u : TypeExpr} {t' u' : Ty}

theorem arrow (ht : t'.Infers V t) (hu : u'.Infers V u) (hst : t'.kind = .star)
    (hsu : u'.kind = .star) : (Ty.arrow t' u' .star).Infers V (.arrow t u) := by
  obtain ⟨hnt, hwt, hkt⟩ := ht
  obtain ⟨hnu, hwu, hku⟩ := hu
  rw [hst] at hwt hkt
  rw [hsu] at hwu hku
  exact ⟨congrArg₂ Nameless.arrow hnt hnu, .arrow hwt hwu, .arrow hkt hku⟩

/-- The nameless form of an abstraction, with the references of the scope around it. -/
theorem nameless_bind (b : Binder) (x : Name) (k l : Kind) (t : Ty) :
    (Ty.bind b x k t l).nameless.rename V.ref =
      .bind b k (t.nameless.rename (V.bindType x k).ref) := by
  simp only [Ty.nameless, Nameless.rename, Nameless.rename_rename]
  rfl

theorem all {x : Ident} {k : KindExpr} (hk : k.expand V.bare = k.expand V.env)
    (ht : t'.Infers (V.bindType x.name (k.expand V.env)) t) (hst : t'.kind = .star) :
    (Ty.bind .all x.name (k.expand V.env) t' .star).Infers V (.bind .all x k t) := by
  obtain ⟨hnt, hwt, hkt⟩ := ht
  rw [hst] at hwt hkt
  refine ⟨?_, .all hwt, .all hkt⟩
  rw [nameless_bind, hnt, TypeExpr.bare, TypeExpr.expand, hk]
  rfl

theorem lam {x : Ident} {k : KindExpr} (hk : k.expand V.bare = k.expand V.env)
    (ht : t'.Infers (V.bindType x.name (k.expand V.env)) t) :
    (Ty.bind .lam x.name (k.expand V.env) t' (.arrow (k.expand V.env) t'.kind)).Infers V
      (.bind .lam x k t) := by
  obtain ⟨hnt, hwt, hkt⟩ := ht
  refine ⟨?_, .lam hwt, .lam hkt⟩
  rw [nameless_bind, hnt, TypeExpr.bare, TypeExpr.expand, hk]
  rfl

theorem app {j k : Kind} (ht : t'.Infers V t) (hu : u'.Infers V u) (hkf : t'.kind = .arrow j k)
    (hka : u'.kind = j) : (Ty.app t' u' k).Infers V (.app t u) := by
  obtain ⟨hnt, hwt, hkt⟩ := ht
  obtain ⟨hnu, hwu, hku⟩ := hu
  rw [hkf] at hwt hkt
  rw [hka] at hwu hku
  exact ⟨congrArg₂ Nameless.app hnt hnu, .app hwt hwu, .app hkt hku⟩

theorem ascribe {k : KindExpr} (ht : t'.Infers V t) (hk : t'.kind = k.expand V.env) :
    t'.Infers V (.kinded t k) :=
  ⟨ht.nameless, ht.wellKinded, Nameless.kinded_ascribe_iff.2 ⟨hk, hk ▸ ht.kinded⟩⟩

end Ty.Infers

namespace TypeExpr.Kindable

variable {t u : TypeExpr} {x : Ident} {k : KindExpr}

theorem arrow_inv (h : (TypeExpr.arrow t u).Kindable V) :
    Kinded V.refs (t.expand V.env) .star ∧ Kinded V.refs (u.expand V.env) .star := by
  obtain ⟨_, h⟩ := h
  exact h.arrow_inv

theorem all_inv (h : (TypeExpr.bind .all x k t).Kindable V) :
    Kinded (V.refs.push (k.expand V.env)) (t.expand (V.env.bindType x.name)) .star := by
  obtain ⟨_, h⟩ := h
  exact h.all_inv

theorem lam_inv (h : (TypeExpr.bind .lam x k t).Kindable V) :
    t.Kindable (V.bindType x.name (k.expand V.env)) := by
  obtain ⟨_, h⟩ := h
  exact h.lam_inv

theorem app_inv (h : (TypeExpr.app t u).Kindable V) :
    ∃ j l, Kinded V.refs (t.expand V.env) (.arrow j l) ∧ Kinded V.refs (u.expand V.env) j := by
  obtain ⟨l, h⟩ := h
  obtain ⟨j, ht, hu⟩ := h.app_inv
  exact ⟨j, l, ht, hu⟩

theorem kinded_inv (h : (TypeExpr.kinded t k).Kindable V) :
    Kinded V.refs (t.expand V.env) (k.expand V.env) := by
  obtain ⟨_, h⟩ := h
  exact (Nameless.kinded_ascribe_iff.1 h).2

end TypeExpr.Kindable

/-- A type over the first types of the context and the binders around it. -/
theorem TypeExpr.elaborate_infers (o : Checker.Options) (hΓ : Γ.WellScoped) {n : Nat}
    {u : TypeExpr} {xs : List Name} {es : List (Name × Entry Kind TypeExpr)}
    (hV : Γ.Below Γ' V σ) (hes : es <+: Γ.types.entries) (hu : u.Over Γ xs)
    (hxs : ∀ y ∈ xs, y ∈ es.map Prod.fst ∨ y ∉ Γ.types.keys ∧ ∃ k, V.names y = some k)
    (hs : s.Holds Γ)
    (hn : u.size + Table.total (Entry.size size) ⟨es⟩ + Γ.kinds.total KindExpr.size ≤ n) :
    Settles (u.elaborate o n Γ') s (fun t s' => t.Infers V u ∧ s'.Holds Γ) (u.Clashes V) := by
  induction n generalizing u es xs Γ' V σ s with
  | zero => cases u <;> simp [size] at hn
  | succ n ih =>
    have hkind {k : KindExpr} {s : Checker.State} (hk : k.Over Γ.kinds.keys) (hs : s.Holds Γ)
        (hn : k.size + Γ.kinds.total KindExpr.size ≤ n) :
        Ends (k.elaborate o n Γ') s (fun j s' => j = k.expand V.env ∧ s'.Holds Γ) False := by
      rw [hV.expand_kind]
      exact k.elaborate_expand o hΓ hV.kinds List.prefix_rfl hk hs hn
    cases u with
    | int => exact .pure ⟨⟨rfl, .int, .int⟩, hs⟩
    | var x =>
      obtain hx | ⟨hx, k, hk⟩ := hxs x.name hu
      · obtain ⟨es₁, e, es₂, rfl⟩ := exists_split hx
        obtain ⟨rest, hrest⟩ := hes
        rw [List.append_assoc, List.cons_append] at hrest
        have hkey : x.name ∈ Γ.types.keys := by simp [Table.keys, ← hrest]
        have hget := (hV.types hkey).trans (hΓ.get?_types hrest.symm)
        refine .ends_bind (Check.found_ends (Context.find_eq hget)) fun e' s' h => ?_
        obtain ⟨rfl, rfl⟩ := h
        cases e' with
        | bound k => exact .pure ⟨hV.infers hkey (hΓ.infers_bound hrest.symm), hs⟩
        | defined u =>
          refine .ends_bind .get fun st s' h => ?_
          obtain ⟨rfl, rfl⟩ := h
          split
          · rename_i t ht
            exact .pure ⟨hV.infers hkey (hs.types ht x rfl), hs⟩
          · -- the definition is elaborated below the binders of the use, where its names mean
            -- what they do in the context as a whole
            have hdef := (hΓ.types_split hrest.symm).at_split
            simp only [size, Table.total_split, Entry.size] at hn
            have hrec := ih hV.outer ⟨_, hrest⟩ hdef (fun y hy => .inl hy) hs (by omega)
            refine .bind (hrec.mono (fun _ _ h => h) fun f hf => ?_) fun t s₁ h₁ => ?_
            · exact hV.clashes hkey (hΓ.clashes_defined hrest.symm hf)
            · have ht := hΓ.infers_defined hrest.symm h₁.1
              refine .ends_bind (Check.keepType_holds o h₁.2 ht) fun _ s₂ h₂ => ?_
              exact .pure ⟨hV.infers hkey ht, h₂⟩
      · obtain ⟨hget, henv, hbare⟩ := hV.own hx hk
        refine .ends_bind (Check.found_ends (Context.find_eq hget)) fun e s' h => ?_
        obtain ⟨rfl, rfl⟩ := h
        have hexpand : (TypeExpr.var x).expand V.env = .var (V.ref (.free x.name)) := henv
        refine .pure ⟨⟨hbare.symm, .var hk, ?_⟩, hs⟩
        rw [hexpand]
        exact .var ((hV.names x.name).symm.trans hk)
    | arrow t u =>
      simp only [size] at hn
      refine Check.ofKind_infers_then (ih hV hes hu.1 hxs hs (by omega))
        (fun t' s₁ ht hst hs₁ => ?_) fun hk => hk.arrow_inv.1
      refine Check.ofKind_infers_then (ih hV hes hu.2 hxs hs₁ (by omega))
        (fun u' s₂ hu hsu hs₂ => ?_) fun hk => hk.arrow_inv.2
      exact .pure ⟨ht.arrow hu hst hsu, hs₂⟩
    | bind b x k t =>
      simp only [size] at hn
      have hxs' : ∀ y ∈ x.name :: xs, y ∈ es.map Prod.fst ∨ y ∉ Γ.types.keys ∧
          ∃ l, (V.bindType x.name (k.expand V.env)).names y = some l := by
        intro y hy
        by_cases hyx : y = x.name
        · subst hyx
          exact .inr ⟨hu.2.1, _, Function.update_self ..⟩
        · obtain h | ⟨hy, l, hl⟩ := hxs y ((List.mem_cons.1 hy).resolve_left hyx)
          · exact .inl h
          · exact .inr ⟨hy, l, (Function.update_of_ne hyx ..).trans hl⟩
      have hbody {s₁ : Checker.State} (hs₁ : s₁.Holds Γ) :=
        ih (hV.bindType hu.2.1 (k.expand V.env)) hes hu.2.2 hxs' hs₁ (by omega)
      have hbare := hV.expand_bare_kind k
      cases b with
      | all =>
        refine .ends_bind (hkind hu.1 hs (by omega)) fun k' s₁ hk => ?_
        obtain ⟨rfl, hs₁⟩ := hk
        refine Check.ofKind_infers_then (hbody hs₁) (fun t' s₂ ht hst hs₂ => ?_)
          fun hk => hk.all_inv
        exact .pure ⟨ht.all hbare hst, hs₂⟩
      | lam =>
        refine .ends_bind (hkind hu.1 hs (by omega)) fun k' s₁ hk => ?_
        obtain ⟨rfl, hs₁⟩ := hk
        refine .bind ((hbody hs₁).mono (fun _ _ h => h) fun f hf => ?_) fun t' s₂ ht => ?_
        · exact ⟨hf.code, fun hk => hf.unkinded hk.lam_inv⟩
        · exact .pure ⟨ht.1.lam hbare, ht.2⟩
    | app f a =>
      simp only [size] at hn
      refine .bind ((ih hV hes hu.1 hxs hs (by omega)).mono (fun _ _ h => h) fun e he => ?_)
        fun f' s₁ hf => ?_
      · refine ⟨he.code, fun hk => he.unkinded ?_⟩
        obtain ⟨_, _, hf, -⟩ := hk.app_inv
        exact ⟨_, hf⟩
      split
      · rename_i hstar
        refine .throw ⟨rfl, fun hk => ?_⟩
        obtain ⟨_, _, hf', -⟩ := hk.app_inv
        cases hstar.symm.trans (hf.1.kinded.unique hf')
      · rename_i j k harrow
        refine Check.ofKind_infers_then (ih hV hes hu.2 hxs hf.2 (by omega))
          (fun a' s₂ ha hj hs₂ => ?_) fun hk => ?_
        · exact .pure ⟨hf.1.app ha harrow hj, hs₂⟩
        · obtain ⟨_, _, hf', ha'⟩ := hk.app_inv
          obtain ⟨rfl, -⟩ := Kind.arrow.inj (harrow.symm.trans (hf.1.kinded.unique hf'))
          exact ha'
    | kinded t k =>
      simp only [size] at hn
      refine .ends_bind (hkind hu.2 hs (by omega)) fun k' s₁ hk => ?_
      obtain ⟨rfl, hs₁⟩ := hk
      refine (Check.ofKind_infers (ih hV hes hu.1 hxs hs₁ (by omega))).mono (fun t' s₂ ht => ?_)
        fun f hf => ?_
      · exact ⟨ht.1.ascribe ht.2.1, ht.2.2⟩
      · exact ⟨hf.1, fun hk => hf.2 hk.kinded_inv⟩

/-- Kind inference decides kinding. -/
theorem TypeExpr.elaborate_iff_kinded (Γ : Context) (u : TypeExpr) (hΓ : Γ.WellScoped)
    (hu : u.Over Γ Γ.types.keys) (o : Checker.Options) (s : Checker.State)
    (hs : s.kinds = {} ∧ s.types = {}) (n : Nat) (hn : u.size + Γ.size ≤ n) :
    ((∃ t s', u.elaborate o n Γ s = .ok t s') ↔
      ∃ k, Kinded Γ.nameKinds.refs (u.expand Γ.env) k) ∧
    (∀ t s', u.elaborate o n Γ s = .ok t s' →
      t.nameless = u.bare.expand Γ.bare.env ∧ t.WellKinded Γ.nameKinds t.kind ∧
        Kinded Γ.nameKinds.refs (u.expand Γ.env) t.kind) ∧
    ∀ f s', u.elaborate o n Γ s = .error f s' → f.diagnostic.code = .typeClash := by
  have hholds : s.Holds Γ := by
    refine ⟨fun {x k} h => ?_, fun {x t} h => ?_⟩
    · rw [hs.1] at h
      cases h
    · rw [hs.2] at h
      cases h
  have hsize : u.size + Γ.types.total (Entry.size size) + Γ.kinds.total KindExpr.size ≤ n := by
    unfold Context.size at hn
    omega
  have hrun := elaborate_infers o hΓ (.refl Γ) List.prefix_rfl hu (fun y hy => .inl hy) hholds hsize
  have hok {t : Ty} {s' : Checker.State} (h : u.elaborate o n Γ s = .ok t s') :
      t.Infers Γ.view u := (hrun.of_ok h).1
  refine ⟨⟨?_, fun hk => ?_⟩, fun t s' h => ?_, fun f s' h => (hrun.of_error h).code⟩
  · rintro ⟨t, s', h⟩
    exact ⟨t.kind, (hok h).kinded⟩
  · cases h : u.elaborate o n Γ s with
    | ok t s' => exact ⟨t, s', rfl⟩
    | error f s' => exact absurd hk (hrun.of_error h).unkinded
  · exact ⟨(Nameless.rename_id _).symm.trans (hok h).nameless, (hok h).wellKinded, (hok h).kinded⟩

/-- An operator that is defined with an ascription is applied below two binders of one name, which
its definition has too. Applied to itself it has no kind. -/
theorem TypeExpr.elaborate_iff_kinded_operator :
    let Op : Ident := { name := ⟨"Op", 0⟩ }
    let A : Ident := { name := ⟨"A", 0⟩ }
    let F : Ident := { name := ⟨"F", 0⟩ }
    let X : Ident := { name := ⟨"X", 0⟩ }
    let operator := TypeExpr.kinded (.bind .lam X .star (.arrow (.var A) (.var X))) (.var Op)
    let Γ : Context :=
      { types := ⟨[(A.name, .bound .star), (F.name, .defined operator)]⟩
        kinds := ⟨[(Op.name, .arrow .star .star)]⟩ }
    let applied := TypeExpr.bind .lam X (.var Op) (.bind .all X .star (.app (.var F) (.var X)))
    (∃ k, Kinded Γ.nameKinds.refs (applied.expand Γ.env) k) ∧
      ¬ ∃ k, Kinded Γ.nameKinds.refs ((TypeExpr.app (.var F) (.var F)).expand Γ.env) k := by
  intro Op A F X operator Γ applied
  have hΓ : Γ.WellScoped := by decide
  have happlied : applied.Over Γ Γ.types.keys := by decide
  have hself : (TypeExpr.app (.var F) (.var F)).Over Γ Γ.types.keys := by decide
  refine ⟨?_, fun hk => ?_⟩
  · have hrun : ((applied.elaborate {} 100 Γ).run' {}).isSome = true := by decide +kernel
    obtain ⟨t, ht⟩ := Option.isSome_iff_exists.1 hrun
    obtain ⟨s, ht⟩ := run'_eq_some.1 ht
    have hiff := (elaborate_iff_kinded Γ applied hΓ happlied {} {} ⟨rfl, rfl⟩ 100 (by decide)).1
    exact hiff.1 ⟨t, s, ht⟩
  · have hrun : ((TypeExpr.app (.var F) (.var F)).elaborate {} 100 Γ).run' {} = none := by
      decide +kernel
    have hiff := (elaborate_iff_kinded Γ _ hΓ hself {} {} ⟨rfl, rfl⟩ 100 (by decide)).1
    obtain ⟨t, s, ht⟩ := hiff.2 hk
    rw [run'_eq_some.2 ⟨s, ht⟩] at hrun
    cases hrun

end SystemFOmega
