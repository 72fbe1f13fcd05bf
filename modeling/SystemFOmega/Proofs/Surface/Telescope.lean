import SystemFOmega.Proofs.Core.Nameless
import SystemFOmega.Proofs.Nameless.Typing
import SystemFOmega.Proofs.Surface.Expand

/-!
# Telescopes

The names in scope at a place of a program, the innermost first, each with the binder or definition
that has brought it there. A telescope gives the environment in which a phrase at that place is
expanded (`Telescope.env`) and the context in which the expansion is typed (`Telescope.kinds`,
`Telescope.types`). It also says to which binders the free names of a core type refer
(`Ty.within`).

In a program all of whose binders have different names, a name alone tells its telescope. Such a
map is what `Telescope.Placed` and `Expr.Placed` ask for. What holds at a place holds in every scope
inside of it (`Telescope.Embeds`).
-/

namespace SystemFOmega

/-- How a name has come into scope: by a binder or by a definition. -/
inductive Decl where
  | kindDef (x : Name) (k : KindExpr)
  | typeVar (x : Name) (k : KindExpr)
  | typeDef (x : Name) (t : TypeExpr)
  | exprVar (x : Name) (t : TypeExpr)
  | exprDef (x : Name) (e : Expr)

/-- The declarations around a place of a program, the innermost one first. -/
abbrev Telescope := List Decl

namespace Decl

/-- The name that is declared. -/
def name : Decl → Name
  | kindDef x _ | typeVar x _ | typeDef x _ | exprVar x _ | exprDef x _ => x

/-- The level of the name. -/
def level : Decl → Level
  | kindDef _ _ => .kind
  | typeVar _ _ | typeDef _ _ => .type
  | exprVar _ _ | exprDef _ _ => .expr

/-- The size of a definition. -/
def weight : Decl → Nat
  | kindDef _ k => k.size
  | typeDef _ t => t.size
  | exprDef _ e => e.size
  | typeVar _ _ | exprVar _ _ => 0

/-- References to types from outside the declaration, seen from inside. -/
def typeShift : Decl → Ref → Ref
  | typeVar _ _ => Ref.shift
  | _ => id

/-- References to values from outside the declaration, seen from inside. -/
def exprShift : Decl → Ref → Ref
  | exprVar _ _ => Ref.shift
  | _ => id

end Decl

/-- The environment inside a declaration. -/
def Env.extend (ρ : Env) : Decl → Env
  | .kindDef x k => ρ.defineKind x (k.expand ρ)
  | .typeVar x _ => ρ.bindType x
  | .typeDef x t => ρ.defineType x (t.expand ρ)
  | .exprVar x _ => ρ.bindExpr x
  | .exprDef x e => ρ.defineExpr x (e.expand ρ)

namespace Telescope

/-- The names in scope. -/
def names (S : Telescope) : List Name := S.map Decl.name

/-- The size of all definitions. -/
def weight : Telescope → Nat
  | [] => 0
  | d :: S => d.weight + weight S

/-- What the names in scope stand for. -/
def env : Telescope → Env
  | [] => Env.empty
  | d :: S => (env S).extend d

/-- The kinds of the type variables in scope, by how many of them are further inside. -/
def kinds : Telescope → Kinds
  | [] => Kinds.empty
  | .typeVar _ k :: S => (kinds S).push (k.expand (env S))
  | _ :: S => kinds S

/-- The types of the values in scope, by how many of them are further inside. -/
def types : Telescope → Types
  | [] => Types.empty
  | .typeVar _ _ :: S => (types S).shift
  | .exprVar _ t :: S => (types S).push (t.expand (env S))
  | _ :: S => types S

/-- The name `x` is in scope at the level `l`. -/
def Has (S : Telescope) (l : Level) (x : Name) : Prop :=
  ∃ d S', d.level = l ∧ d.name = x ∧ d :: S' <:+ S

/-- The binders to which free names of types refer. -/
def ref : Telescope → Ref → Ref
  | [] => id
  | .typeVar x _ :: S => Ref.lift (ref S) ∘ Ref.close x
  | _ :: S => ref S

end Telescope

/-- A core type at a place, without names. -/
def Ty.within (S : Telescope) (t : Ty) : Nameless := t.nameless.rename S.ref

namespace Ty

theorem within_nil (t : Ty) : t.within [] = t.nameless := Nameless.rename_id _

/-- The body of a binder is inside of it. -/
theorem within_bind (S : Telescope) (b : Binder) (x : Name) (xk : Kind) (t : Ty) (k : Kind)
    (j : KindExpr) :
    (Ty.bind b x xk t k).within S = .bind b xk (t.within (.typeVar x j :: S)) := by
  simp only [within, nameless, Nameless.rename, Nameless.rename_rename, Telescope.ref]

end Ty

/-- Names in a telescope are told apart by their references. -/
theorem Telescope.ref_injective (S : Telescope) : Function.Injective S.ref := by
  induction S with
  | nil => exact Function.injective_id
  | cons d S ih =>
    cases d with
    | typeVar x k => exact fun r s h => Ref.close_injective x (Ref.lift_injective ih h)
    | _ => exact ih

/-- The free names of a core type with a kind are in scope. -/
theorem Ty.freeVars_subset {S : Telescope} {t : Ty} {k : Kind}
    (h : Nameless.Kinded S.kinds (t.within S) k) : t.freeVars ⊆ S.names := by
  intro x hx
  have hu : (t.within S).Uses (S.ref (.free x)) :=
    Nameless.uses_rename.2 ⟨_, uses_nameless_free.2 hx, rfl⟩
  obtain ⟨l, hl⟩ := h.exists_of_uses hu
  clear h hu
  induction S with
  | nil => cases hl
  | cons d S ih =>
    by_cases hd : x = d.name
    · exact hd ▸ List.mem_cons_self
    · refine .tail _ (ih ?_)
      cases d with
      | typeVar y j =>
        have hne : Ref.free x ≠ .free y := fun e => hd (Ref.free.inj e)
        simpa [Telescope.kinds, Telescope.ref, Ref.close_of_ne hne] using hl
      | _ => exact hl

/-! ## Programs with different names for different binders -/

section Placed

/-- The phrase is at the place `S`: its references are in scope. -/
def KindExpr.Placed (S : Telescope) : KindExpr → Prop
  | .star => True
  | .var x => S.Has .kind x.name
  | .arrow j k => j.Placed S ∧ k.Placed S

variable (place : Name → Telescope)

/-- The phrase is at the place `S`: its references are in scope, and its binders are where `place`
says. -/
def TypeExpr.Placed : Telescope → TypeExpr → Prop
  | _, .int => True
  | S, .var x => S.Has .type x.name
  | S, .arrow s t => s.Placed S ∧ t.Placed S
  | S, .bind _ x k t =>
    k.Placed S ∧ place x.name = .typeVar x.name k :: S ∧ t.Placed (.typeVar x.name k :: S)
  | S, .app f a => f.Placed S ∧ a.Placed S
  | S, .kinded t k => t.Placed S ∧ k.Placed S

/-- Every reference is to a name in scope, and every binder is where `place` says that its name is
declared. -/
def Expr.Placed : Telescope → Expr → Prop
  | _, .lit _ _ => True
  | S, .var x _ => S.Has .expr x.name
  | S, .lam x t e _ =>
    t.Placed place S ∧ place x.name = .exprVar x.name t :: S ∧ e.Placed (.exprVar x.name t :: S)
  | S, .app f a _ => f.Placed S ∧ a.Placed S
  | S, .tlam x k e _ =>
    k.Placed S ∧ place x.name = .typeVar x.name k :: S ∧ e.Placed (.typeVar x.name k :: S)
  | S, .tapp f t _ => f.Placed S ∧ t.Placed place S
  | S, .ann e t _ => e.Placed S ∧ t.Placed place S
  | S, .letIn x v e _ =>
    v.Placed S ∧ place x.name = .exprDef x.name v :: S ∧ e.Placed (.exprDef x.name v :: S)
  | S, .typeIn x v e _ =>
    v.Placed place S ∧ place x.name = .typeDef x.name v :: S ∧ e.Placed (.typeDef x.name v :: S)
  | S, .kindIn x v e _ =>
    v.Placed S ∧ place x.name = .kindDef x.name v :: S ∧ e.Placed (.kindDef x.name v :: S)

/-- The phrase of the declaration is at the place `S`. -/
def Decl.Placed (S : Telescope) : Decl → Prop
  | .kindDef _ k | .typeVar _ k => k.Placed S
  | .typeDef _ t | .exprVar _ t => t.Placed place S
  | .exprDef _ e => e.Placed place S

/-- Every declaration is where `place` says, with its phrase outside of it. -/
def Telescope.Placed : Telescope → Prop
  | [] => True
  | d :: S => d.Placed place S ∧ place d.name = d :: S ∧ Placed S

end Placed

/-! ## Names in scope -/

namespace Telescope

variable {place : Name → Telescope} {S S' : Telescope} {d : Decl}

theorem Has.mem {l : Level} {x : Name} (h : S.Has l x) : x ∈ S.names := by
  obtain ⟨d, S', -, rfl, hS⟩ := h
  exact List.mem_map_of_mem (hS.subset List.mem_cons_self)

theorem Has.cons_inv {l : Level} {x : Name} (h : Has (d :: S) l x) :
    (l = d.level ∧ x = d.name) ∨ S.Has l x := by
  obtain ⟨d', S', hl, hx, hS⟩ := h
  rcases List.suffix_cons_iff.1 hS with he | hS
  · obtain ⟨rfl, -⟩ := List.cons.inj he
    exact .inl ⟨hl.symm, hx.symm⟩
  · exact .inr ⟨d', S', hl, hx, hS⟩

/-- A name of the telescope is declared at some place of it. -/
theorem exists_suffix {x : Name} (h : x ∈ S.names) : ∃ d S', d.name = x ∧ d :: S' <:+ S := by
  induction S with
  | nil => cases h
  | cons d S ih =>
    rcases List.mem_cons.1 h with rfl | h
    · exact ⟨d, S, rfl, List.suffix_rfl⟩
    · obtain ⟨d', S', hd, hS⟩ := ih h
      exact ⟨d', S', hd, hS.trans (List.suffix_cons d S)⟩

/-- A telescope is placed with each of its outer parts. -/
theorem Placed.suffix (h : S.Placed place) (hS : S' <:+ S) : S'.Placed place := by
  induction S with
  | nil => rwa [List.suffix_nil.1 hS]
  | cons d S ih =>
    rcases List.suffix_cons_iff.1 hS with rfl | hS
    · exact h
    · exact ih h.2.2 hS

/-- A name is in scope once, where `place` says. -/
theorem Placed.place_eq (h : S.Placed place) (hS : d :: S' <:+ S) : place d.name = d :: S' :=
  (h.suffix hS).2.1

/-- A name that is placed inside a telescope is not one of it. -/
theorem Placed.not_mem (h : S.Placed place) {x : Name} (hx : place x = d :: S) :
    x ∉ S.names := by
  intro hmem
  obtain ⟨d', S', rfl, hS⟩ := exists_suffix hmem
  obtain ⟨-, rfl⟩ := List.cons.inj ((h.place_eq hS).symm.trans hx)
  exact absurd hS.length_le (by simp)

theorem weight_le_of_suffix (h : S' <:+ S) : S'.weight ≤ S.weight := by
  induction S with
  | nil =>
    obtain rfl := List.suffix_nil.1 h
    exact Nat.le_refl _
  | cons d S ih =>
    rcases List.suffix_cons_iff.1 h with rfl | h
    · exact Nat.le_refl _
    · exact Nat.le_trans (ih h) (Nat.le_add_left _ _)

end Telescope

/-! The free names of a phrase at a place are in scope there. -/

section

variable {place : Name → Telescope} {S : Telescope} {l : Level} {y : Name}

theorem Telescope.has_of_unbound {d : Decl} {x : Ident} {xs : List Name} (hd : d.name = x.name)
    (h : y ∈ xs → Telescope.Has (d :: S) l y) (hy : y ∈ unbound l d.level x xs) : S.Has l y := by
  obtain ⟨hy, hne⟩ := mem_unbound.1 hy
  exact (h hy).cons_inv.resolve_left (hd ▸ hne)

/-- The free names of a placed kind are in scope. -/
theorem KindExpr.Placed.free {k : KindExpr} (h : k.Placed S) (hy : y ∈ k.free l) : S.Has l y := by
  induction k with
  | star => cases hy
  | var x =>
    simp only [KindExpr.free] at hy
    split at hy
    · rename_i hl
      rw [List.mem_singleton.1 hy, hl]
      exact h
    · cases hy
  | arrow j k hj hk => exact (List.mem_append.1 hy).elim (hj h.1) (hk h.2)

/-- The free names of a placed type are in scope. -/
theorem TypeExpr.Placed.free {t : TypeExpr} (h : t.Placed place S) (hy : y ∈ t.free l) :
    S.Has l y := by
  induction t generalizing S with
  | int => cases hy
  | var x =>
    simp only [TypeExpr.free] at hy
    split at hy
    · rename_i hl
      rw [List.mem_singleton.1 hy, hl]
      exact h
    · cases hy
  | arrow s t hs ht | app s t hs ht => exact (List.mem_append.1 hy).elim (hs h.1) (ht h.2)
  | bind b x k t ih =>
    exact (List.mem_append.1 hy).elim h.1.free
      (Telescope.has_of_unbound (d := .typeVar x.name k) rfl (ih h.2.2))
  | kinded t k ih => exact (List.mem_append.1 hy).elim (ih h.1) h.2.free

/-- The free names of a placed expression are in scope. -/
theorem Expr.Placed.free {e : Expr} (h : e.Placed place S) (hy : y ∈ e.free l) : S.Has l y := by
  induction e generalizing S with
  | lit => cases hy
  | var x _ =>
    simp only [Expr.free] at hy
    split at hy
    · rename_i hl
      rw [List.mem_singleton.1 hy, hl]
      exact h
    · cases hy
  | lam x t e _ ih =>
    exact (List.mem_append.1 hy).elim h.1.free
      (Telescope.has_of_unbound (d := .exprVar x.name t) rfl (ih h.2.2))
  | app f a _ hf ha => exact (List.mem_append.1 hy).elim (hf h.1) (ha h.2)
  | tlam x k e _ ih =>
    exact (List.mem_append.1 hy).elim h.1.free
      (Telescope.has_of_unbound (d := .typeVar x.name k) rfl (ih h.2.2))
  | tapp e t _ ih | ann e t _ ih => exact (List.mem_append.1 hy).elim (ih h.1) h.2.free
  | letIn x v e _ hv he =>
    exact (List.mem_append.1 hy).elim (hv h.1)
      (Telescope.has_of_unbound (d := .exprDef x.name v) rfl (he h.2.2))
  | typeIn x v e _ ih =>
    exact (List.mem_append.1 hy).elim h.1.free
      (Telescope.has_of_unbound (d := .typeDef x.name v) rfl (ih h.2.2))
  | kindIn x v e _ ih =>
    exact (List.mem_append.1 hy).elim h.1.free
      (Telescope.has_of_unbound (d := .kindDef x.name v) rfl (ih h.2.2))

end

/-! ## Scopes inside of others -/

/-- Inside a declaration, the other names stand for what they stand for outside, seen from there. -/
theorem Env.extend_agree (ρ : Env) (d : Decl) :
    AgreeOn (fun _ x => x ≠ d.name) (ρ.extend d)
      (ρ.subst (Nameless.var ∘ d.typeShift) (Term.var ∘ d.exprShift)) := by
  have htypes (t : Nameless) : t = t.subst (Nameless.var ∘ id) := by simp
  have hexprs (e : Term) : e = e.subst (Nameless.var ∘ id) (Term.var ∘ id) := by simp
  cases d with
  | kindDef y k =>
    exact ⟨fun hx => Function.update_of_ne hx _ _, fun _ => htypes _, fun _ => hexprs _⟩
  | typeVar y k =>
    refine ⟨fun _ => rfl, fun {x} (hx : x ≠ y) => ?_, fun _ => Term.rename_eq_subst _ _ _⟩
    simp only [extend, bindType, Function.update_of_ne hx]
    exact Nameless.rename_eq_subst _ _
  | typeDef y t =>
    exact ⟨fun _ => rfl, fun hx => (Function.update_of_ne hx _ _).trans (htypes _),
      fun _ => hexprs _⟩
  | exprVar y t =>
    refine ⟨fun _ => rfl, fun _ => htypes _, fun {x} (hx : x ≠ y) => ?_⟩
    simp only [extend, bindExpr, Function.update_of_ne hx]
    exact Term.rename_eq_subst _ _ _
  | exprDef y e =>
    exact ⟨fun _ => rfl, fun _ => htypes _,
      fun hx => (Function.update_of_ne hx _ _).trans (hexprs _)⟩

namespace Telescope

/-- References from the scope `S` become those of the scope `S'` by `ξ` and `ζ`, and everything that
`S` says of its names is said in `S'` as well. -/
structure Embeds (S S' : Telescope) (ξ ζ : Ref → Ref) : Prop where
  injective ⦃r s : Ref⦄ : ξ r = ξ s → r = s
  kinds (r : Ref) : S'.kinds (ξ r) = S.kinds r
  types (r : Ref) : S'.types (ζ r) = (S.types r).map (Nameless.rename ξ)
  env : Env.AgreeOn S.Has S'.env (S.env.subst (Nameless.var ∘ ξ) (Term.var ∘ ζ))
  ref {x : Name} : x ∈ S.names → S'.ref (.free x) = ξ (S.ref (.free x))

namespace Embeds

variable {S S' S'' : Telescope} {ξ ζ ξ' ζ' : Ref → Ref}

theorem refl (S : Telescope) : Embeds S S id id where
  injective _ _ h := h
  kinds _ := rfl
  types r := by
    show S.types r = _
    cases S.types r <;> simp
  env := ⟨fun _ => rfl, fun _ => by simp [Env.subst], fun _ => by simp [Env.subst]⟩
  ref _ := rfl

/-- The scope inside a declaration of a new name. -/
theorem cons {d : Decl} (hd : d.name ∉ S.names) : Embeds S (d :: S) d.typeShift d.exprShift where
  injective r s h := by
    cases d with
    | typeVar x j => exact Ref.shift_injective h
    | _ => exact h
  kinds r := by
    cases d with
    | typeVar x j => simp [Telescope.kinds, Decl.typeShift]
    | _ => rfl
  types r := by
    cases d with
    | typeVar x j => rfl
    | exprVar x u =>
      simp only [Telescope.types, Decl.typeShift, Decl.exprShift, Types.push_shift]
      cases S.types r <;> simp
    | _ =>
      simp only [Telescope.types, Decl.typeShift, Decl.exprShift, id]
      cases S.types r <;> simp
  env := (S.env.extend_agree d).mono fun l x hx he => hd (he ▸ hx.mem)
  ref {x} hx := by
    cases d with
    | typeVar y j =>
      have hne : Ref.free x ≠ Ref.free y := fun e => hd (Ref.free.inj e ▸ hx)
      simp only [Telescope.ref, Function.comp_apply, Ref.close_of_ne hne, Ref.lift_shift]
      rfl
    | _ => rfl

/-- A telescope within one that is within a third. -/
theorem trans (h : Embeds S S' ξ ζ) (h' : Embeds S' S'' ξ' ζ') (hS : S <:+ S') :
    Embeds S S'' (ξ' ∘ ξ) (ζ' ∘ ζ) where
  injective _ _ he := h.injective (h'.injective he)
  kinds r := (h'.kinds _).trans (h.kinds r)
  types r := by
    rw [Function.comp_apply, h'.types, h.types]
    cases S.types r <;> simp [Nameless.rename_rename]
  env := by
    have hhas {l : Level} {x : Name} (hx : S.Has l x) : S'.Has l x := by
      obtain ⟨d, T, hl, hd, hT⟩ := hx
      exact ⟨d, T, hl, hd, hT.trans hS⟩
    refine ⟨fun hx => ?_, fun hx => ?_, fun hx => ?_⟩
    · exact (h'.env.kinds (hhas hx)).trans (h.env.kinds hx)
    · refine (h'.env.types (hhas hx)).trans ?_
      simp only [Env.subst, h.env.types hx, ← Nameless.rename_eq_subst, Nameless.rename_rename]
    · refine (h'.env.exprs (hhas hx)).trans ?_
      simp only [Env.subst, h.env.exprs hx, ← Term.rename_eq_subst, Term.rename_rename]
  ref hx := by
    obtain ⟨d, T, hd, hT⟩ := exists_suffix hx
    rw [h'.ref (hd ▸ List.mem_map_of_mem ((hT.trans hS).subset List.mem_cons_self)), h.ref hx]
    rfl

end Embeds

/-- An outer part of a placed telescope is embedded in the whole. -/
theorem Placed.embeds {place : Name → Telescope} {S S' : Telescope} (h : S'.Placed place)
    (hS : S <:+ S') : ∃ ξ ζ, Embeds S S' ξ ζ := by
  induction S' with
  | nil =>
    obtain rfl := List.suffix_nil.1 hS
    exact ⟨id, id, .refl _⟩
  | cons d S' ih =>
    rcases List.suffix_cons_iff.1 hS with rfl | hS
    · exact ⟨id, id, .refl _⟩
    · obtain ⟨ξ, ζ, he⟩ := ih h.2.2 hS
      exact ⟨_, _, he.trans (.cons (h.2.2.not_mem h.2.1)) hS⟩

namespace Embeds

variable {place : Name → Telescope} {S S' : Telescope} {ξ ζ : Ref → Ref}

theorem expand_kind (h : Embeds S S' ξ ζ) {k : KindExpr} (hk : k.Placed S) :
    k.expand S'.env = k.expand S.env := by
  rw [KindExpr.expand_congr (h.env.mono fun l y hy => hk.free hy), KindExpr.expand_subst]

/-- A type means the same, up to references, further inside. -/
theorem expand_type (h : Embeds S S' ξ ζ) {t : TypeExpr} (ht : t.Placed place S) :
    t.expand S'.env = (t.expand S.env).rename ξ := by
  rw [TypeExpr.expand_congr (h.env.mono fun l y hy => ht.free hy), TypeExpr.expand_subst,
    Nameless.rename_eq_subst]

/-- An expression means the same, up to references, further inside. -/
theorem expand_expr (h : Embeds S S' ξ ζ) {e : Expr} (he : e.Placed place S) :
    e.expand S'.env = (e.expand S.env).rename ξ ζ := by
  rw [Expr.expand_congr (h.env.mono fun l y hy => he.free hy), Expr.expand_subst,
    Term.rename_eq_subst]

theorem within (h : Embeds S S' ξ ζ) {t : Ty} {k : Kind}
    (ht : Nameless.Kinded S.kinds (t.within S) k) : t.within S' = (t.within S).rename ξ := by
  rw [Ty.within, Ty.within, Nameless.rename_rename]
  refine Nameless.rename_congr fun r hr => ?_
  obtain ⟨x, hx, rfl⟩ := Ty.uses_nameless.1 hr
  exact h.ref (Ty.freeVars_subset ht hx)

/-- A type has the same kinds further inside. -/
theorem kinded_iff (h : Embeds S S' ξ ζ) {t : Nameless} {k : Kind} :
    Nameless.Kinded S'.kinds (t.rename ξ) k ↔ Nameless.Kinded S.kinds t k :=
  ⟨fun ht => ht.of_rename h.kinds, fun ht => ht.rename fun r _ _ hr => (h.kinds r).trans hr⟩

/-- A term has the same types further inside. -/
theorem hasType (h : Embeds S S' ξ ζ) {e : Term} {t : Nameless}
    (ht : Term.HasType S.kinds S.types e t) :
    Term.HasType S'.kinds S'.types (e.rename ξ ζ) (t.rename ξ) :=
  ht.rename (fun r _ hr => (h.kinds r).trans hr) fun r s hr => by rw [h.types, hr]; rfl

/-- An expression at a place has no other types in the scopes inside. -/
theorem of_hasType (h : Embeds S S' ξ ζ) {e : Term} {t : Nameless}
    (ht : Term.HasType S'.kinds S'.types (e.rename ξ ζ) t) :
    ∃ u, Term.HasType S.kinds S.types e u ∧ Nameless.Conv (u.rename ξ) t :=
  ht.of_rename h.injective h.kinds h.types

end Embeds

end Telescope

end SystemFOmega
