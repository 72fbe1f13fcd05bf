import SystemFOmega.Checker.Context
import SystemFOmega.Proofs.Core.Kinding
import SystemFOmega.Proofs.Surface.Expand

/-!
# Contexts whose definitions are in order

In a well-scoped context (`Context.WellScoped`) no name comes twice, and a definition refers to
names from before it only. Such a context has a meaning without regard to any checker: an
environment in which every definition is expanded, one after the other (`Context.env`). In it a
defined name stands for what its definition stands for, in the environment as a whole
(`Context.env_kinds`, `Context.env_types`).
-/

namespace SystemFOmega

/-! ## Entries one after the other -/

/-- Every value satisfies `P` with the names before it, `xs` first, and no name comes twice. -/
def InOrder {β : Type} (P : List Name → β → Prop) : List Name → List (Name × β) → Prop
  | _, [] => True
  | xs, (x, b) :: es => x ∉ xs ∧ P xs b ∧ InOrder P (xs ++ [x]) es

namespace InOrder

instance decide {β : Type} {P : List Name → β → Prop} [∀ xs b, Decidable (P xs b)] :
    (xs : List Name) → (es : List (Name × β)) → Decidable (InOrder P xs es)
  | _, [] => .isTrue trivial
  | xs, (x, _) :: es =>
    @instDecidableAnd _ _ _ (@instDecidableAnd _ _ _ (decide (xs ++ [x]) es))

variable {β : Type} {P : List Name → β → Prop} {xs : List Name} {es es' : List (Name × β)}
  {x : Name} {b : β}

/-- Names in order are declared once each. -/
theorem nodup (h : InOrder P xs es) (hxs : xs.Nodup) : (xs ++ es.map Prod.fst).Nodup := by
  induction es generalizing xs with
  | nil => simpa using hxs
  | cons e es ih =>
    have hnext : (xs ++ [e.1]).Nodup := by
      refine List.nodup_append.2 ⟨hxs, by simp, ?_⟩
      rintro y hy z hz rfl
      exact h.1 (List.mem_singleton.1 hz ▸ hy)
    simpa using ih h.2.2 hnext

theorem at_split (h : InOrder P xs (es ++ (x, b) :: es')) : P (xs ++ es.map Prod.fst) b := by
  induction es generalizing xs with
  | nil => simpa using h.2.1
  | cons e es ih => simpa using ih h.2.2

/-- The names before an entry are other names than those from it on. -/
theorem not_mem_of_before (h : InOrder P [] (es ++ (x, b) :: es')) {y : Name}
    (hy : y ∈ es.map Prod.fst) : y ∉ x :: es'.map Prod.fst := by
  have hnodup := h.nodup .nil
  simp only [List.nil_append, List.map_append, List.map_cons] at hnodup
  exact fun hy' => (List.nodup_append.1 hnodup).2.2 y hy y hy' rfl

theorem not_mem_after (h : InOrder P [] (es ++ (x, b) :: es')) : x ∉ es'.map Prod.fst := by
  have hnodup := h.nodup .nil
  simp only [List.nil_append, List.map_append, List.map_cons] at hnodup
  exact (List.nodup_cons.1 (List.nodup_append.1 hnodup).2.1).1

/-- Among names in order, each is found with its own entry. -/
theorem lookup_eq (h : InOrder P [] (es ++ (x, b) :: es')) :
    Table.lookup x (es ++ (x, b) :: es') = some b := by
  have hx : x ∉ es.map Prod.fst := fun hx => h.not_mem_of_before hx List.mem_cons_self
  clear h
  induction es with
  | nil => simp [Table.lookup]
  | cons e es ih =>
    simp only [List.map_cons, List.mem_cons, not_or] at hx
    simpa [Table.lookup, Ne.symm hx.1] using ih hx.2

end InOrder

theorem Table.mem_of_lookup {β : Type} {es : List (Name × β)} {x : Name} {b : β}
    (h : Table.lookup x es = some b) : (x, b) ∈ es := by
  induction es with
  | nil => cases h
  | cons e es ih =>
    rw [Table.lookup] at h
    split at h
    · rename_i he
      obtain rfl := Option.some.inj h
      exact List.mem_cons.2 (.inl (Prod.ext he.symm rfl))
    · exact .tail _ (ih h)

theorem exists_split {β : Type} {es : List (Name × β)} {x : Name} (h : x ∈ es.map Prod.fst) :
    ∃ es₁ b es₂, es = es₁ ++ (x, b) :: es₂ := by
  obtain ⟨e, he, rfl⟩ := List.mem_map.1 h
  obtain ⟨es₁, es₂, rfl⟩ := List.append_of_mem he
  exact ⟨es₁, e.2, es₂, rfl⟩

/-! ## Phrases over names -/

/-- The kind refers to the kinds `xs`. -/
def KindExpr.Over (xs : List Name) : KindExpr → Prop
  | .star => True
  | .var x => x.name ∈ xs
  | .arrow j k => j.Over xs ∧ k.Over xs

/-- The type refers to the types `xs`, its own binders and the kinds of the context, and its binders
have other names than the types of the context. -/
def TypeExpr.Over (Γ : Context) : List Name → TypeExpr → Prop
  | _, .int => True
  | xs, .var x => x.name ∈ xs
  | xs, .arrow s t | xs, .app s t => s.Over Γ xs ∧ t.Over Γ xs
  | xs, .bind _ x k t => k.Over Γ.kinds.keys ∧ x.name ∉ Γ.types.keys ∧ t.Over Γ (x.name :: xs)
  | xs, .kinded t k => t.Over Γ xs ∧ k.Over Γ.kinds.keys

/-- A bound type, or a definition over the types `xs`. -/
def Entry.Over (Γ : Context) (xs : List Name) : Entry Kind TypeExpr → Prop
  | .bound _ => True
  | .defined t => t.Over Γ xs

/-- Kinds are defined over the kinds before them, and types over the types before them. -/
structure Context.WellScoped (Γ : Context) : Prop where
  kinds : InOrder (fun xs k => k.Over xs) [] Γ.kinds.entries
  types : InOrder (fun xs e => e.Over Γ xs) [] Γ.types.entries

instance KindExpr.Over.decide (xs : List Name) : (k : KindExpr) → Decidable (k.Over xs)
  | .star => .isTrue trivial
  | .var x => inferInstanceAs (Decidable (x.name ∈ xs))
  | .arrow j k => @instDecidableAnd _ _ (decide xs j) (decide xs k)

instance TypeExpr.Over.decide (Γ : Context) :
    (xs : List Name) → (t : TypeExpr) → Decidable (t.Over Γ xs)
  | _, .int => .isTrue trivial
  | xs, .var x => inferInstanceAs (Decidable (x.name ∈ xs))
  | xs, .arrow s t | xs, .app s t => @instDecidableAnd _ _ (decide Γ xs s) (decide Γ xs t)
  | xs, .bind _ x _ t =>
    @instDecidableAnd _ _ _ (@instDecidableAnd _ _ _ (decide Γ (x.name :: xs) t))
  | xs, .kinded t _ => @instDecidableAnd _ _ (decide Γ xs t) _

instance Entry.Over.decide (Γ : Context) (xs : List Name) :
    (e : Entry Kind TypeExpr) → Decidable (e.Over Γ xs)
  | .bound _ => .isTrue trivial
  | .defined t => TypeExpr.Over.decide Γ xs t

instance (Γ : Context) : Decidable Γ.WellScoped :=
  decidable_of_iff (InOrder (fun xs k => KindExpr.Over xs k) [] Γ.kinds.entries ∧
    InOrder (fun xs e => Entry.Over Γ xs e) [] Γ.types.entries)
    ⟨fun h => ⟨h.1, h.2⟩, fun h => ⟨h.kinds, h.types⟩⟩

theorem KindExpr.Over.free {xs : List Name} {k : KindExpr} (h : k.Over xs) {l : Level} {y : Name}
    (hy : y ∈ k.free l) : l = .kind ∧ y ∈ xs := by
  induction k with
  | star => cases hy
  | var x =>
    rw [KindExpr.free] at hy
    split at hy
    · rename_i hl
      exact ⟨hl, List.mem_singleton.1 hy ▸ h⟩
    · cases hy
  | arrow j k hj hk => exact (List.mem_append.1 hy).elim (hj h.1) (hk h.2)

/-- The free names of a type over a context are those of its kinds, and the given ones. -/
theorem TypeExpr.Over.free {Γ : Context} {xs : List Name} {t : TypeExpr} (h : t.Over Γ xs)
    {l : Level} {y : Name} (hy : y ∈ t.free l) :
    l = .kind ∧ y ∈ Γ.kinds.keys ∨ l = .type ∧ y ∈ xs := by
  induction t generalizing xs with
  | int => cases hy
  | var x =>
    rw [TypeExpr.free] at hy
    split at hy
    · rename_i hl
      exact .inr ⟨hl, List.mem_singleton.1 hy ▸ h⟩
    · cases hy
  | arrow s t hs ht | app s t hs ht => exact (List.mem_append.1 hy).elim (hs h.1) (ht h.2)
  | bind b x k t ih =>
    obtain hy | hy := List.mem_append.1 hy
    · exact .inl (h.1.free hy)
    · obtain ⟨hy, hne⟩ := mem_unbound.1 hy
      obtain hk | ⟨hl, hx⟩ := ih h.2.2 hy
      · exact .inl hk
      · exact .inr ⟨hl, (List.mem_cons.1 hx).resolve_left fun e => hne ⟨hl, e⟩⟩
  | kinded t k ih =>
    exact (List.mem_append.1 hy).elim (ih h.1) fun hy => .inl (h.2.free hy)

/-! ## Types without ascriptions -/

/-- The type without its ascriptions of kinds. -/
def TypeExpr.bare : TypeExpr → TypeExpr
  | .int => .int
  | .var x => .var x
  | .arrow s t => .arrow s.bare t.bare
  | .bind b x k t => .bind b x k t.bare
  | .app f a => .app f.bare a.bare
  | .kinded t _ => t.bare

/-- An entry without ascriptions. -/
def Entry.bare : Entry Kind TypeExpr → Entry Kind TypeExpr
  | .bound k => .bound k
  | .defined t => .defined t.bare

/-- The context with definitions of types without ascriptions. -/
def Context.bare (Γ : Context) : Context :=
  { Γ with types := ⟨Γ.types.entries.map fun e => (e.1, e.2.bare)⟩ }

theorem TypeExpr.free_bare {t : TypeExpr} {l : Level} {y : Name} (h : y ∈ t.bare.free l) :
    y ∈ t.free l := by
  induction t with
  | int | var x => exact h
  | arrow s t hs ht | app s t hs ht =>
    exact List.mem_append.2 ((List.mem_append.1 h).imp hs ht)
  | bind b x k t ih =>
    refine List.mem_append.2 ((List.mem_append.1 h).imp id fun hy => ?_)
    obtain ⟨hy, hne⟩ := mem_unbound.1 hy
    exact mem_unbound.2 ⟨ih hy, hne⟩
  | kinded t k ih => exact List.mem_append_left _ (ih h)

/-! ## The environment of a context -/

namespace Env

/-- Adds a defined kind. -/
def enterKind (ρ : Env) (e : Name × KindExpr) : Env := ρ.defineKind e.1 (e.2.expand ρ)

/-- What an entry for the type `x` stands for. -/
def entryType (ρ : Env) (x : Name) : Entry Kind TypeExpr → Nameless
  | .bound _ => .var (.free x)
  | .defined t => t.expand ρ

/-- Adds a bound or defined type. -/
def enterType (ρ : Env) (e : Name × Entry Kind TypeExpr) : Env :=
  ρ.defineType e.1 (ρ.entryType e.1 e.2)

theorem agreeOn_enterKind (ρ : Env) (e : Name × KindExpr) :
    AgreeOn (fun l y => ¬ (l = .kind ∧ y = e.1)) ρ (ρ.enterKind e) where
  kinds h := (Function.update_of_ne (fun hy => h ⟨rfl, hy⟩) _ _).symm
  types _ := rfl
  exprs _ := rfl

theorem agreeOn_enterType (ρ : Env) (e : Name × Entry Kind TypeExpr) :
    AgreeOn (fun l y => ¬ (l = .type ∧ y = e.1)) ρ (ρ.enterType e) where
  kinds _ := rfl
  types h := (Function.update_of_ne (fun hy => h ⟨rfl, hy⟩) _ _).symm
  exprs _ := rfl

theorem AgreeOn.trans {p : Level → Name → Prop} {ρ₁ ρ₂ ρ₃ : Env} (h : AgreeOn p ρ₁ ρ₂)
    (h' : AgreeOn p ρ₂ ρ₃) : AgreeOn p ρ₁ ρ₃ :=
  ⟨fun hx => (h.kinds hx).trans (h'.kinds hx), fun hx => (h.types hx).trans (h'.types hx),
    fun hx => (h.exprs hx).trans (h'.exprs hx)⟩

/-- Entries change the environment at their names only. -/
theorem agreeOn_foldl {β : Type} {l : Level} {f : Env → Name × β → Env}
    (hf : ∀ ρ e, AgreeOn (fun m y => ¬ (m = l ∧ y = e.1)) ρ (f ρ e)) (es : List (Name × β))
    (ρ : Env) : AgreeOn (fun m y => ¬ (m = l ∧ y ∈ es.map Prod.fst)) ρ (es.foldl f ρ) := by
  induction es generalizing ρ with
  | nil => exact ⟨fun _ => rfl, fun _ => rfl, fun _ => rfl⟩
  | cons e es ih =>
    refine ((hf ρ e).mono ?_).trans ((ih (f ρ e)).mono ?_)
    · exact fun m y h hy => h ⟨hy.1, List.mem_cons.2 (.inl hy.2)⟩
    · exact fun m y h hy => h ⟨hy.1, .tail _ hy.2⟩

end Env

namespace Context

/-- The environment in which every definition of the context is expanded, one after the other, and
every bound type stands for itself. -/
def env (Γ : Context) : Env :=
  Γ.types.entries.foldl Env.enterType (Γ.kinds.entries.foldl Env.enterKind .empty)

/-- The kinds of the bound types. -/
def nameKinds (Γ : Context) : NameKinds := fun x =>
  match Γ.types.get? x with
  | some (.bound k) => some k
  | _ => none

variable {Γ : Context} {x : Name}

theorem kinds_env : Γ.env.kinds = (Γ.kinds.entries.foldl Env.enterKind .empty).kinds :=
  funext fun _ => ((Env.agreeOn_foldl Env.agreeOn_enterType _ _).kinds (by simp)).symm

/-- A defined kind stands for its definition. -/
theorem env_kinds (hΓ : Γ.WellScoped) {k : KindExpr} {es es' : List (Name × KindExpr)}
    (he : Γ.kinds.entries = es ++ (x, k) :: es') : Γ.env.kinds x = k.expand Γ.env := by
  have horder := hΓ.kinds
  rw [he] at horder
  let ρ := es.foldl Env.enterKind .empty
  have hbefore := Env.agreeOn_foldl Env.agreeOn_enterKind ((x, k) :: es') ρ
  have hafter := Env.agreeOn_foldl Env.agreeOn_enterKind es' (ρ.enterKind (x, k))
  have hfold : Γ.env.kinds = (es'.foldl Env.enterKind (ρ.enterKind (x, k))).kinds := by
    rw [kinds_env, he, List.foldl_append, List.foldl_cons]
  have hx : Γ.env.kinds x = k.expand ρ := by
    rw [hfold, ← hafter.kinds fun h => horder.not_mem_after h.2]
    exact Function.update_self ..
  rw [hx]
  refine KindExpr.expand_congr ⟨fun hy => ?_, fun hy => ?_, fun hy => ?_⟩
  · rw [hfold]
    exact hbefore.kinds fun h => horder.not_mem_of_before (horder.at_split.free hy).2 h.2
  · cases (horder.at_split.free hy).1
  · cases (horder.at_split.free hy).1

/-- A bound type stands for itself, and a defined one for its definition, in which no name from
there on is free. -/
theorem env_types {e : Entry Kind TypeExpr} {es es' : List (Name × Entry Kind TypeExpr)}
    (he : Γ.types.entries = es ++ (x, e) :: es') (hx : x ∉ es'.map Prod.fst)
    (hfree : ∀ t, e = .defined t → ∀ y ∈ t.free .type, y ∉ x :: es'.map Prod.fst) :
    Γ.env.types x = Γ.env.entryType x e := by
  let ρ := es.foldl Env.enterType (Γ.kinds.entries.foldl Env.enterKind .empty)
  have hbefore := Env.agreeOn_foldl Env.agreeOn_enterType ((x, e) :: es') ρ
  have hafter := Env.agreeOn_foldl Env.agreeOn_enterType es' (ρ.enterType (x, e))
  have hfold : Γ.env = es'.foldl Env.enterType (ρ.enterType (x, e)) := by
    rw [env, he, List.foldl_append, List.foldl_cons]
  have htype : Γ.env.types x = ρ.entryType x e := by
    rw [hfold, ← hafter.types fun h => hx h.2]
    exact Function.update_self ..
  rw [htype]
  cases e with
  | bound k => rfl
  | defined t =>
    rw [hfold]
    refine TypeExpr.expand_congr (hbefore.mono fun l y hy h => ?_)
    obtain ⟨rfl, h⟩ := h
    exact hfree t rfl y hy h

end Context

end SystemFOmega
