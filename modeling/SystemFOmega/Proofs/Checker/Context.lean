import SystemFOmega.Checker.Basic
import SystemFOmega.Proofs.Surface.Telescope

/-!
# What contexts say

The checker works in a context, which says what the names in scope stand for. At a place of a
program, the context has an entry of the right form for every name of the telescope
(`Context.Covers`); it may have others.
-/

namespace SystemFOmega

/-! ## Tables of names -/

namespace Table

variable {α : Type} {x y : Name} {a b : α}

theorem get?_insert_self (table : Table Name α) (x : Name) (a : α) :
    (table.insert x a).get? x = some a := by simp

theorem get?_insert_of_not_mem {table : Table Name α} {xs : List Name} (hx : x ∉ xs) :
    ∀ y ∈ xs, (table.insert x a).get? y = table.get? y := by
  intro y hy
  have hne : x ≠ y := fun e => hx (e ▸ hy)
  simp [hne]

/-- What holds of all entries of a table and of a new one holds after it is put in. -/
theorem forall_insert {table : Table Name α} {P : Name → α → Prop}
    (h : ∀ {y b}, table.get? y = some b → P y b) (ha : P x a)
    (hy : (table.insert x a).get? y = some b) : P y b := by
  rw [get?_insert] at hy
  split at hy
  · rename_i hxy
    subst hxy
    obtain rfl := Option.some.inj hy
    exact ha
  · exact h hy

end Table

/-! ## Contexts -/

/-- What is known of a bound name satisfies `P`, and the phrase of a defined one `Q`. -/
def Entry.Forall {α β : Type} (P : α → Prop) (Q : β → Prop) : Entry α β → Prop
  | .bound a => P a
  | .defined b => Q b

/-- The context has an entry of the right form for a declaration at the place `S`. A value may have
any type. -/
def Decl.Covered (Γ : Context) (S : Telescope) : Decl → Prop
  | .kindDef x k => Γ.kinds.get? x = some k
  | .typeVar x k => Γ.types.get? x = some (.bound (k.expand S.env))
  | .typeDef x t => Γ.types.get? x = some (.defined t)
  | .exprVar x _ => ∃ t, Γ.exprs.get? x = some (.bound t)
  | .exprDef x e => Γ.exprs.get? x = some (.defined e)

/-- The context has the entries of all names of a telescope. -/
def Context.Covers (Γ : Context) (S : Telescope) : Prop :=
  ∀ (d : Decl) (S' : Telescope), d :: S' <:+ S → d.Covered Γ S'

namespace Context.Covers

variable {Γ Γ' : Context} {S S' : Telescope} {d : Decl} {x : Name}

theorem nil (Γ : Context) : Γ.Covers [] := fun _ _ h => absurd h.length_le (by simp)

/-- A context has what the outer parts of a telescope declare. -/
theorem suffix (h : Γ.Covers S) (hS : S' <:+ S) : Γ.Covers S' := fun d T hd => h d T (hd.trans hS)

/-- A context that has the entries of the names in scope, and that of a new one. -/
theorem cons (h : Γ.Covers S) (hk : ∀ x ∈ S.names, Γ'.kinds.get? x = Γ.kinds.get? x)
    (ht : ∀ x ∈ S.names, Γ'.types.get? x = Γ.types.get? x)
    (he : ∀ x ∈ S.names, Γ'.exprs.get? x = Γ.exprs.get? x) (hd : d.Covered Γ' S) :
    Γ'.Covers (d :: S) := by
  intro d' S' hS
  rcases List.suffix_cons_iff.1 hS with heq | hS
  · obtain ⟨rfl, rfl⟩ := List.cons.inj heq
    exact hd
  · have hmem : d'.name ∈ S.names := List.mem_map_of_mem (hS.subset List.mem_cons_self)
    have hold := h d' S' hS
    cases d' with
    | kindDef x k => exact (hk x hmem).trans hold
    | typeVar x k => exact (ht x hmem).trans hold
    | typeDef x t => exact (ht x hmem).trans hold
    | exprVar x t =>
      obtain ⟨t, htx⟩ := hold
      exact ⟨t, (he x hmem).trans htx⟩
    | exprDef x e => exact (he x hmem).trans hold

theorem bindType (h : Γ.Covers S) (hx : x ∉ S.names) (k : KindExpr) :
    (Γ.bindType x (k.expand S.env)).Covers (.typeVar x k :: S) :=
  h.cons (fun _ _ => rfl) (Table.get?_insert_of_not_mem hx) (fun _ _ => rfl)
    (Table.get?_insert_self _ x _)

theorem bindExpr (h : Γ.Covers S) (hx : x ∉ S.names) (u : TypeExpr) (t : Ty) :
    (Γ.bindExpr x t).Covers (.exprVar x u :: S) :=
  h.cons (fun _ _ => rfl) (fun _ _ => rfl) (Table.get?_insert_of_not_mem hx)
    ⟨t, Table.get?_insert_self _ x _⟩

theorem defineKind (h : Γ.Covers S) (hx : x ∉ S.names) (k : KindExpr) :
    (Γ.defineKind x k).Covers (.kindDef x k :: S) :=
  h.cons (Table.get?_insert_of_not_mem hx) (fun _ _ => rfl) (fun _ _ => rfl)
    (Table.get?_insert_self _ x _)

theorem defineType (h : Γ.Covers S) (hx : x ∉ S.names) (t : TypeExpr) :
    (Γ.defineType x t).Covers (.typeDef x t :: S) :=
  h.cons (fun _ _ => rfl) (Table.get?_insert_of_not_mem hx) (fun _ _ => rfl)
    (Table.get?_insert_self _ x _)

theorem defineExpr (h : Γ.Covers S) (hx : x ∉ S.names) (e : Expr) :
    (Γ.defineExpr x e).Covers (.exprDef x e :: S) :=
  h.cons (fun _ _ => rfl) (fun _ _ => rfl) (Table.get?_insert_of_not_mem hx)
    (Table.get?_insert_self _ x _)

end Context.Covers

end SystemFOmega
