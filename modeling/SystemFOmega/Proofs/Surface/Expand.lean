import Mathlib.Logic.Function.Basic
import SystemFOmega.Proofs.Nameless.Kinding
import SystemFOmega.Proofs.Nameless.Term
import SystemFOmega.Surface.Names

/-!
# Expansion of definitions

A phrase with every `let`, `type` and `kind` expanded is a nameless phrase without definitions. An
environment (`Env`) says what the names in scope stand for: a kind, a nameless type or a nameless
expression. A binder stands for a reference to itself, a definition for its expansion. An ascription
of a kind is an application of the identity operator of that kind (`Nameless.ascribe`).

An expansion depends on the free names of the phrase only (`Expr.expand_congr`), and a substitution
in it is a substitution in the environment (`Expr.expand_subst`).
-/

namespace SystemFOmega

/-- What names stand for at the three levels. -/
@[ext] structure Env where
  kinds : Name → Kind
  types : Name → Nameless
  exprs : Name → Term

namespace Env

/-- Every type and expression stands for itself. -/
def empty : Env := ⟨fun _ => .star, fun x => .var (.free x), fun x => .var (.free x)⟩

/-- The name `x` stands for the kind `k`. -/
def defineKind (ρ : Env) (x : Name) (k : Kind) : Env :=
  { ρ with kinds := Function.update ρ.kinds x k }

/-- The name `x` stands for the type `t`. -/
def defineType (ρ : Env) (x : Name) (t : Nameless) : Env :=
  { ρ with types := Function.update ρ.types x t }

/-- The name `x` stands for the term `e`. -/
def defineExpr (ρ : Env) (x : Name) (e : Term) : Env :=
  { ρ with exprs := Function.update ρ.exprs x e }

/-- The environment under a binder of the type `x`. -/
def bindType (ρ : Env) (x : Name) : Env where
  kinds := ρ.kinds
  types := Function.update (fun y => (ρ.types y).shift) x (.var (.bound 0))
  exprs y := (ρ.exprs y).shiftType

/-- The environment under a binder of the value `x`. -/
def bindExpr (ρ : Env) (x : Name) : Env :=
  { ρ with exprs := Function.update (fun y => (ρ.exprs y).shift) x (.var (.bound 0)) }

/-- Puts types and expressions for references in all that names stand for. -/
def subst (τ : Ref → Nameless) (σ : Ref → Term) (ρ : Env) : Env where
  kinds := ρ.kinds
  types x := (ρ.types x).subst τ
  exprs x := (ρ.exprs x).subst τ σ

end Env

/-- The kind that a surface kind stands for, with all aliases replaced. -/
def KindExpr.expand (ρ : Env) : KindExpr → Kind
  | .star => .star
  | .var x => ρ.kinds x.name
  | .arrow j k => .arrow (j.expand ρ) (k.expand ρ)

/-- The type that a surface type stands for, with all aliases replaced. A kind beside a type is
kept, because it restricts the type. -/
def TypeExpr.expand (ρ : Env) : TypeExpr → Nameless
  | .int => .int
  | .var x => ρ.types x.name
  | .arrow s t => .arrow (s.expand ρ) (t.expand ρ)
  | .bind b x k t => .bind b (k.expand ρ) (t.expand (ρ.bindType x.name))
  | .app f a => .app (f.expand ρ) (a.expand ρ)
  | .kinded t k => (t.expand ρ).ascribe (k.expand ρ)

/-- The term that an expression stands for: every use of a definition is replaced by the expansion
of its value. -/
def Expr.expand (ρ : Env) : Expr → Term
  | .lit n _ => .lit n
  | .var x _ => ρ.exprs x.name
  | .lam x t e _ => .lam (t.expand ρ) (e.expand (ρ.bindExpr x.name))
  | .app f a _ => .app (f.expand ρ) (a.expand ρ)
  | .tlam x k e _ => .tlam (k.expand ρ) (e.expand (ρ.bindType x.name))
  | .tapp f t _ => .tapp (f.expand ρ) (t.expand ρ)
  | .ann e t _ => .ann (e.expand ρ) (t.expand ρ)
  | .letIn x v e _ => e.expand (ρ.defineExpr x.name (v.expand ρ))
  | .typeIn x v e _ => e.expand (ρ.defineType x.name (v.expand ρ))
  | .kindIn x v e _ => e.expand (ρ.defineKind x.name (v.expand ρ))

/-! ## The names that play a part -/

/-- The names that a binder leaves free. -/
theorem mem_unbound {l m : Level} {x : Ident} {y : Name} {xs : List Name} :
    y ∈ unbound l m x xs ↔ y ∈ xs ∧ ¬ (l = m ∧ y = x.name) := by
  unfold unbound
  split <;> simp_all

namespace Env

/-- Two environments agree on the names that `p` picks at each level. -/
structure AgreeOn (p : Level → Name → Prop) (ρ ρ' : Env) : Prop where
  kinds {x : Name} : p .kind x → ρ.kinds x = ρ'.kinds x
  types {x : Name} : p .type x → ρ.types x = ρ'.types x
  exprs {x : Name} : p .expr x → ρ.exprs x = ρ'.exprs x

namespace AgreeOn

variable {p q : Level → Name → Prop} {ρ ρ' : Env} {x : Name}

/-- Environments agree on fewer names as well. -/
theorem mono (h : AgreeOn p ρ ρ') (hq : ∀ l y, q l y → p l y) : AgreeOn q ρ ρ' :=
  ⟨fun hx => h.kinds (hq _ _ hx), fun hx => h.types (hq _ _ hx), fun hx => h.exprs (hq _ _ hx)⟩

theorem left {f g : Level → List Name} (h : AgreeOn (fun l y => y ∈ f l ++ g l) ρ ρ') :
    AgreeOn (fun l y => y ∈ f l) ρ ρ' :=
  h.mono fun _ _ => List.mem_append_left _

theorem right {f g : Level → List Name} (h : AgreeOn (fun l y => y ∈ f l ++ g l) ρ ρ') :
    AgreeOn (fun l y => y ∈ g l) ρ ρ' :=
  h.mono fun _ _ => List.mem_append_right _

theorem defineKind (h : AgreeOn p ρ ρ') (k : Kind)
    (hq : ∀ l y, q l y → ¬ (l = .kind ∧ y = x) → p l y) :
    AgreeOn q (ρ.defineKind x k) (ρ'.defineKind x k) where
  kinds {y} hy := by
    by_cases hyx : y = x
    · simp [Env.defineKind, hyx]
    · simpa [Env.defineKind, hyx] using h.kinds (hq _ _ hy (by simp [hyx]))
  types hy := h.types (hq _ _ hy (by simp))
  exprs hy := h.exprs (hq _ _ hy (by simp))

theorem defineType (h : AgreeOn p ρ ρ') (t : Nameless)
    (hq : ∀ l y, q l y → ¬ (l = .type ∧ y = x) → p l y) :
    AgreeOn q (ρ.defineType x t) (ρ'.defineType x t) where
  kinds hy := h.kinds (hq _ _ hy (by simp))
  types {y} hy := by
    by_cases hyx : y = x
    · simp [Env.defineType, hyx]
    · simpa [Env.defineType, hyx] using h.types (hq _ _ hy (by simp [hyx]))
  exprs hy := h.exprs (hq _ _ hy (by simp))

theorem defineExpr (h : AgreeOn p ρ ρ') (e : Term)
    (hq : ∀ l y, q l y → ¬ (l = .expr ∧ y = x) → p l y) :
    AgreeOn q (ρ.defineExpr x e) (ρ'.defineExpr x e) where
  kinds hy := h.kinds (hq _ _ hy (by simp))
  types hy := h.types (hq _ _ hy (by simp))
  exprs {y} hy := by
    by_cases hyx : y = x
    · simp [Env.defineExpr, hyx]
    · simpa [Env.defineExpr, hyx] using h.exprs (hq _ _ hy (by simp [hyx]))

theorem bindType (h : AgreeOn p ρ ρ') (hq : ∀ l y, q l y → ¬ (l = .type ∧ y = x) → p l y) :
    AgreeOn q (ρ.bindType x) (ρ'.bindType x) where
  kinds hy := h.kinds (hq _ _ hy (by simp))
  types {y} hy := by
    by_cases hyx : y = x
    · simp [Env.bindType, hyx]
    · simp [Env.bindType, hyx, h.types (hq _ _ hy (by simp [hyx]))]
  exprs hy := congrArg Term.shiftType (h.exprs (hq _ _ hy (by simp)))

theorem bindExpr (h : AgreeOn p ρ ρ') (hq : ∀ l y, q l y → ¬ (l = .expr ∧ y = x) → p l y) :
    AgreeOn q (ρ.bindExpr x) (ρ'.bindExpr x) where
  kinds hy := h.kinds (hq _ _ hy (by simp))
  types hy := h.types (hq _ _ hy (by simp))
  exprs {y} hy := by
    by_cases hyx : y = x
    · simp [Env.bindExpr, hyx]
    · simp [Env.bindExpr, hyx, h.exprs (hq _ _ hy (by simp [hyx]))]

end AgreeOn

end Env

/-- The meaning of a kind depends only on its free names. -/
theorem KindExpr.expand_congr {k : KindExpr} {ρ ρ' : Env}
    (h : Env.AgreeOn (fun l x => x ∈ k.free l) ρ ρ') : k.expand ρ = k.expand ρ' := by
  induction k with
  | star => rfl
  | var x => exact h.kinds (by simp [free])
  | arrow j k hj hk =>
    simp only [expand, hj h.left, hk h.right]

/-- The meaning of a type depends only on its free names. -/
theorem TypeExpr.expand_congr {t : TypeExpr} {ρ ρ' : Env}
    (h : Env.AgreeOn (fun l x => x ∈ t.free l) ρ ρ') : t.expand ρ = t.expand ρ' := by
  induction t generalizing ρ ρ' with
  | int => rfl
  | var x => exact h.types (by simp [free])
  | arrow s t hs ht | app s t hs ht =>
    simp only [expand, hs h.left, ht h.right]
  | bind b x k t ih =>
    have hk := k.expand_congr h.left
    have ht := ih (h.right.bindType fun l y hy hx => mem_unbound.2 ⟨hy, hx⟩)
    simp only [expand, hk, ht]
  | kinded t k ih =>
    simp only [expand, ih h.left, k.expand_congr h.right]

/-- An expansion depends on the free names only. -/
theorem Expr.expand_congr {e : Expr} {ρ ρ' : Env}
    (h : Env.AgreeOn (fun l x => x ∈ e.free l) ρ ρ') : e.expand ρ = e.expand ρ' := by
  induction e generalizing ρ ρ' with
  | lit n _ => rfl
  | var x _ => exact h.exprs (by simp [free])
  | lam x t e _ ih =>
    have ht := t.expand_congr h.left
    have he := ih (h.right.bindExpr fun l y hy hx => mem_unbound.2 ⟨hy, hx⟩)
    simp only [expand, ht, he]
  | app f a _ hf ha =>
    simp only [expand, hf h.left, ha h.right]
  | tlam x k e _ ih =>
    have hk := k.expand_congr h.left
    have he := ih (h.right.bindType fun l y hy hx => mem_unbound.2 ⟨hy, hx⟩)
    simp only [expand, hk, he]
  | tapp e t _ ih | ann e t _ ih =>
    simp only [expand, ih h.left, t.expand_congr h.right]
  | letIn x v e _ hv he =>
    simp only [expand, hv h.left]
    exact he (h.right.defineExpr _ fun l y hy hx => mem_unbound.2 ⟨hy, hx⟩)
  | typeIn x v e _ ih =>
    simp only [expand, v.expand_congr h.left]
    exact ih (h.right.defineType _ fun l y hy hx => mem_unbound.2 ⟨hy, hx⟩)
  | kindIn x v e _ ih =>
    simp only [expand, v.expand_congr h.left]
    exact ih (h.right.defineKind _ fun l y hy hx => mem_unbound.2 ⟨hy, hx⟩)

/-! ## Substitution in an expansion -/

namespace Env

variable (τ : Ref → Nameless) (σ : Ref → Term) (ρ : Env) (x : Name)

theorem subst_defineKind (k : Kind) :
    (ρ.defineKind x k).subst τ σ = (ρ.subst τ σ).defineKind x k := rfl

theorem subst_defineType (t : Nameless) :
    (ρ.defineType x t).subst τ σ = (ρ.subst τ σ).defineType x (t.subst τ) := by
  ext1
  · rfl
  · funext y
    by_cases hy : y = x <;> simp [subst, defineType, hy]
  · rfl

theorem subst_defineExpr (e : Term) :
    (ρ.defineExpr x e).subst τ σ = (ρ.subst τ σ).defineExpr x (e.subst τ σ) := by
  ext1
  · rfl
  · rfl
  · funext y
    by_cases hy : y = x <;> simp [subst, defineExpr, hy]

theorem subst_bindType :
    (ρ.bindType x).subst (Nameless.up τ) (Term.shiftType ∘ σ) = (ρ.subst τ σ).bindType x := by
  ext1
  · rfl
  · funext y
    by_cases hy : y = x
    · simp [subst, bindType, hy, Nameless.subst]
    · simp [subst, bindType, hy, Nameless.shift_subst]
  · funext y
    exact (Term.shiftType_subst τ σ _).symm

theorem subst_bindExpr : (ρ.bindExpr x).subst τ (Term.up σ) = (ρ.subst τ σ).bindExpr x := by
  ext1
  · rfl
  · rfl
  · funext y
    by_cases hy : y = x
    · simp [subst, bindExpr, hy, Term.subst]
    · simp [subst, bindExpr, hy, Term.shift_subst]

/-- Taking away a binder puts something for its name. -/
theorem bindType_inst (t : Nameless) :
    (ρ.bindType x).subst (Nameless.single t) Term.var = ρ.defineType x t := by
  ext1
  · rfl
  · funext y
    by_cases hy : y = x
    · simp [subst, bindType, defineType, hy, Nameless.subst]
    · simp only [subst, bindType, defineType, Function.update_of_ne hy]
      exact Nameless.inst_shift (ρ.types y) t
  · funext y
    exact Term.instType_shiftType (ρ.exprs y) t

/-- A bound name whose variable is replaced by a term is a defined one. -/
theorem bindExpr_inst (e : Term) :
    (ρ.bindExpr x).subst Nameless.var (Term.single e) = ρ.defineExpr x e := by
  ext1
  · rfl
  · funext y
    exact Nameless.subst_var _
  · funext y
    by_cases hy : y = x
    · simp [subst, bindExpr, defineExpr, hy, Term.subst]
    · simp only [subst, bindExpr, defineExpr, Function.update_of_ne hy]
      exact Term.inst_shift (ρ.exprs y) e

end Env

theorem KindExpr.expand_subst (τ : Ref → Nameless) (σ : Ref → Term) (ρ : Env) (k : KindExpr) :
    k.expand (ρ.subst τ σ) = k.expand ρ := by
  induction k with
  | star => rfl
  | var x => rfl
  | arrow j k hj hk => simp only [expand, hj, hk]

/-- To substitute in the environment is to substitute in the meaning of a type. -/
theorem TypeExpr.expand_subst (τ : Ref → Nameless) (σ : Ref → Term) (ρ : Env) (t : TypeExpr) :
    t.expand (ρ.subst τ σ) = (t.expand ρ).subst τ := by
  induction t generalizing τ σ ρ with
  | int => rfl
  | var x => rfl
  | arrow s t hs ht => simp only [expand, hs, ht, Nameless.subst]
  | bind b x k t ih =>
    simp only [expand, k.expand_subst, ← Env.subst_bindType, ih, Nameless.subst]
  | app f a hf ha => simp only [expand, hf, ha, Nameless.subst]
  | kinded t k ih => simp only [expand, ih, k.expand_subst, Nameless.subst_ascribe]

/-- To substitute in the environment is to substitute in the meaning of an expression. -/
theorem Expr.expand_subst (τ : Ref → Nameless) (σ : Ref → Term) (ρ : Env) (e : Expr) :
    e.expand (ρ.subst τ σ) = (e.expand ρ).subst τ σ := by
  induction e generalizing τ σ ρ with
  | lit n _ => rfl
  | var x _ => rfl
  | lam x t e _ ih => simp only [expand, t.expand_subst, ← Env.subst_bindExpr, ih, Term.subst]
  | app f a _ hf ha => simp only [expand, hf, ha, Term.subst]
  | tlam x k e _ ih => simp only [expand, k.expand_subst, ← Env.subst_bindType, ih, Term.subst]
  | tapp f t _ ih => simp only [expand, ih, t.expand_subst, Term.subst]
  | ann e t _ ih => simp only [expand, ih, t.expand_subst, Term.subst]
  | letIn x v e _ hv he => simp only [expand, hv, ← Env.subst_defineExpr, he]
  | typeIn x v e _ ih => simp only [expand, v.expand_subst, ← Env.subst_defineType, ih]
  | kindIn x v e _ ih => simp only [expand, v.expand_subst, ← Env.subst_defineKind, ih]

/-- An abstraction over values, applied. -/
theorem Expr.inst_expand (ρ : Env) (x : Name) (e : Expr) (a : Term) :
    (e.expand (ρ.bindExpr x)).inst a = e.expand (ρ.defineExpr x a) := by
  rw [Term.inst, ← expand_subst, Env.bindExpr_inst]

/-- An abstraction over types, applied. -/
theorem Expr.instType_expand (ρ : Env) (x : Name) (e : Expr) (t : Nameless) :
    (e.expand (ρ.bindType x)).instType t = e.expand (ρ.defineType x t) := by
  rw [Term.instType, ← expand_subst, Env.bindType_inst]

end SystemFOmega
