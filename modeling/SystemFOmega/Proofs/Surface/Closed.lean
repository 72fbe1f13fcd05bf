import SystemFOmega.Proofs.Surface.Expand
import SystemFOmega.Surface.Subst

/-!
# Replacements by closed phrases

Where what is put in has no free names, substitution renames no binder and leaves the counter alone
(`Expr.subst_closed`). In the expansion of the result, the name that is replaced stands for the
expansion of what is put for it.
-/

namespace SystemFOmega

/-- A phrase without free names. -/
def TypeExpr.Closed (t : TypeExpr) : Prop := ∀ l, t.free l = []

/-- All references in the expression have binders. -/
def Expr.Closed (e : Expr) : Prop := ∀ l, e.free l = []

theorem KindExpr.expand_closed {k : KindExpr} (h : ∀ l, k.free l = []) (ρ ρ' : Env) :
    k.expand ρ = k.expand ρ' :=
  expand_congr ⟨by simp [h], by simp [h], by simp [h]⟩

/-- The meaning of a closed type does not depend on the environment. -/
theorem TypeExpr.expand_closed {t : TypeExpr} (h : t.Closed) (ρ ρ' : Env) :
    t.expand ρ = t.expand ρ' :=
  expand_congr ⟨by simp [h .kind], by simp [h .type], by simp [h .expr]⟩

/-- The meaning of a closed expression does not depend on the environment. -/
theorem Expr.expand_closed {e : Expr} (h : e.Closed) (ρ ρ' : Env) : e.expand ρ = e.expand ρ' :=
  expand_congr ⟨by simp [h .kind], by simp [h .type], by simp [h .expr]⟩

theorem TypeExpr.rename_expand_closed {t : TypeExpr} (h : t.Closed) (ρ : Env) (ξ : Ref → Ref) :
    (t.expand ρ).rename ξ = t.expand ρ := by
  rw [Nameless.rename_eq_subst, ← t.expand_subst _ Term.var]
  exact expand_closed h _ _

theorem Expr.rename_expand_closed {e : Expr} (h : e.Closed) (ρ : Env) (ξ ζ : Ref → Ref) :
    (e.expand ρ).rename ξ ζ = e.expand ρ := by
  rw [Term.rename_eq_subst, ← expand_subst]
  exact expand_closed h _ _

/-! ## The replacement in the environment -/

namespace Env

/-- The environment in which the name that `σ` replaces stands for what is put for it. -/
def replace (σ : Replacement) (ρ : Env) : Env :=
  match σ with
  | .expr x e => ρ.defineExpr x (e.expand ρ)
  | .type x t => ρ.defineType x (t.expand ρ)
  | .kind x k => ρ.defineKind x (k.expand ρ)

variable {σ : Replacement} {x : Name} (ρ : Env)

/-! A binder or definition of the replaced name hides the replacement. -/

theorem bindType_replace_self (h : .type = σ.level ∧ x = σ.name) :
    (ρ.replace σ).bindType x = ρ.bindType x := by
  obtain ⟨hl, rfl⟩ := h
  cases σ with
  | type x t =>
    ext1
    · rfl
    · funext y
      by_cases hy : y = x <;> simp [replace, defineType, bindType, Replacement.name, hy]
    · rfl
  | _ => cases hl

theorem bindExpr_replace_self (h : .expr = σ.level ∧ x = σ.name) :
    (ρ.replace σ).bindExpr x = ρ.bindExpr x := by
  obtain ⟨hl, rfl⟩ := h
  cases σ with
  | expr x e =>
    ext1
    · rfl
    · rfl
    · funext y
      by_cases hy : y = x <;> simp [replace, defineExpr, bindExpr, Replacement.name, hy]
  | _ => cases hl

theorem defineKind_replace_self (k : Kind) (h : .kind = σ.level ∧ x = σ.name) :
    (ρ.replace σ).defineKind x k = ρ.defineKind x k := by
  obtain ⟨hl, rfl⟩ := h
  cases σ with
  | kind x j => simp [replace, defineKind, Replacement.name]
  | _ => cases hl

theorem defineType_replace_self (t : Nameless) (h : .type = σ.level ∧ x = σ.name) :
    (ρ.replace σ).defineType x t = ρ.defineType x t := by
  obtain ⟨hl, rfl⟩ := h
  cases σ with
  | type x u => simp [replace, defineType, Replacement.name]
  | _ => cases hl

theorem defineExpr_replace_self (e : Term) (h : .expr = σ.level ∧ x = σ.name) :
    (ρ.replace σ).defineExpr x e = ρ.defineExpr x e := by
  obtain ⟨hl, rfl⟩ := h
  cases σ with
  | expr x a => simp [replace, defineExpr, Replacement.name]
  | _ => cases hl

/-! Any other one leaves it alone, if what is put in is closed. -/

theorem defineExpr_bindType (y : Name) (e : Term) :
    (ρ.defineExpr y e).bindType x = (ρ.bindType x).defineExpr y e.shiftType := by
  ext1
  · rfl
  · rfl
  · funext z
    by_cases hz : z = y <;> simp [defineExpr, bindType, hz]

theorem defineType_bindType {y : Name} (hxy : x ≠ y) (t : Nameless) :
    (ρ.defineType y t).bindType x = (ρ.bindType x).defineType y t.shift := by
  ext1
  · rfl
  · funext z
    by_cases hz : z = y
    · simp [defineType, bindType, hz, Ne.symm hxy]
    · by_cases hx : z = x <;> simp [defineType, bindType, hz, hx, hxy]
  · rfl

theorem defineExpr_bindExpr {y : Name} (hxy : x ≠ y) (e : Term) :
    (ρ.defineExpr y e).bindExpr x = (ρ.bindExpr x).defineExpr y e.shift := by
  ext1
  · rfl
  · rfl
  · funext z
    by_cases hz : z = y
    · simp [defineExpr, bindExpr, hz, Ne.symm hxy]
    · by_cases hx : z = x <;> simp [defineExpr, bindExpr, hz, hx, hxy]

theorem bindType_replace (hσ : ∀ l, σ.free l = []) (h : ¬ (.type = σ.level ∧ x = σ.name)) :
    (ρ.replace σ).bindType x = (ρ.bindType x).replace σ := by
  cases σ with
  | expr y e =>
    rw [replace, replace, defineExpr_bindType, Term.shiftType, Expr.rename_expand_closed hσ,
      Expr.expand_closed hσ (ρ.bindType x)]
  | type y t =>
    have hxy : x ≠ y := fun e => h ⟨rfl, e⟩
    rw [replace, replace, defineType_bindType ρ hxy, Nameless.shift,
      TypeExpr.rename_expand_closed hσ, TypeExpr.expand_closed hσ (ρ.bindType x)]
  | kind y k =>
    rw [replace, replace, KindExpr.expand_closed hσ (ρ.bindType x) ρ]
    rfl

theorem bindExpr_replace (hσ : ∀ l, σ.free l = []) (h : ¬ (.expr = σ.level ∧ x = σ.name)) :
    (ρ.replace σ).bindExpr x = (ρ.bindExpr x).replace σ := by
  cases σ with
  | expr y e =>
    have hxy : x ≠ y := fun e => h ⟨rfl, e⟩
    rw [replace, replace, defineExpr_bindExpr ρ hxy, Term.shift, Expr.rename_expand_closed hσ,
      Expr.expand_closed hσ (ρ.bindExpr x)]
  | type y t =>
    rw [replace, replace, TypeExpr.expand_closed hσ (ρ.bindExpr x) ρ]
    rfl
  | kind y k =>
    rw [replace, replace, KindExpr.expand_closed hσ (ρ.bindExpr x) ρ]
    rfl

theorem defineKind_replace (hσ : ∀ l, σ.free l = []) (k : Kind)
    (h : ¬ (.kind = σ.level ∧ x = σ.name)) :
    (ρ.replace σ).defineKind x k = (ρ.defineKind x k).replace σ := by
  cases σ with
  | expr y e =>
    rw [replace, replace, Expr.expand_closed hσ (ρ.defineKind x k) ρ]
    rfl
  | type y t =>
    rw [replace, replace, TypeExpr.expand_closed hσ (ρ.defineKind x k) ρ]
    rfl
  | kind y j =>
    have hxy : x ≠ y := fun e => h ⟨rfl, e⟩
    rw [replace, replace, KindExpr.expand_closed hσ (ρ.defineKind x k) ρ]
    simp only [defineKind, Function.update_comm hxy]

theorem defineType_replace (hσ : ∀ l, σ.free l = []) (t : Nameless)
    (h : ¬ (.type = σ.level ∧ x = σ.name)) :
    (ρ.replace σ).defineType x t = (ρ.defineType x t).replace σ := by
  cases σ with
  | expr y e =>
    rw [replace, replace, Expr.expand_closed hσ (ρ.defineType x t) ρ]
    rfl
  | type y u =>
    have hxy : x ≠ y := fun e => h ⟨rfl, e⟩
    rw [replace, replace, TypeExpr.expand_closed hσ (ρ.defineType x t) ρ]
    simp only [defineType, Function.update_comm hxy]
  | kind y k =>
    rw [replace, replace, KindExpr.expand_closed hσ (ρ.defineType x t) ρ]
    rfl

theorem defineExpr_replace (hσ : ∀ l, σ.free l = []) (e : Term)
    (h : ¬ (.expr = σ.level ∧ x = σ.name)) :
    (ρ.replace σ).defineExpr x e = (ρ.defineExpr x e).replace σ := by
  cases σ with
  | expr y a =>
    have hxy : x ≠ y := fun e => h ⟨rfl, e⟩
    rw [replace, replace, Expr.expand_closed hσ (ρ.defineExpr x e) ρ]
    simp only [defineExpr, Function.update_comm hxy]
  | type y t =>
    rw [replace, replace, TypeExpr.expand_closed hσ (ρ.defineExpr x e) ρ]
    rfl
  | kind y k =>
    rw [replace, replace, KindExpr.expand_closed hσ (ρ.defineExpr x e) ρ]
    rfl

end Env

/-! ## Substitution -/

/-- Does `σ` in a type without any renaming. -/
def TypeExpr.put (σ : Replacement) : TypeExpr → TypeExpr
  | .int => .int
  | .var x => σ.typeFor x
  | .arrow s t => .arrow (s.put σ) (t.put σ)
  | .bind b x k t =>
    .bind b x (k.subst σ) (if .type = σ.level ∧ x.name = σ.name then t else t.put σ)
  | .app f a => .app (f.put σ) (a.put σ)
  | .kinded t k => .kinded (t.put σ) (k.subst σ)

/-- Does `σ` in an expression without any renaming. -/
def Expr.put (σ : Replacement) : Expr → Expr
  | .lit n l => .lit n l
  | .var x l => σ.exprFor x l
  | .lam x t e l => .lam x (t.put σ) (if .expr = σ.level ∧ x.name = σ.name then e else e.put σ) l
  | .app f a l => .app (f.put σ) (a.put σ) l
  | .tlam x k e l =>
    .tlam x (k.subst σ) (if .type = σ.level ∧ x.name = σ.name then e else e.put σ) l
  | .tapp f t l => .tapp (f.put σ) (t.put σ) l
  | .ann e t l => .ann (e.put σ) (t.put σ) l
  | .letIn x v e l =>
    .letIn x (v.put σ) (if .expr = σ.level ∧ x.name = σ.name then e else e.put σ) l
  | .typeIn x v e l =>
    .typeIn x (v.put σ) (if .type = σ.level ∧ x.name = σ.name then e else e.put σ) l
  | .kindIn x v e l =>
    .kindIn x (v.subst σ) (if .kind = σ.level ∧ x.name = σ.name then e else e.put σ) l

variable {σ : Replacement}

/-- A closed phrase captures nothing, so that no binder is renamed. -/
theorem Replacement.under_closed {β : Type} (hσ : ∀ l, σ.free l = []) {l : Level} {x : Ident}
    {go : Replacement → β → StateM Int β} {body body' : β} (h : go σ body = pure body') :
    σ.under l x go body = pure (x, if l = σ.level ∧ x.name = σ.name then body else body') := by
  by_cases hx : l = σ.level ∧ x.name = σ.name <;> simp [under, hσ l, hx, h]

/-- Closed phrases are put in without new names for binders, if there is fuel for the type. -/
theorem TypeExpr.substWithin_closed (hσ : ∀ l, σ.free l = []) {n : Nat} {t : TypeExpr}
    (hn : t.size ≤ n) : t.substWithin n σ = pure (t.put σ) := by
  induction n generalizing t with
  | zero => cases t <;> simp [size] at hn
  | succ n ih =>
    cases t with
    | int | var => rfl
    | arrow s t | app s t =>
      simp only [size] at hn
      simp only [substWithin, put, ih (t := s) (by omega), ih (t := t) (by omega), pure_bind]
    | bind b x k t =>
      simp only [size] at hn
      have hu := Replacement.under_closed hσ (l := .type) (x := x) (ih (t := t) (by omega))
      simp only [substWithin, put, hu, pure_bind]
    | kinded t k =>
      simp only [size] at hn
      simp only [substWithin, put, ih (t := t) (by omega), pure_bind]

theorem TypeExpr.subst_closed (hσ : ∀ l, σ.free l = []) (t : TypeExpr) :
    t.subst σ = pure (t.put σ) :=
  substWithin_closed hσ (Nat.le_refl _)

/-- Closed phrases are put in without new names for binders, if there is fuel for the expression. -/
theorem Expr.substWithin_closed (hσ : ∀ l, σ.free l = []) {n : Nat} {e : Expr}
    (hn : e.size ≤ n) : e.substWithin n σ = pure (e.put σ) := by
  induction n generalizing e with
  | zero => cases e <;> simp [size] at hn
  | succ n ih =>
    have hu {e : Expr} (l : Level) (x : Ident) (hn : e.size ≤ n) :=
      Replacement.under_closed hσ (l := l) (x := x) (ih hn)
    cases e with
    | lit | var => rfl
    | lam x t e =>
      simp only [size] at hn
      simp only [substWithin, put, hu (e := e) .expr x (by omega), t.subst_closed hσ, pure_bind]
    | app f a =>
      simp only [size] at hn
      simp only [substWithin, put, ih (e := f) (by omega), ih (e := a) (by omega), pure_bind]
    | tlam x k e =>
      simp only [size] at hn
      simp only [substWithin, put, hu (e := e) .type x (by omega), pure_bind]
    | tapp e t | ann e t =>
      simp only [size] at hn
      simp only [substWithin, put, ih (e := e) (by omega), t.subst_closed hσ, pure_bind]
    | letIn x v e =>
      simp only [size] at hn
      simp only [substWithin, put, hu (e := e) .expr x (by omega), ih (e := v) (by omega),
        pure_bind]
    | typeIn x v e =>
      simp only [size] at hn
      simp only [substWithin, put, hu (e := e) .type x (by omega), v.subst_closed hσ, pure_bind]
    | kindIn x v e =>
      simp only [size] at hn
      simp only [substWithin, put, hu (e := e) .kind x (by omega), pure_bind]

/-- Where what is put in is closed, substitution renames nothing and takes no fresh number. -/
theorem Expr.subst_closed (hσ : ∀ l, σ.free l = []) (e : Expr) : e.subst σ = pure (e.put σ) :=
  substWithin_closed hσ (Nat.le_refl _)

/-! ## The expansion of the result -/

theorem KindExpr.expand_put (ρ : Env) (k : KindExpr) :
    (k.subst σ).expand ρ = k.expand (ρ.replace σ) := by
  induction k with
  | star => rfl
  | var x =>
    cases σ with
    | kind y k =>
      by_cases hx : x.name = y <;>
        simp [subst, expand, Replacement.kindFor, Env.replace, Env.defineKind, hx]
    | _ => rfl
  | arrow j k hj hk => simp only [subst, expand, hj, hk]

/-- A type with a closed phrase put in means what it does where the name stands for the phrase. -/
theorem TypeExpr.expand_put (hσ : ∀ l, σ.free l = []) (ρ : Env) (t : TypeExpr) :
    (t.put σ).expand ρ = t.expand (ρ.replace σ) := by
  induction t generalizing ρ with
  | int => rfl
  | var x =>
    cases σ with
    | type y t =>
      by_cases hx : x.name = y <;>
        simp [put, expand, Replacement.typeFor, Env.replace, Env.defineType, hx]
    | _ => rfl
  | arrow s t hs ht | app s t hs ht => simp only [put, expand, hs, ht]
  | bind b x k t ih =>
    simp only [put, expand, k.expand_put]
    split
    · rename_i h
      rw [ρ.bindType_replace_self h]
    · rename_i h
      rw [ih, ρ.bindType_replace hσ h]
  | kinded t k ih => simp only [put, expand, ih, k.expand_put]

/-- An expression with a closed phrase put in means what it does where the name stands for the
phrase. -/
theorem Expr.expand_put (hσ : ∀ l, σ.free l = []) (ρ : Env) (e : Expr) :
    (e.put σ).expand ρ = e.expand (ρ.replace σ) := by
  induction e generalizing ρ with
  | lit => rfl
  | var x =>
    cases σ with
    | expr y e =>
      by_cases hx : x.name = y <;>
        simp [put, expand, Replacement.exprFor, Env.replace, Env.defineExpr, hx]
    | _ => rfl
  | lam x t e _ ih =>
    simp only [put, expand, t.expand_put hσ]
    split
    · rename_i h
      rw [ρ.bindExpr_replace_self h]
    · rename_i h
      rw [ih, ρ.bindExpr_replace hσ h]
  | app f a _ hf ha => simp only [put, expand, hf, ha]
  | tlam x k e _ ih =>
    simp only [put, expand, k.expand_put]
    split
    · rename_i h
      rw [ρ.bindType_replace_self h]
    · rename_i h
      rw [ih, ρ.bindType_replace hσ h]
  | tapp e t _ ih | ann e t _ ih => simp only [put, expand, ih, t.expand_put hσ]
  | letIn x v e _ hv he =>
    simp only [put, expand, hv]
    split
    · rename_i h
      rw [ρ.defineExpr_replace_self _ h]
    · rename_i h
      rw [he, ρ.defineExpr_replace hσ _ h]
  | typeIn x v e _ ih =>
    simp only [put, expand, v.expand_put hσ]
    split
    · rename_i h
      rw [ρ.defineType_replace_self _ h]
    · rename_i h
      rw [ih, ρ.defineType_replace hσ _ h]
  | kindIn x v e _ ih =>
    simp only [put, expand, v.expand_put]
    split
    · rename_i h
      rw [ρ.defineKind_replace_self _ h]
    · rename_i h
      rw [ih, ρ.defineKind_replace hσ _ h]

/-! ## The free names of the result -/

theorem KindExpr.free_put (hσ : ∀ l, σ.free l = []) {k : KindExpr} {l : Level} {y : Name}
    (h : y ∈ (k.subst σ).free l) : y ∈ k.free l ∧ ¬ (l = σ.level ∧ y = σ.name) := by
  induction k with
  | star => simp [subst, free] at h
  | var x =>
    cases σ with
    | kind z k =>
      have hk : k.free l = [] := hσ l
      by_cases hx : x.name = z <;>
        simp_all [subst, free, Replacement.kindFor, Replacement.level, Replacement.name]
    | _ => simp_all [subst, free, Replacement.kindFor, Replacement.level, Replacement.name]
  | arrow j k hj hk =>
    simp only [subst, free, List.mem_append] at h ⊢
    exact h.elim (fun h => (hj h).imp_left .inl) fun h => (hk h).imp_left .inr

/-- The names that are left outside a binder of `x`, whose body has the free names `xs` and, after
the replacement, `ys`. -/
theorem mem_unbound_put {l m : Level} {x : Ident} {y : Name} {xs ys : List Name}
    (hys : y ∈ ys → y ∈ xs ∧ ¬ (l = σ.level ∧ y = σ.name))
    (h : y ∈ unbound l m x (if m = σ.level ∧ x.name = σ.name then xs else ys)) :
    y ∈ unbound l m x xs ∧ ¬ (l = σ.level ∧ y = σ.name) := by
  rw [mem_unbound] at h
  obtain ⟨hy, hx⟩ := h
  split at hy
  · rename_i hc
    rw [hc.1, hc.2] at hx
    exact ⟨mem_unbound.2 ⟨hy, by rwa [hc.1, hc.2]⟩, hx⟩
  · exact ⟨mem_unbound.2 ⟨(hys hy).1, hx⟩, (hys hy).2⟩

theorem TypeExpr.free_put (hσ : ∀ l, σ.free l = []) {t : TypeExpr} {l : Level} {y : Name}
    (h : y ∈ (t.put σ).free l) : y ∈ t.free l ∧ ¬ (l = σ.level ∧ y = σ.name) := by
  induction t with
  | int => simp [put, free] at h
  | var x =>
    cases σ with
    | type z t =>
      have ht : t.free l = [] := hσ l
      by_cases hx : x.name = z <;>
        simp_all [put, free, Replacement.typeFor, Replacement.level, Replacement.name]
    | _ => simp_all [put, free, Replacement.typeFor, Replacement.level, Replacement.name]
  | arrow s t hs ht | app s t hs ht =>
    simp only [put, free, List.mem_append] at h ⊢
    exact h.elim (fun h => (hs h).imp_left .inl) fun h => (ht h).imp_left .inr
  | bind b x k t ih =>
    simp only [put, free, List.mem_append, apply_ite (TypeExpr.free l)] at h ⊢
    rcases h with h | h
    · exact (k.free_put hσ h).imp_left .inl
    · exact (mem_unbound_put ih h).imp_left .inr
  | kinded t k ih =>
    simp only [put, free, List.mem_append] at h ⊢
    exact h.elim (fun h => (ih h).imp_left .inl) fun h => (k.free_put hσ h).imp_left .inr

/-- The name that is replaced by a closed phrase is no longer free, and no other name becomes so. -/
theorem Expr.free_put (hσ : ∀ l, σ.free l = []) {e : Expr} {l : Level} {y : Name}
    (h : y ∈ (e.put σ).free l) : y ∈ e.free l ∧ ¬ (l = σ.level ∧ y = σ.name) := by
  induction e with
  | lit => simp [put, free] at h
  | var x =>
    cases σ with
    | expr z e =>
      have he : e.free l = [] := hσ l
      by_cases hx : x.name = z <;>
        simp_all [put, free, Replacement.exprFor, Replacement.level, Replacement.name]
    | _ => simp_all [put, free, Replacement.exprFor, Replacement.level, Replacement.name]
  -- below a binder of the same name the replacement does nothing
  | lam x t e _ ih =>
    simp only [put, free, List.mem_append, apply_ite (Expr.free l)] at h ⊢
    rcases h with h | h
    · exact (t.free_put hσ h).imp_left .inl
    · exact (mem_unbound_put ih h).imp_left .inr
  | app f a _ hf ha =>
    simp only [put, free, List.mem_append] at h ⊢
    exact h.elim (fun h => (hf h).imp_left .inl) fun h => (ha h).imp_left .inr
  | tlam x k e _ ih =>
    simp only [put, free, List.mem_append, apply_ite (Expr.free l)] at h ⊢
    rcases h with h | h
    · exact (k.free_put hσ h).imp_left .inl
    · exact (mem_unbound_put ih h).imp_left .inr
  | tapp e t _ ih | ann e t _ ih =>
    simp only [put, free, List.mem_append] at h ⊢
    exact h.elim (fun h => (ih h).imp_left .inl) fun h => (t.free_put hσ h).imp_left .inr
  | letIn x v e _ hv he =>
    simp only [put, free, List.mem_append, apply_ite (Expr.free l)] at h ⊢
    rcases h with h | h
    · exact (hv h).imp_left .inl
    · exact (mem_unbound_put he h).imp_left .inr
  | typeIn x v e _ ih =>
    simp only [put, free, List.mem_append, apply_ite (Expr.free l)] at h ⊢
    rcases h with h | h
    · exact (v.free_put hσ h).imp_left .inl
    · exact (mem_unbound_put ih h).imp_left .inr
  | kindIn x v e _ ih =>
    simp only [put, free, List.mem_append, apply_ite (Expr.free l)] at h ⊢
    rcases h with h | h
    · exact (v.free_put hσ h).imp_left .inl
    · exact (mem_unbound_put ih h).imp_left .inr

/-- The body of a closed binder or definition is closed after the replacement of its name. -/
theorem Expr.closed_put (hσ : ∀ l, σ.free l = []) {e : Expr} {x : Ident} (hx : σ.name = x.name)
    (he : ∀ l, unbound l σ.level x (e.free l) = []) : (e.put σ).Closed := by
  intro l
  refine List.eq_nil_iff_forall_not_mem.2 fun y hy => ?_
  obtain ⟨hy, hne⟩ := free_put hσ hy
  have hmem : y ∈ unbound l σ.level x (e.free l) := mem_unbound.2 ⟨hy, hx ▸ hne⟩
  rw [he l] at hmem
  exact List.not_mem_nil hmem

end SystemFOmega
