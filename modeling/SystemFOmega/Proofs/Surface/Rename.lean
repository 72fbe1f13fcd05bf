import SystemFOmega.Proofs.Run
import SystemFOmega.Proofs.Surface.Telescope
import SystemFOmega.Surface.Rename

/-!
# What renaming does

Renaming gives every binder a number of its own, so that there is a map that tells the telescope of
each name (`Expr.rename_placed`). On a program as it is read, in which names have no numbers, and
whose free names are all in scope, renaming succeeds and keeps the expansion
(`Expr.rename_expand`).
-/

namespace SystemFOmega

open Run

/-! ## Numbers for binders -/

/-- The maps that satisfy `P` are known by what they are on the names with numbers from `c` to
`c'`. -/
def Placeable (c c' : Int) (P : (Name → Telescope) → Prop) : Prop :=
  c ≤ c' ∧ ∃ place₀ : Name → Telescope, ∀ place,
    (∀ x : Name, c ≤ x.id → x.id < c' → place x = place₀ x) → P place

namespace Placeable

variable {c c' c'' : Int} {P Q : (Name → Telescope) → Prop}

theorem const {p : Prop} (h : p) : Placeable c c fun _ => p :=
  ⟨Int.le_refl c, fun _ => [], fun _ _ => h⟩

/-- The next number is that of a binder with the telescope `S`. -/
theorem binder (x : Ident) (S : Telescope) :
    Placeable c (c + 1) fun place => place (x.withId c).name = S :=
  ⟨by omega, fun _ => S, fun place h => h _ (Int.le_refl c) (Int.lt_add_one_iff.2 (Int.le_refl c))⟩

/-- Two phrases are placed by one function, as their numbers do not overlap. -/
theorem and (hP : Placeable c c' P) (hQ : Placeable c' c'' Q) :
    Placeable c c'' fun place => P place ∧ Q place := by
  obtain ⟨h, p, hp⟩ := hP
  obtain ⟨h', q, hq⟩ := hQ
  refine ⟨Int.le_trans h h', fun x => if x.id < c' then p x else q x, fun place hplace => ?_⟩
  constructor
  · exact hp place fun x hx hx' => (hplace x hx (by omega)).trans (if_pos hx')
  · exact hq place fun x hx hx' => (hplace x (by omega) hx').trans (if_neg (by omega))

end Placeable

/-- The innermost binder of a name hides the others. -/
theorem Scope.get?_bind (s : Scope) (l m : Level) (x : Name) (v : String) :
    ((s.bind l x).binders m).get? v =
      if l = m ∧ x.value = v then some x else (s.binders m).get? v := by
  cases l <;> cases m <;> simp [bind, binders]

/-- The binders that a scope finds are in the telescope. -/
def Scope.Fits (s : Scope) (S : Telescope) : Prop :=
  ∀ l v y, (s.binders l).get? v = some y → S.Has l y

namespace Scope.Fits

theorem nil : Fits {} [] := by
  intro l v y h
  cases l <;> cases h

theorem cons {s : Scope} {S : Telescope} (h : s.Fits S) (d : Decl) :
    (s.bind d.level d.name).Fits (d :: S) := by
  intro l v y hy
  rw [get?_bind] at hy
  split at hy
  · rename_i hd
    obtain rfl := Option.some.inj hy
    exact ⟨d, S, hd.1, rfl, List.suffix_rfl⟩
  · obtain ⟨d', S', hl, hd, hS⟩ := h l v y hy
    exact ⟨d', S', hl, hd, hS.trans (List.suffix_cons d S)⟩

end Scope.Fits

section Placed

variable {s : Scope} {S : Telescope} {c : Int}

theorem Ident.fresh_ends {Q : Prop} (x : Ident) :
    Ends x.fresh c (fun y c' => y = x.withId c ∧ c' = c + 1) Q := ⟨rfl, rfl⟩

/-- A name that is resolved is in scope. -/
theorem Ident.resolve_has {l : Level} (hs : s.Fits S) (x : Ident) :
    Ends (x.resolve l s) c (fun y c' => c' = c ∧ S.Has l y.name) True := by
  unfold resolve
  split
  · rename_i y hy
    exact .pure ⟨rfl, hs l _ y hy⟩
  · exact .throw trivial

/-- The names of a renamed kind are in scope. -/
theorem KindExpr.rename_placed (hs : s.Fits S) (k : KindExpr) :
    Ends (k.rename s) c (fun r c' => c' = c ∧ r.Placed S) True := by
  induction k generalizing c with
  | star => exact .pure ⟨rfl, trivial⟩
  | var x =>
    refine .bind (x.resolve_has hs) fun y c' h => ?_
    exact .pure h
  | arrow j k hj hk =>
    refine .bind hj fun j' c₁ h₁ => ?_
    refine .bind hk fun k' c₂ h₂ => ?_
    exact .pure ⟨h₂.1.trans h₁.1, h₁.2, h₂.2⟩

/-- The names of a renamed type are in scope, and each of its binders has its own place. -/
theorem TypeExpr.rename_placed (hs : s.Fits S) (t : TypeExpr) :
    Ends (t.rename s) c (fun r c' => Placeable c c' fun place => r.Placed place S) True := by
  induction t generalizing s S c with
  | int => exact .pure (.const trivial)
  | var x =>
    refine .bind (x.resolve_has hs) fun y c' h => ?_
    obtain ⟨rfl, h⟩ := h
    exact .pure (.const h)
  | arrow t u ht hu | app t u ht hu =>
    refine .bind (ht hs) fun t' c₁ h₁ => ?_
    refine .bind (hu hs) fun u' c₂ h₂ => ?_
    exact .pure (h₁.and h₂)
  | bind b x k t ih =>
    refine .bind (k.rename_placed hs) fun k' c₁ h₁ => ?_
    obtain ⟨rfl, h₁⟩ := h₁
    refine .bind x.fresh_ends fun y c₁' hy => ?_
    obtain ⟨rfl, rfl⟩ := hy
    refine .bind (ih (hs.cons (.typeVar _ k'))) fun t' c₂ h₂ => ?_
    exact .pure ((Placeable.const h₁).and ((Placeable.binder x _).and h₂))
  | kinded t k ih =>
    refine .bind (ih hs) fun t' c₁ h₁ => ?_
    refine .bind (k.rename_placed hs) fun k' c₂ h₂ => ?_
    obtain ⟨rfl, h₂⟩ := h₂
    exact .pure (h₁.and (.const h₂))

/-- The names of a renamed expression are in scope, and each of its binders has its own place. -/
theorem Expr.rename_placed (hs : s.Fits S) (e : Expr) :
    Ends (e.rename s) c (fun r c' => Placeable c c' fun place => r.Placed place S) True := by
  induction e generalizing s S c with
  | lit => exact .pure (.const trivial)
  | var x =>
    refine .bind (x.resolve_has hs) fun y c' h => ?_
    obtain ⟨rfl, h⟩ := h
    exact .pure (.const h)
  | lam x t e _ ih =>
    refine .bind (t.rename_placed hs) fun t' c₁ h₁ => ?_
    refine .bind x.fresh_ends fun y c₁' hy => ?_
    obtain ⟨rfl, rfl⟩ := hy
    refine .bind (ih (hs.cons (.exprVar _ t'))) fun e' c₂ h₂ => ?_
    exact .pure (h₁.and ((Placeable.binder x _).and h₂))
  | app f a _ hf ha =>
    refine .bind (hf hs) fun f' c₁ h₁ => ?_
    refine .bind (ha hs) fun a' c₂ h₂ => ?_
    exact .pure (h₁.and h₂)
  | tlam x k e _ ih =>
    refine .bind (k.rename_placed hs) fun k' c₁ h₁ => ?_
    obtain ⟨rfl, h₁⟩ := h₁
    refine .bind x.fresh_ends fun y c₁' hy => ?_
    obtain ⟨rfl, rfl⟩ := hy
    refine .bind (ih (hs.cons (.typeVar _ k'))) fun e' c₂ h₂ => ?_
    exact .pure ((Placeable.const h₁).and ((Placeable.binder x _).and h₂))
  | tapp e t _ ih | ann e t _ ih =>
    refine .bind (ih hs) fun e' c₁ h₁ => ?_
    refine .bind (t.rename_placed hs) fun t' c₂ h₂ => ?_
    exact .pure (h₁.and h₂)
  | letIn x v e _ hv he =>
    refine .bind (hv hs) fun v' c₁ h₁ => ?_
    refine .bind x.fresh_ends fun y c₁' hy => ?_
    obtain ⟨rfl, rfl⟩ := hy
    refine .bind (he (hs.cons (.exprDef _ v'))) fun e' c₂ h₂ => ?_
    exact .pure (h₁.and ((Placeable.binder x _).and h₂))
  | typeIn x v e _ ih =>
    refine .bind (v.rename_placed hs) fun v' c₁ h₁ => ?_
    refine .bind x.fresh_ends fun y c₁' hy => ?_
    obtain ⟨rfl, rfl⟩ := hy
    refine .bind (ih (hs.cons (.typeDef _ v'))) fun e' c₂ h₂ => ?_
    exact .pure (h₁.and ((Placeable.binder x _).and h₂))
  | kindIn x v e _ ih =>
    refine .bind (v.rename_placed hs) fun v' c₁ h₁ => ?_
    obtain ⟨rfl, h₁⟩ := h₁
    refine .bind x.fresh_ends fun y c₁' hy => ?_
    obtain ⟨rfl, rfl⟩ := hy
    refine .bind (ih (hs.cons (.kindDef _ v'))) fun e' c₂ h₂ => ?_
    exact .pure ((Placeable.const h₁).and ((Placeable.binder x _).and h₂))

end Placed

/-- After renaming, the name of a binder tells its telescope. -/
theorem Expr.exists_placed {e r : Expr} {c c' : Int} (h : e.rename {} c = .ok r c') :
    ∃ place, r.Placed place [] := by
  obtain ⟨-, place, hplace⟩ := (e.rename_placed (c := c) .nil).of_ok h
  exact ⟨place, hplace place fun _ _ _ => rfl⟩

/-! ## Expansion -/

/-- The names that a scope finds have numbers below `c`, and they stand for the same in `ρ'` as the
names without numbers in `ρ`. -/
structure Scope.Reads (s : Scope) (c : Int) (ρ ρ' : Env) : Prop where
  lt {l : Level} {v : String} {y : Name} : (s.binders l).get? v = some y → y.id < c
  kinds {v : String} {y : Name} :
    (s.binders .kind).get? v = some y → ρ'.kinds y = ρ.kinds ⟨v, 0⟩
  types {v : String} {y : Name} :
    (s.binders .type).get? v = some y → ρ'.types y = ρ.types ⟨v, 0⟩
  exprs {v : String} {y : Name} :
    (s.binders .expr).get? v = some y → ρ'.exprs y = ρ.exprs ⟨v, 0⟩

namespace Scope.Reads

variable {s : Scope} {c c' : Int} {ρ ρ' : Env}

theorem nil (c : Int) (ρ ρ' : Env) : Reads {} c ρ ρ' where
  lt {l v y} h := by cases l <;> cases h
  kinds h := by cases h
  types h := by cases h
  exprs h := by cases h

/-- The counter may go on. -/
theorem mono (h : s.Reads c ρ ρ') (hc : c ≤ c') : s.Reads c' ρ ρ' where
  lt hy := Int.lt_of_lt_of_le (h.lt hy) hc
  kinds := h.kinds
  types := h.types
  exprs := h.exprs

/-- The name with the number `c` hides a name with the same text, and no other. -/
theorem find_bind (h : s.Reads c ρ ρ') {l : Level} {v w : String} {y : Name}
    (hy : ((s.bind l ⟨v, c⟩).binders l).get? w = some y) :
    (w = v ∧ y = ⟨v, c⟩) ∨ (w ≠ v ∧ y ≠ ⟨v, c⟩ ∧ (s.binders l).get? w = some y) := by
  rw [get?_bind] at hy
  split at hy
  · rename_i he
    exact .inl ⟨he.2.symm, (Option.some.inj hy).symm⟩
  · rename_i he
    refine .inr ⟨fun e => he ⟨rfl, e.symm⟩, ?_, hy⟩
    rintro rfl
    exact absurd (h.lt hy) (Int.lt_irrefl c)

/-- The numbers in a scope stay below the counter when a binder is entered. -/
theorem lt_bind (h : s.Reads c ρ ρ') {l m : Level} {v w : String} {y : Name}
    (hy : ((s.bind l ⟨v, c⟩).binders m).get? w = some y) : y.id < c + 1 := by
  rw [get?_bind] at hy
  split at hy
  · rw [← Option.some.inj hy]
    exact Int.lt_add_one_iff.2 (Int.le_refl c)
  · exact Int.lt_add_one_of_le (Int.le_of_lt (h.lt hy))

theorem defineKind (h : s.Reads c ρ ρ') (v : String) (k : Kind) :
    (s.bind .kind ⟨v, c⟩).Reads (c + 1) (ρ.defineKind ⟨v, 0⟩ k) (ρ'.defineKind ⟨v, c⟩ k) where
  lt := h.lt_bind
  kinds {w y} hy := by
    obtain ⟨rfl, rfl⟩ | ⟨hw, hy', hy⟩ := h.find_bind hy
    · simp [Env.defineKind]
    · simpa [Env.defineKind, hw, hy'] using h.kinds hy
  types := h.types
  exprs := h.exprs

theorem defineType (h : s.Reads c ρ ρ') (v : String) (t : Nameless) :
    (s.bind .type ⟨v, c⟩).Reads (c + 1) (ρ.defineType ⟨v, 0⟩ t) (ρ'.defineType ⟨v, c⟩ t) where
  lt := h.lt_bind
  kinds := h.kinds
  types {w y} hy := by
    obtain ⟨rfl, rfl⟩ | ⟨hw, hy', hy⟩ := h.find_bind hy
    · simp [Env.defineType]
    · simpa [Env.defineType, hw, hy'] using h.types hy
  exprs := h.exprs

theorem defineExpr (h : s.Reads c ρ ρ') (v : String) (e : Term) :
    (s.bind .expr ⟨v, c⟩).Reads (c + 1) (ρ.defineExpr ⟨v, 0⟩ e) (ρ'.defineExpr ⟨v, c⟩ e) where
  lt := h.lt_bind
  kinds := h.kinds
  types := h.types
  exprs {w y} hy := by
    obtain ⟨rfl, rfl⟩ | ⟨hw, hy', hy⟩ := h.find_bind hy
    · simp [Env.defineExpr]
    · simpa [Env.defineExpr, hw, hy'] using h.exprs hy

theorem bindType (h : s.Reads c ρ ρ') (v : String) :
    (s.bind .type ⟨v, c⟩).Reads (c + 1) (ρ.bindType ⟨v, 0⟩) (ρ'.bindType ⟨v, c⟩) where
  lt := h.lt_bind
  kinds := h.kinds
  types {w y} hy := by
    obtain ⟨rfl, rfl⟩ | ⟨hw, hy', hy⟩ := h.find_bind hy
    · simp [Env.bindType]
    · simp [Env.bindType, hw, hy', h.types hy]
  exprs hy := congrArg Term.shiftType (h.exprs hy)

theorem bindExpr (h : s.Reads c ρ ρ') (v : String) :
    (s.bind .expr ⟨v, c⟩).Reads (c + 1) (ρ.bindExpr ⟨v, 0⟩) (ρ'.bindExpr ⟨v, c⟩) where
  lt := h.lt_bind
  kinds := h.kinds
  types := h.types
  exprs {w y} hy := by
    obtain ⟨rfl, rfl⟩ | ⟨hw, hy', hy⟩ := h.find_bind hy
    · simp [Env.bindExpr]
    · simp [Env.bindExpr, hw, hy', h.exprs hy]

end Scope.Reads

section Expand

variable {s : Scope} {c : Int} {ρ ρ' : Env}

/-- Every one of the names `xs` at the level `l` has a binder in scope. -/
def Scope.Finds (s : Scope) (l : Level) (xs : List Name) : Prop :=
  ∀ x ∈ xs, ∃ y, (s.binders l).get? x.value = some y

theorem Scope.Finds.left {l : Level} {xs ys : List Name} (h : s.Finds l (xs ++ ys)) :
    s.Finds l xs :=
  fun x hx => h x (List.mem_append_left _ hx)

theorem Scope.Finds.right {l : Level} {xs ys : List Name} (h : s.Finds l (xs ++ ys)) :
    s.Finds l ys :=
  fun x hx => h x (List.mem_append_right _ hx)

/-- The names that are free below a binder are found once it has been entered. -/
theorem Scope.Finds.bind {l m : Level} {x : Ident} {n : Name} {xs : List Name}
    (h : s.Finds l (unbound l m x xs)) (hn : n.value = x.value) : (s.bind m n).Finds l xs := by
  intro y hy
  rw [get?_bind]
  split
  · exact ⟨n, rfl⟩
  · rename_i hne
    refine h y (mem_unbound.2 ⟨hy, ?_⟩)
    rintro ⟨rfl, rfl⟩
    exact hne ⟨rfl, hn⟩

/-- A name as a reader writes it. -/
theorem Ident.name_eq {x : Ident} (h : x.name.id = 0) : x.name = ⟨x.value, 0⟩ := by
  obtain ⟨⟨v, n⟩, l⟩ := x
  simp only at h
  subst h
  rfl

/-- A name that the scope finds is resolved. -/
theorem Ident.resolve_find {l : Level} (x : Ident) (h : s.Finds l [x.name]) :
    Ends (x.resolve l s) c
      (fun y c' => c' = c ∧ (s.binders l).get? x.value = some y.name) False := by
  obtain ⟨y, hy⟩ := h x.name (List.mem_singleton_self _)
  have hy' : (s.binders l).get? x.value = some y := hy
  unfold resolve
  rw [hy']
  exact .pure ⟨rfl, rfl⟩

theorem KindExpr.rename_expand {k : KindExpr} (hp : ∀ x ∈ k.names, x.id = 0)
    (hf : ∀ l, s.Finds l (k.free l)) (hr : s.Reads c ρ ρ') :
    Ends (k.rename s) c (fun r c' => c' = c ∧ r.expand ρ' = k.expand ρ) False := by
  induction k generalizing c with
  | star => exact .pure ⟨rfl, rfl⟩
  | var x =>
    refine .bind (x.resolve_find (hf .kind)) fun y c' h => ?_
    refine .pure ⟨h.1, ?_⟩
    simp only [expand, hr.kinds h.2, Ident.name_eq (hp x.name (List.mem_singleton_self _))]
  | arrow j k hj hk =>
    simp only [names, List.forall_mem_append] at hp
    refine .bind (hj hp.1 (fun l => (hf l).left) hr) fun j' c₁ h₁ => ?_
    obtain ⟨rfl, h₁⟩ := h₁
    refine .bind (hk hp.2 (fun l => (hf l).right) hr) fun k' c₂ h₂ => ?_
    obtain ⟨rfl, h₂⟩ := h₂
    refine .pure ⟨rfl, ?_⟩
    simp only [expand, h₁, h₂]

/-- A type whose free names are found is renamed, and means the same. -/
theorem TypeExpr.rename_expand {t : TypeExpr} (hp : ∀ x ∈ t.names, x.id = 0)
    (hf : ∀ l, s.Finds l (t.free l)) (hr : s.Reads c ρ ρ') :
    Ends (t.rename s) c (fun r c' => c ≤ c' ∧ r.expand ρ' = t.expand ρ) False := by
  induction t generalizing s c ρ ρ' with
  | int => exact .pure ⟨Int.le_refl c, rfl⟩
  | var x =>
    refine .bind (x.resolve_find (hf .type)) fun y c' h => ?_
    refine .pure ⟨Int.le_of_eq h.1.symm, ?_⟩
    simp only [expand, hr.types h.2, Ident.name_eq (hp x.name (List.mem_singleton_self _))]
  | arrow t u ht hu | app t u ht hu =>
    simp only [names, List.forall_mem_append] at hp
    refine .bind (ht hp.1 (fun l => (hf l).left) hr) fun t' c₁ h₁ => ?_
    refine .bind (hu hp.2 (fun l => (hf l).right) (hr.mono h₁.1)) fun u' c₂ h₂ => ?_
    refine .pure ⟨Int.le_trans h₁.1 h₂.1, ?_⟩
    simp only [expand, h₁.2, h₂.2]
  | bind b x k t ih =>
    simp only [names, List.forall_mem_cons, List.forall_mem_append] at hp
    refine .bind (k.rename_expand hp.2.1 (fun l => (hf l).left) hr) fun k' c₁ h₁ => ?_
    obtain ⟨rfl, h₁⟩ := h₁
    refine .bind x.fresh_ends fun y c₁' hy => ?_
    obtain ⟨rfl, rfl⟩ := hy
    refine .bind (ih hp.2.2 (fun l => (hf l).right.bind rfl) (hr.bindType x.value))
      fun t' c₂ h₂ => ?_
    refine .pure ⟨by omega, ?_⟩
    simp only [expand, h₁, Ident.name_eq hp.1, ← h₂.2]
    rfl
  | kinded t k ih =>
    simp only [names, List.forall_mem_append] at hp
    refine .bind (ih hp.1 (fun l => (hf l).left) hr) fun t' c₁ h₁ => ?_
    refine .bind (k.rename_expand hp.2 (fun l => (hf l).right) (hr.mono h₁.1)) fun k' c₂ h₂ => ?_
    obtain ⟨rfl, h₂⟩ := h₂
    refine .pure ⟨h₁.1, ?_⟩
    simp only [expand, h₁.2, h₂]

/-- Renaming a program as it is read succeeds if its free names are in scope, and keeps its
expansion. -/
theorem Expr.rename_expand {e : Expr} (hp : ∀ x ∈ e.names, x.id = 0)
    (hf : ∀ l, s.Finds l (e.free l)) (hr : s.Reads c ρ ρ') :
    Ends (e.rename s) c (fun r c' => c ≤ c' ∧ r.expand ρ' = e.expand ρ) False := by
  -- the environments `ρ` and `ρ'` go along: they say the same of a name and of its renamed form
  induction e generalizing s c ρ ρ' with
  | lit => exact .pure ⟨Int.le_refl c, rfl⟩
  | var x =>
    refine .bind (x.resolve_find (hf .expr)) fun y c' h => ?_
    refine .pure ⟨Int.le_of_eq h.1.symm, ?_⟩
    simp only [expand, hr.exprs h.2, Ident.name_eq (hp x.name (List.mem_singleton_self _))]
  | lam x t e _ ih =>
    simp only [names, List.forall_mem_cons, List.forall_mem_append] at hp
    refine .bind (t.rename_expand hp.2.1 (fun l => (hf l).left) hr) fun t' c₁ h₁ => ?_
    refine .bind x.fresh_ends fun y c₁' hy => ?_
    obtain ⟨rfl, rfl⟩ := hy
    refine .bind (ih hp.2.2 (fun l => (hf l).right.bind rfl) ((hr.mono h₁.1).bindExpr x.value))
      fun e' c₂ h₂ => ?_
    refine .pure ⟨by omega, ?_⟩
    simp only [expand, h₁.2, Ident.name_eq hp.1, ← h₂.2]
    rfl
  | app f a _ hf' ha =>
    simp only [names, List.forall_mem_append] at hp
    refine .bind (hf' hp.1 (fun l => (hf l).left) hr) fun t' c₁ h₁ => ?_
    refine .bind (ha hp.2 (fun l => (hf l).right) (hr.mono h₁.1)) fun u' c₂ h₂ => ?_
    refine .pure ⟨Int.le_trans h₁.1 h₂.1, ?_⟩
    simp only [expand, h₁.2, h₂.2]
  | tlam x k e _ ih =>
    simp only [names, List.forall_mem_cons, List.forall_mem_append] at hp
    refine .bind (k.rename_expand hp.2.1 (fun l => (hf l).left) hr) fun k' c₁ h₁ => ?_
    obtain ⟨rfl, h₁⟩ := h₁
    refine .bind x.fresh_ends fun y c₁' hy => ?_
    obtain ⟨rfl, rfl⟩ := hy
    refine .bind (ih hp.2.2 (fun l => (hf l).right.bind rfl) (hr.bindType x.value))
      fun e' c₂ h₂ => ?_
    refine .pure ⟨by omega, ?_⟩
    simp only [expand, h₁, Ident.name_eq hp.1, ← h₂.2]
    rfl
  | tapp e t _ ih | ann e t _ ih =>
    simp only [names, List.forall_mem_append] at hp
    refine .bind (ih hp.1 (fun l => (hf l).left) hr) fun e' c₁ h₁ => ?_
    refine .bind (t.rename_expand hp.2 (fun l => (hf l).right) (hr.mono h₁.1)) fun t' c₂ h₂ => ?_
    refine .pure ⟨Int.le_trans h₁.1 h₂.1, ?_⟩
    simp only [expand, h₁.2, h₂.2]
  | letIn x v e _ hv he =>
    simp only [names, List.forall_mem_cons, List.forall_mem_append] at hp
    refine .bind (hv hp.2.1 (fun l => (hf l).left) hr) fun v' c₁ h₁ => ?_
    refine .bind x.fresh_ends fun y c₁' hy => ?_
    obtain ⟨rfl, rfl⟩ := hy
    refine .bind (he hp.2.2 (fun l => (hf l).right.bind rfl)
      ((hr.mono h₁.1).defineExpr x.value (v.expand ρ))) fun e' c₂ h₂ => ?_
    refine .pure ⟨by omega, ?_⟩
    simp only [expand, h₁.2, Ident.name_eq hp.1, ← h₂.2]
    rfl
  | typeIn x v e _ ih =>
    simp only [names, List.forall_mem_cons, List.forall_mem_append] at hp
    refine .bind (v.rename_expand hp.2.1 (fun l => (hf l).left) hr) fun v' c₁ h₁ => ?_
    refine .bind x.fresh_ends fun y c₁' hy => ?_
    obtain ⟨rfl, rfl⟩ := hy
    refine .bind (ih hp.2.2 (fun l => (hf l).right.bind rfl)
      ((hr.mono h₁.1).defineType x.value (v.expand ρ))) fun e' c₂ h₂ => ?_
    refine .pure ⟨by omega, ?_⟩
    simp only [expand, h₁.2, Ident.name_eq hp.1, ← h₂.2]
    rfl
  | kindIn x v e _ ih =>
    simp only [names, List.forall_mem_cons, List.forall_mem_append] at hp
    refine .bind (v.rename_expand hp.2.1 (fun l => (hf l).left) hr) fun v' c₁ h₁ => ?_
    obtain ⟨rfl, h₁⟩ := h₁
    refine .bind x.fresh_ends fun y c₁' hy => ?_
    obtain ⟨rfl, rfl⟩ := hy
    refine .bind (ih hp.2.2 (fun l => (hf l).right.bind rfl)
      (hr.defineKind x.value (v.expand ρ))) fun e' c₂ h₂ => ?_
    refine .pure ⟨by omega, ?_⟩
    simp only [expand, h₁, Ident.name_eq hp.1, ← h₂.2]
    rfl

end Expand

end SystemFOmega
