import SystemFOmega.Core.Subst
import SystemFOmega.Proofs.Nameless.Basic

/-!
# Core types without names

`Ty.nameless` forgets the names of binders and the kinds of nodes; two core types are
alpha-equivalent if they have the same nameless form (`Ty.AlphaEq`). Substitution in core types,
with all its renaming of binders, is substitution for a free name on nameless forms
(`Ty.nameless_subst`), whatever numbers the binders have and wherever the counter stands.
-/

namespace SystemFOmega

/-! ## Putting a type for a free name -/

namespace Nameless

theorem up_put (x : Name) (a : Nameless) : up (put x a) = put x a.shift := by
  funext r
  obtain rfl | ⟨s, rfl⟩ := r.zero_or_shift
  · rfl
  · by_cases h : s = .free x
    · subst h
      rw [up_shift, put_self]
      exact (put_self x a.shift).symm
    · have h' : s.shift ≠ .free x := fun e => h (Ref.shift_injective e)
      simp [put_of_ne h, put_of_ne h', shift, rename]

/-- Nothing is put for a name that is not used. -/
theorem subst_put_of_not_uses {x : Name} {a t : Nameless} (h : ¬ t.Uses (.free x)) :
    t.subst (put x a) = t := by
  refine Eq.trans (subst_congr fun r hr => put_of_ne ?_) (subst_var t)
  rintro rfl
  exact h hr

theorem rename_close_of_not_uses {x : Name} {t : Nameless} (h : ¬ t.Uses (.free x)) :
    t.rename (Ref.close x) = t.shift := by
  refine rename_congr fun r hr => Ref.close_of_ne ?_
  rintro rfl
  exact h hr

/-- Under a binder of another name that captures nothing, putting a type for a name is the same
before and after the binder is closed. -/
theorem close_put {x y : Name} {a t : Nameless} (hxy : y ≠ x)
    (h : t.Uses (.free x) → ¬ a.Uses (.free y)) :
    (t.rename (Ref.close y)).subst (put x a.shift) = (t.subst (put x a)).rename (Ref.close y) := by
  rw [subst_rename, rename_subst]
  refine subst_congr fun r hr => ?_
  by_cases hx : r = .free x
  · subst hx
    have hc : Ref.close y (.free x) = .free x := Ref.close_of_ne fun e => hxy (Ref.free.inj e).symm
    simp [hc, rename_close_of_not_uses (h hr)]
  by_cases hy : r = .free y
  · subst hy
    have hx' : put x a (.free y) = var (.free y) := put_of_ne hx
    simp only [Function.comp_apply, hx', rename, Ref.close_self]
    rfl
  · have hs : r.shift ≠ .free x := fun e => hx (Ref.shift_injective e)
    simp [Ref.close_of_ne hy, put_of_ne hx, put_of_ne hs, rename]

/-- A binder may take any name that its body does not have. -/
theorem close_put_var {x y : Name} {t : Nameless} (h : ¬ t.Uses (.free y)) :
    (t.subst (put x (var (.free y)))).rename (Ref.close y) = t.rename (Ref.close x) := by
  rw [rename_subst, rename_eq_subst]
  refine subst_congr fun r hr => ?_
  by_cases hx : r = .free x
  · subst hx
    simp [rename]
  · have hy : r ≠ .free y := by
      rintro rfl
      exact h hr
    simp [put_of_ne hx, rename, Ref.close_of_ne hx, Ref.close_of_ne hy]

/-- To bind a name and to put something for the binder is to put it for the name. -/
theorem inst_close_eq_put (x : Name) (t a : Nameless) :
    (t.rename (Ref.close x)).inst a = t.subst (put x a) := by
  rw [inst, subst_rename]
  congr 1
  funext r
  by_cases h : r = .free x
  · subst h
    simp
  · simp [Ref.close_of_ne h, put_of_ne h]

end Nameless

/-! ## Fresh numbers -/

theorem Name.le_above (c : Int) (xs : List Name) : c ≤ Name.above c xs := by
  induction xs generalizing c with
  | nil => exact Int.le_refl c
  | cons x xs ih => exact Int.le_trans (Int.le_max_left _ _) (ih _)

/-- A fresh number is above those of all names that it must differ from. -/
theorem Name.lt_above {c : Int} {x : Name} {xs : List Name} (h : x ∈ xs) :
    x.id < Name.above c xs := by
  induction xs generalizing c with
  | nil => simp at h
  | cons y xs ih =>
    rcases List.mem_cons.1 h with rfl | h
    · have := Name.le_above (max c (x.id + 1)) xs
      simp only [Name.above, List.foldl_cons] at this ⊢
      omega
    · exact ih h

/-- A name with a number above those of `xs` is none of them. -/
theorem Name.fresh_not_mem (c : Int) (v : String) (xs : List Name) :
    (⟨v, Name.above c xs⟩ : Name) ∉ xs :=
  fun h => Int.lt_irrefl _ (Name.lt_above (c := c) h)

namespace Ty

/-! ## Nameless forms -/

/-- A core type without the names of its binders, and without the kinds that it carries. Free names
stay. -/
def nameless : Ty → Nameless
  | .int _ => .int
  | .var x _ => .var (.free x)
  | .arrow s t _ => .arrow s.nameless t.nameless
  | .bind b x k t _ => .bind b k (t.nameless.rename (Ref.close x))
  | .app f a _ => .app f.nameless a.nameless

/-- Two types that differ at most in the names of binders and the kinds of nodes. -/
def AlphaEq (s t : Ty) : Prop := s.nameless = t.nameless

instance (s t : Ty) : Decidable (s.AlphaEq t) := inferInstanceAs (Decidable (_ = _))

/-- A core type without names refers to its free names and to nothing else. -/
theorem uses_nameless {t : Ty} {r : Ref} :
    t.nameless.Uses r ↔ ∃ x ∈ t.freeVars, r = .free x := by
  induction t generalizing r with
  | int k => simp [nameless, freeVars, Nameless.Uses]
  | var x k => simp [nameless, freeVars, Nameless.Uses]
  | arrow s t k hs ht =>
    simp only [nameless, freeVars, Nameless.Uses, hs, ht, List.mem_append, or_and_right, exists_or]
  | bind b x k t l ht =>
    simp only [nameless, freeVars, Nameless.Uses, Nameless.uses_rename, ht, List.mem_filter,
      decide_eq_true_eq]
    constructor
    · rintro ⟨_, ⟨y, hy, rfl⟩, he⟩
      by_cases hyx : y = x
      · subst hyx
        exact absurd (by simpa using he) (Ref.shift_ne_zero r)
      · refine ⟨y, ⟨hy, hyx⟩, Ref.shift_injective ?_⟩
        rw [he, Ref.close_of_ne fun e => hyx (Ref.free.inj e)]
    · rintro ⟨y, ⟨hy, hyx⟩, rfl⟩
      exact ⟨.free y, ⟨y, hy, rfl⟩, (Ref.close_of_ne fun e => hyx (Ref.free.inj e)).symm⟩
  | app f a k hf ha =>
    simp only [nameless, freeVars, Nameless.Uses, hf, ha, List.mem_append, or_and_right, exists_or]

theorem uses_nameless_free {t : Ty} {x : Name} : t.nameless.Uses (.free x) ↔ x ∈ t.freeVars := by
  rw [uses_nameless]
  exact ⟨fun ⟨y, hy, e⟩ => Ref.free.inj e ▸ hy, fun h => ⟨x, h, rfl⟩⟩

theorem freeVars_subset_names (t : Ty) : t.freeVars ⊆ t.names := by
  induction t with
  | int k => simp [freeVars]
  | var x k => simp [freeVars, names]
  | arrow s t k hs ht | app s t k hs ht =>
    exact List.append_subset.2 ⟨List.Subset.trans hs (List.subset_append_left _ _),
      List.Subset.trans ht (List.subset_append_right _ _)⟩
  | bind b x k t l ht => exact fun y hy => .tail _ (ht (List.mem_filter.1 hy).1)

/-- The kind at the root plays no part. -/
@[simp] theorem nameless_withKind (k : Kind) (t : Ty) : (t.withKind k).nameless = t.nameless := by
  cases t <;> rfl

/-! ## Substitution -/

/-- If the new name occurs nowhere, to change a name is a substitution. -/
theorem nameless_rename {x y : Name} {k : Kind} {t : Ty} (h : y ∉ t.names) :
    (t.rename x y k).nameless = t.nameless.subst (Nameless.put x (.var (.free y))) := by
  induction t with
  | int l => rfl
  | var z l => by_cases hz : z = x <;> simp [rename, nameless, Nameless.subst, Nameless.put, hz]
  | arrow s t l hs ht | app s t l hs ht =>
    simp only [names, List.mem_append, not_or] at h
    simp only [rename, nameless, Nameless.subst, hs h.1, ht h.2]
  | bind b z zk t l ht =>
    simp only [names, List.mem_cons, not_or] at h
    by_cases hz : z = x
    · -- the binder hides `x`
      subst hz
      have hx : ¬ (bind b z zk t l).nameless.Uses (.free z) := by
        simp [uses_nameless_free, freeVars]
      simp only [rename, if_true, Nameless.subst_put_of_not_uses hx]
    · have hc : ¬ (Nameless.var (.free y)).Uses (.free z) := fun e => h.1 (Ref.free.inj e).symm
      have hp := Nameless.close_put (t := t.nameless) hz fun _ => hc
      simp only [rename, hz, if_false, nameless, Nameless.subst, ht h.2, Nameless.up_put, ← hp]

/-- Substitution is what it is on nameless types: no binder captures anything, and nothing but the
free occurrences of `x` changes. -/
theorem nameless_subst (t : Ty) (x : Name) (r : Ty) (c : Int) :
    (t.subst x r c).1.nameless = t.nameless.subst (Nameless.put x r.nameless) := by
  fun_induction subst t x r c with
  | case1 c k => rfl
  | case2 c y k => by_cases h : y = x <;> simp [nameless, Nameless.subst, Nameless.put, h]
  | case3 c s t k s' t' hs ht => simp only [nameless, Nameless.subst, s', t', hs, ht]
  | case4 c b yk body k =>
    have hx : ¬ (bind b x yk body k).nameless.Uses (.free x) := by
      simp [uses_nameless_free, freeVars]
    rw [Nameless.subst_put_of_not_uses hx]
  | case5 c b y yk body k hyx hcap n z body' ih =>
    -- `y` would capture a name of `r`, so that the binder is first given the fresh name `z`
    have hz : z ∉ body.names ++ r.names := Name.fresh_not_mem c y.value _
    rw [List.mem_append, not_or] at hz
    have hzx : z ≠ x := fun e => hz.1 (e ▸ freeVars_subset_names body hcap.2)
    have hzr : ¬ r.nameless.Uses (.free z) := fun h =>
      hz.2 (freeVars_subset_names r (uses_nameless_free.1 h))
    have hzb : ¬ body.nameless.Uses (.free z) := fun h =>
      hz.1 (freeVars_subset_names body (uses_nameless_free.1 h))
    simp only [nameless, Nameless.subst, body', ih, Nameless.up_put]
    rw [← Nameless.close_put hzx fun _ => hzr, nameless_rename hz.1, Nameless.close_put_var hzb]
  | case6 c b y yk body k hyx hcap body' ih =>
    have hc : body.nameless.Uses (.free x) → ¬ r.nameless.Uses (.free y) := by
      rw [uses_nameless_free, uses_nameless_free]
      exact fun hx hy => hcap ⟨hy, hx⟩
    simp only [nameless, Nameless.subst, body', ih, Nameless.up_put, Nameless.close_put hyx hc]
  | case7 c f a k f' a' hf ha => simp only [nameless, Nameless.subst, f', a', hf, ha]

/-- Putting the argument for the name that a binder binds is instantiation of the binder. -/
theorem nameless_subst_eq_inst (t : Ty) (x : Name) (r : Ty) (c : Int) :
    (t.subst x r c).1.nameless = (t.nameless.rename (Ref.close x)).inst r.nameless := by
  rw [nameless_subst, Nameless.inst_close_eq_put]

end Ty

end SystemFOmega
