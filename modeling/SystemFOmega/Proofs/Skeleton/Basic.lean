import SystemFOmega.Surface.Basic

/-!
# Skeletons of phrases

The skeleton of a phrase is what is left of it without the names of its binders and without places.
Kinds, types and expressions have skeletons of the same four forms: a leaf, a reference, two parts
side by side, and two parts of which the second is in the scope of a binder. A reference (`Mark`)
counts the binders of its own level between it and its binder, or is a free name.

Renaming (`Skeleton.rename`) and substitution (`Skeleton.subst`) act on the references of all levels
at once. Their laws of composition and the congruence on the references that occur (`subst_congr`)
are all that later proofs use.
-/

namespace SystemFOmega

/-- A reference of a skeleton, at one of the levels. -/
inductive Mark where
  | bound (l : Level) (i : Nat)
  | free (l : Level) (x : Name)
deriving DecidableEq

namespace Mark

variable {α β : Type}

/-- The same reference from under one more binder of the level `l`. -/
@[grind]
def shift (l : Level) : Mark → Mark
  | bound m i => bound m (if m = l then i + 1 else i)
  | free m x => free m x

/-- What is known of the references under a binder of the level `l`: `a` of its own, and what `f`
says of those from outside. -/
@[grind]
def under (l : Level) (a : α) (f : Mark → α) : Mark → α
  | bound m 0 => if m = l then a else f (bound m 0)
  | bound m (i + 1) => f (bound m (if m = l then i else i + 1))
  | free m x => f (free m x)

/-- A renaming under one more binder of the level `l`. -/
def lift (l : Level) (ξ : Mark → Mark) : Mark → Mark := under l (bound l 0) (shift l ∘ ξ)

/-- Makes the free name `x` the reference to a new binder around everything. -/
def close (l : Level) (x : Name) (r : Mark) : Mark := if r = free l x then bound l 0 else r.shift l

@[simp] theorem under_self (l : Level) (a : α) (f : Mark → α) : under l a f (bound l 0) = a := by
  simp [under]

@[simp] theorem under_shift (l : Level) (a : α) (f : Mark → α) (r : Mark) :
    under l a f (r.shift l) = f r := by
  cases r with
  | bound m i =>
    by_cases h : m = l
    · simp [shift, under, h]
    · cases i <;> simp [shift, under, h]
  | free m x => rfl

/-- A reference under a binder is the binder's own or one from outside. -/
theorem self_or_shift (l : Level) (r : Mark) : r = bound l 0 ∨ ∃ s : Mark, r = s.shift l := by
  cases r with
  | bound m i =>
    by_cases h : m = l
    · subst h
      cases i with
      | zero => exact .inl rfl
      | succ i => exact .inr ⟨bound m i, by simp [shift]⟩
    · exact .inr ⟨bound m i, by simp [shift, h]⟩
  | free m x => exact .inr ⟨free m x, rfl⟩

/-- Two maps agree if they do so on the binder's own reference and on those from outside. -/
theorem under_ext {f g : Mark → α} (l : Level) (h₀ : f (bound l 0) = g (bound l 0))
    (h : ∀ r : Mark, f (r.shift l) = g (r.shift l)) : f = g := by
  funext r
  obtain rfl | ⟨s, rfl⟩ := r.self_or_shift l
  · exact h₀
  · exact h s

theorem shift_injective {l : Level} {r s : Mark} (h : r.shift l = s.shift l) : r = s := by
  have hunder := congrArg (under l r id) h
  rwa [under_shift, under_shift] at hunder

theorem shift_inj {l : Level} {r s : Mark} : r.shift l = s.shift l ↔ r = s :=
  ⟨shift_injective, congrArg _⟩

theorem shift_ne_self (l : Level) (r : Mark) : r.shift l ≠ bound l 0 := by
  intro h
  have hunder := congrArg (under l false fun _ => true) h
  rw [under_shift, under_self] at hunder
  cases hunder

@[simp] theorem lift_self (l : Level) (ξ : Mark → Mark) : lift l ξ (bound l 0) = bound l 0 :=
  under_self _ _ _

@[simp] theorem lift_shift (l : Level) (ξ : Mark → Mark) (r : Mark) :
    lift l ξ (r.shift l) = (ξ r).shift l :=
  under_shift _ _ _ _

/-- Under a binder, two renamings are still one. -/
theorem lift_comp (l : Level) (ξ ζ : Mark → Mark) : lift l ζ ∘ lift l ξ = lift l (ζ ∘ ξ) :=
  under_ext l (by simp) fun r => by simp

@[simp] theorem close_self (l : Level) (x : Name) : close l x (free l x) = bound l 0 := if_pos rfl

theorem close_of_ne {l : Level} {x : Name} {r : Mark} (h : r ≠ free l x) :
    close l x r = r.shift l :=
  if_neg h

end Mark

/-! ## Forms -/

/-- A phrase without parts. -/
inductive Skeleton.Leaf where
  | star
  | int
  | lit (n : Int)
deriving DecidableEq

/-- A phrase of two parts, neither in the scope of the other. -/
inductive Skeleton.Pairing where
  | kindArrow | typeArrow | typeApp | kinded | app | tapp | ann
deriving DecidableEq

/-- A phrase of two parts, the second in the scope of a binder. -/
inductive Skeleton.Scoping where
  | quantify (b : Binder)
  | lam | tlam | letIn | typeIn | kindIn
deriving DecidableEq

/-- The level of the name that is bound. -/
def Skeleton.Scoping.level : Skeleton.Scoping → Level
  | .quantify _ | .tlam | .typeIn => .type
  | .lam | .letIn => .expr
  | .kindIn => .kind

/-- Phrases without names and places, of all three levels in one: references, pairs of phrases and
binders. The first phrase of a binder is outside of its scope. -/
inductive Skeleton where
  | leaf (c : Skeleton.Leaf)
  | ref (r : Mark)
  | pair (o : Skeleton.Pairing) (a b : Skeleton)
  | bind (s : Skeleton.Scoping) (a b : Skeleton)
deriving DecidableEq

namespace Skeleton

/-! ## Renaming and substitution -/

/-- Puts other references for those of a skeleton. Under a binder they are moved up by one. -/
@[grind]
def rename (ξ : Mark → Mark) : Skeleton → Skeleton
  | leaf c => leaf c
  | ref r => ref (ξ r)
  | pair o a b => pair o (a.rename ξ) (b.rename ξ)
  | bind s a b => bind s (a.rename ξ) (b.rename (Mark.lift s.level ξ))

/-- The skeleton from under one more binder of the level `l`. -/
def shift (l : Level) (t : Skeleton) : Skeleton := t.rename (Mark.shift l)

/-- Makes the free name `x` the reference to a new binder around the skeleton. -/
def close (l : Level) (x : Name) (t : Skeleton) : Skeleton := t.rename (Mark.close l x)

/-- A substitution under one more binder of the level `l`. -/
def up (l : Level) (σ : Mark → Skeleton) : Mark → Skeleton :=
  Mark.under l (ref (.bound l 0)) (shift l ∘ σ)

/-- Puts skeletons for the references of a skeleton, all at once. -/
@[grind]
def subst (σ : Mark → Skeleton) : Skeleton → Skeleton
  | leaf c => leaf c
  | ref r => σ r
  | pair o a b => pair o (a.subst σ) (b.subst σ)
  | bind s a b => bind s (a.subst σ) (b.subst (up s.level σ))

/-- Puts `a` for the references to the outermost binder of the level `l`, which is taken away. -/
def single (l : Level) (a : Skeleton) : Mark → Skeleton := Mark.under l a ref

/-- The body of a binder of the level `l` with `a` for the name that it binds. -/
def inst (l : Level) (t a : Skeleton) : Skeleton := t.subst (single l a)

/-- Puts `a` for the free name `x`. -/
def put (l : Level) (x : Name) (a : Skeleton) (r : Mark) : Skeleton :=
  if r = .free l x then a else ref r

section

variable (l : Level) (σ τ : Mark → Skeleton) (ξ ζ : Mark → Mark) (r : Mark) (a t : Skeleton)

@[simp] theorem up_self : up l σ (.bound l 0) = ref (.bound l 0) := Mark.under_self _ _ _

@[simp] theorem up_shift : up l σ (r.shift l) = (σ r).shift l := Mark.under_shift _ _ _ _

@[simp] theorem single_self : single l a (.bound l 0) = a := Mark.under_self _ _ _

@[simp] theorem single_shift : single l a (r.shift l) = ref r := Mark.under_shift _ _ _ _

@[simp] theorem shift_ref : (ref r).shift l = ref (r.shift l) := rfl

@[simp] theorem put_self (x : Name) : put l x a (.free l x) = a := if_pos rfl

variable {l a r} in
theorem put_of_ne {x : Name} (h : r ≠ .free l x) : put l x a r = ref r := if_neg h

/-! ## Substitutions that are related

What is shown of parts that are related, such as a part and what it reduces to, holds under binders
and for what is put in for them. -/

variable {l σ τ} in
/-- If two substitutions are related at every reference, they are so under a binder. -/
theorem up_related {R : Skeleton → Skeleton → Prop} (href : ∀ r, R (ref r) (ref r))
    (hshift : ∀ t u, R t u → R (t.shift l) (u.shift l)) (h : ∀ r, R (σ r) (τ r)) (r : Mark) :
    R (up l σ r) (up l τ r) := by
  obtain rfl | ⟨q, rfl⟩ := r.self_or_shift l
  · rw [up_self, up_self]
    exact href _
  · rw [up_shift, up_shift]
    exact hshift _ _ (h q)

variable {l a} in
/-- If two skeletons are related, so are the substitutions that put them for the outermost
binder. -/
theorem single_related {R : Skeleton → Skeleton → Prop} (href : ∀ r, R (ref r) (ref r))
    {a' : Skeleton} (ha : R a a') (r : Mark) : R (single l a r) (single l a' r) := by
  obtain rfl | ⟨q, rfl⟩ := r.self_or_shift l
  · rw [single_self, single_self]
    exact ha
  · rw [single_shift, single_shift]
    exact href q

/-! ## Composition -/

/-- Two renamings, one after the other. -/
theorem rename_rename : (t.rename ξ).rename ζ = t.rename (ζ ∘ ξ) := by
  induction t generalizing ξ ζ with
  | leaf c => rfl
  | ref r => rfl
  | pair o a b ha hb => simp only [rename, ha, hb]
  | bind s a b ha hb => simp only [rename, ha, hb, Mark.lift_comp]

theorem up_lift : up l σ ∘ Mark.lift l ξ = up l (σ ∘ ξ) :=
  Mark.under_ext l (by simp) fun r => by simp

/-- A substitution behind a renaming. -/
theorem subst_rename : (t.rename ξ).subst σ = t.subst (σ ∘ ξ) := by
  induction t generalizing ξ σ with
  | leaf c => rfl
  | ref r => rfl
  | pair o a b ha hb => simp only [rename, subst, ha, hb]
  | bind s a b ha hb => simp only [rename, subst, ha, hb, up_lift]

theorem shift_rename : (t.rename ξ).shift l = (t.shift l).rename (Mark.lift l ξ) := by
  rw [shift, shift, rename_rename, rename_rename]
  congr 1
  funext r
  simp

theorem rename_up : rename (Mark.lift l ξ) ∘ up l σ = up l (rename ξ ∘ σ) :=
  Mark.under_ext l (by simp [rename]) fun r => by simp [shift_rename]

/-- A renaming behind a substitution. -/
theorem rename_subst : (t.subst σ).rename ξ = t.subst (rename ξ ∘ σ) := by
  induction t generalizing ξ σ with
  | leaf c => rfl
  | ref r => rfl
  | pair o a b ha hb => simp only [rename, subst, ha, hb]
  | bind s a b ha hb => simp only [rename, subst, ha, hb, rename_up]

theorem shift_subst : (t.subst σ).shift l = (t.shift l).subst (up l σ) := by
  rw [shift, shift, rename_subst, subst_rename]
  congr 1
  funext r
  simp [shift]

theorem subst_up : subst (up l τ) ∘ up l σ = up l (subst τ ∘ σ) :=
  Mark.under_ext l (by simp [subst]) fun r => by simp [shift_subst]

/-- Two substitutions, one after the other. -/
theorem subst_subst : (t.subst σ).subst τ = t.subst (subst τ ∘ σ) := by
  induction t generalizing σ τ with
  | leaf c => rfl
  | ref r => rfl
  | pair o a b ha hb => simp only [subst, ha, hb]
  | bind s a b ha hb => simp only [subst, ha, hb, subst_up]

theorem up_ref : up l ref = ref := Mark.under_ext l (by simp) fun r => by simp

@[simp] theorem subst_ref : t.subst ref = t := by
  induction t with
  | leaf c => rfl
  | ref r => rfl
  | pair o a b ha hb => simp only [subst, ha, hb]
  | bind s a b ha hb => simp only [subst, up_ref, ha, hb]

/-- A renaming is a substitution of references. -/
theorem rename_eq_subst : t.rename ξ = t.subst (ref ∘ ξ) := by
  rw [← subst_rename, subst_ref]

/-- Nothing refers to the binder that `shift` steps under. -/
@[simp] theorem inst_shift : (t.shift l).inst l a = t := by
  have hσ : single l a ∘ Mark.shift l = ref := funext fun r => by simp
  rw [inst, shift, subst_rename, hσ, subst_ref]

/-- To put something for the outermost binder and to substitute may be done in either order. -/
theorem subst_inst : (t.inst l a).subst σ = (t.subst (up l σ)).inst l (a.subst σ) := by
  rw [inst, inst, subst_subst, subst_subst]
  congr 1
  refine Mark.under_ext l (by simp [subst]) fun r => ?_
  simpa [subst, inst] using (inst_shift l (a.subst σ) (σ r)).symm

theorem rename_inst : (t.inst l a).rename ξ = (t.rename (Mark.lift l ξ)).inst l (a.rename ξ) := by
  rw [rename_eq_subst, subst_inst, rename_eq_subst ξ a, rename_eq_subst _ t]
  congr 2
  exact Mark.under_ext l (by simp) fun r => by simp

end

/-! ## The references that occur -/

/-- Whether `r`, seen from outside, occurs in a skeleton. -/
@[grind]
def Uses (r : Mark) : Skeleton → Prop
  | leaf _ => False
  | ref s => r = s
  | pair _ a b => a.Uses r ∨ b.Uses r
  | bind s a b => a.Uses r ∨ b.Uses (r.shift s.level)

section

variable {l m : Level} {x y : Name} {r : Mark} {a t : Skeleton} {σ τ : Mark → Skeleton}
  {ξ : Mark → Mark}

/-- Substitutions that agree on the references of a skeleton do the same to it. -/
theorem subst_congr (h : ∀ r, t.Uses r → σ r = τ r) : t.subst σ = t.subst τ := by
  induction t generalizing σ τ with
  | leaf c => rfl
  | ref r => exact h r rfl
  | pair o a b ha hb =>
    simp only [subst, ha fun r hr => h r (.inl hr), hb fun r hr => h r (.inr hr)]
  | bind s a b ha hb =>
    have hbody : ∀ r, b.Uses r → up s.level σ r = up s.level τ r := by
      intro r hr
      obtain rfl | ⟨q, rfl⟩ := r.self_or_shift s.level
      · simp
      · simp [h q (.inr hr)]
    simp only [subst, ha fun r hr => h r (.inl hr), hb hbody]

theorem uses_rename : (t.rename ξ).Uses r ↔ ∃ s, t.Uses s ∧ r = ξ s := by
  induction t generalizing ξ r with
  | leaf c => simp [rename, Uses]
  | ref s => simp [rename, Uses]
  | pair o a b ha hb => simp only [rename, Uses, ha, hb, or_and_right, exists_or]
  | bind s a b ha hb =>
    simp only [rename, Uses, ha, hb, or_and_right, exists_or]
    refine or_congr_right ⟨?_, ?_⟩
    · rintro ⟨q, hq, he⟩
      obtain rfl | ⟨q, rfl⟩ := q.self_or_shift s.level
      · exact absurd (by simpa using he) (Mark.shift_ne_self s.level r)
      · exact ⟨q, hq, Mark.shift_injective (by simpa using he)⟩
    · rintro ⟨q, hq, rfl⟩
      exact ⟨q.shift s.level, hq, by simp⟩

/-- What occurs after a substitution has come in by it. -/
theorem uses_subst (h : (t.subst σ).Uses r) : ∃ s, t.Uses s ∧ (σ s).Uses r := by
  induction t generalizing σ r with
  | leaf c => cases h
  | ref s => exact ⟨s, rfl, h⟩
  | pair o a b ha hb =>
    rcases h with h | h
    · obtain ⟨q, hq, hr⟩ := ha h
      exact ⟨q, .inl hq, hr⟩
    · obtain ⟨q, hq, hr⟩ := hb h
      exact ⟨q, .inr hq, hr⟩
  | bind s a b ha hb =>
    rcases h with h | h
    · obtain ⟨q, hq, hr⟩ := ha h
      exact ⟨q, .inl hq, hr⟩
    · obtain ⟨q, hq, hr⟩ := hb h
      obtain rfl | ⟨q, rfl⟩ := q.self_or_shift s.level
      · rw [up_self] at hr
        exact absurd hr (Mark.shift_ne_self s.level r)
      · rw [up_shift, shift, uses_rename] at hr
        obtain ⟨p, hp, he⟩ := hr
        exact ⟨q, .inr hq, Mark.shift_injective he ▸ hp⟩

/-- The body of a binder with something for its name has references of both only. -/
theorem uses_inst (h : (t.inst l a).Uses r) : t.Uses (r.shift l) ∨ a.Uses r := by
  obtain ⟨q, hq, hr⟩ := uses_subst h
  obtain rfl | ⟨q, rfl⟩ := q.self_or_shift l
  · rw [single_self] at hr
    exact .inr hr
  · rw [single_shift] at hr
    obtain rfl : r = q := hr
    exact .inl hq

/-- Once a name is bound, it is no longer a reference. -/
theorem uses_close_free : (t.close l x).Uses (.free m y) ↔
    t.Uses (.free m y) ∧ ¬ (m = l ∧ y = x) := by
  have hshift : Mark.free m y = (Mark.free m y).shift l := rfl
  rw [close, uses_rename]
  constructor
  · rintro ⟨s, hs, he⟩
    by_cases hsx : s = .free l x
    · rw [hsx, Mark.close_self] at he
      cases he
    · rw [Mark.close_of_ne hsx, hshift] at he
      obtain rfl := Mark.shift_injective he
      refine ⟨hs, ?_⟩
      rintro ⟨rfl, rfl⟩
      exact hsx rfl
  · rintro ⟨ht, hne⟩
    have hx : Mark.free m y ≠ .free l x := fun he => hne (Mark.free.inj he)
    exact ⟨_, ht, (Mark.close_of_ne hx).symm⟩

/-! ## Putting a skeleton for a free name -/

theorem up_put : up m (put l x a) = put l x (a.shift m) := by
  refine Mark.under_ext m (by simp [put]) fun r => ?_
  by_cases h : r = .free l x
  · rw [h, up_shift, put_self]
    exact (put_self l (a.shift m) x).symm
  · have h' : r.shift m ≠ .free l x := fun e => h (Mark.shift_injective e)
    rw [up_shift, put_of_ne h, put_of_ne h', shift_ref]

theorem subst_put_of_not_uses (h : ¬ t.Uses (.free l x)) : t.subst (put l x a) = t := by
  refine Eq.trans (subst_congr fun r hr => put_of_ne ?_) (subst_ref t)
  rintro rfl
  exact h hr

/-- Nothing refers to the binder of a name that is not used. -/
theorem close_of_not_uses (h : ¬ t.Uses (.free l x)) : t.close l x = t.shift l := by
  rw [close, shift, rename_eq_subst, rename_eq_subst]
  refine subst_congr fun r hr => congrArg ref (Mark.close_of_ne ?_)
  rintro rfl
  exact h hr

/-- Under a binder of another name that captures nothing, putting a skeleton for a name is the same
before and after the binder is closed. -/
theorem close_put (hne : Mark.free m y ≠ .free l x)
    (h : t.Uses (.free l x) → ¬ a.Uses (.free m y)) :
    (t.close m y).subst (put l x (a.shift m)) = (t.subst (put l x a)).close m y := by
  rw [close, close, subst_rename, rename_subst]
  refine subst_congr fun r hr => ?_
  -- the name that is replaced, the name that is bound, and all other references
  by_cases hx : r = .free l x
  · subst hx
    have hc : Mark.close m y (.free l x) = .free l x := Mark.close_of_ne hne.symm
    have ha : a.rename (Mark.close m y) = a.shift m := close_of_not_uses (h hr)
    simp [hc, ha]
  by_cases hy : r = .free m y
  · subst hy
    have hb : Mark.bound m 0 ≠ .free l x := by simp
    rw [Function.comp_apply, Function.comp_apply, put_of_ne hx, Mark.close_self, put_of_ne hb,
      rename, Mark.close_self]
  · have hs : r.shift m ≠ .free l x := fun e => hx (Mark.shift_injective e)
    simp [Mark.close_of_ne hy, put_of_ne hx, put_of_ne hs, rename]

/-- A binder may take any name that its body does not have. -/
theorem close_put_ref (h : ¬ t.Uses (.free l y)) :
    (t.subst (put l x (ref (.free l y)))).close l y = t.close l x := by
  rw [close, close, rename_subst, rename_eq_subst]
  refine subst_congr fun r hr => ?_
  by_cases hx : r = .free l x
  · subst hx
    simp [rename]
  · have hy : r ≠ .free l y := by
      rintro rfl
      exact h hr
    simp [put_of_ne hx, rename, Mark.close_of_ne hx, Mark.close_of_ne hy]

/-- Putting something for the name that a binder binds is instantiation of the binder. -/
theorem inst_close : (t.close l x).inst l a = t.subst (put l x a) := by
  rw [inst, close, subst_rename]
  congr 1
  funext r
  by_cases h : r = .free l x
  · simp [h]
  · simp [Mark.close_of_ne h, put_of_ne h]

end

end Skeleton

end SystemFOmega
