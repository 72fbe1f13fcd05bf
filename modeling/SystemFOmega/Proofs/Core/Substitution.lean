import SystemFOmega.Proofs.Core.Nameless

/-!
# Substitution in core types is the textbook one

`Ty.Substitutes x r` has the rules of capture-avoiding substitution as they are taught: a binder is
passed only if its name is neither `x` nor free in `r`, and binders may be renamed before and after
that. `Ty.subst` gives such a result, whatever its counter, and there is no other up to the names
of binders (`Ty.substitutes_iff_subst_alike`).

The proof goes through locally nameless forms (`Ty.form`), in which a bound occurrence is the number
of binders between it and its own. All else stays as it is: the free names, and the kinds of all
nodes but the bound occurrences. In forms, substitution is a plain replacement (`Form.put`), since
there are no names that could be captured, and this is what `Ty.subst` does to them
(`Ty.form_subst`).
-/

namespace SystemFOmega

/-- A core type in locally nameless form. -/
inductive Form where
  | int (k : Kind)
  | bound (i : Nat)
  | free (x : Name) (k : Kind)
  | arrow (left right : Form) (k : Kind)
  | bind (b : Binder) (xk : Kind) (body : Form) (k : Kind)
  | app (f a : Form) (k : Kind)
deriving DecidableEq

namespace Form

/-- Makes the free name `x` the reference to the binder that is `n` binders outside. -/
@[grind]
def close (x : Name) : Nat → Form → Form
  | _, int k => int k
  | _, bound i => bound i
  | n, free y k => if y = x then bound n else free y k
  | n, arrow s t k => arrow (s.close x n) (t.close x n) k
  | n, bind b xk t k => bind b xk (t.close x (n + 1)) k
  | n, app f a k => app (f.close x n) (a.close x n) k

/-- Puts `r` for the free name `x`. -/
@[grind]
def put (t : Form) (x : Name) (r : Form) : Form :=
  match t with
  | int k => int k
  | bound i => bound i
  | free y k => if y = x then r else free y k
  | arrow s t k => arrow (s.put x r) (t.put x r) k
  | bind b xk t k => bind b xk (t.put x r) k
  | app f a k => app (f.put x r) (a.put x r) k

/-- The names in a form, none of which is bound. -/
@[grind]
def freeVars : Form → List Name
  | int _ | bound _ => []
  | free x _ => [x]
  | arrow s t _ | app s t _ => s.freeVars ++ t.freeVars
  | bind _ _ t _ => t.freeVars

/-! ## Free names -/

variable {x y : Name} {r f : Form}

theorem mem_freeVars_close {n : Nat} :
    y ∈ (f.close x n).freeVars ↔ y ∈ f.freeVars ∧ y ≠ x := by
  induction f generalizing n with
  | int k => simp [close, freeVars]
  | bound i => simp [close, freeVars]
  | free z k =>
    by_cases hz : z = x
    · simp [close, freeVars, hz]
    · simp only [close, freeVars, hz, if_false, List.mem_singleton, iff_self_and]
      rintro rfl
      exact hz
  | arrow s t k hs ht | app s t k hs ht =>
    simp only [close, freeVars, List.mem_append, hs, ht, or_and_right]
  | bind b xk t k ht => exact ht

theorem mem_freeVars_put :
    y ∈ (f.put x r).freeVars ↔ (y ∈ f.freeVars ∧ y ≠ x) ∨ (x ∈ f.freeVars ∧ y ∈ r.freeVars) := by
  induction f with
  | int k => simp [put, freeVars]
  | bound i => simp [put, freeVars]
  | free z k =>
    by_cases hz : z = x
    · simp [put, freeVars, hz]
    · have hxz : x ≠ z := fun e => hz e.symm
      simp only [put, freeVars, hz, hxz, if_false, List.mem_singleton, false_and, or_false,
        iff_self_and]
      rintro rfl
      exact hz
  | arrow s t k hs ht | app s t k hs ht =>
    simp only [put, freeVars, List.mem_append, hs, ht]
    grind
  | bind b xk t k ht => exact ht

theorem close_of_not_mem (h : x ∉ f.freeVars) (n : Nat) : f.close x n = f := by
  induction f generalizing n with
  | int k => rfl
  | bound i => rfl
  | free z k =>
    have hz : z ≠ x := fun e => h (e ▸ List.mem_singleton_self _)
    simp [close, hz]
  | arrow s t k hs ht | app s t k hs ht =>
    simp only [freeVars, List.mem_append, not_or] at h
    rw [close, hs h.1, ht h.2]
  | bind b xk t k ht => rw [close, ht h]

theorem put_of_not_mem (h : x ∉ f.freeVars) (r : Form) : f.put x r = f := by
  induction f with
  | int k => rfl
  | bound i => rfl
  | free z k =>
    have hz : z ≠ x := fun e => h (e ▸ List.mem_singleton_self _)
    simp [put, hz]
  | arrow s t k hs ht | app s t k hs ht =>
    simp only [freeVars, List.mem_append, not_or] at h
    rw [put, hs h.1, ht h.2]
  | bind b xk t k ht => rw [put, ht h]

/-! ## Replacement and binders -/

/-- A binder of another name that captures nothing may be closed before or after a replacement. -/
theorem put_close (hyx : y ≠ x) (h : x ∈ f.freeVars → y ∉ r.freeVars) (n : Nat) :
    (f.close y n).put x r = (f.put x r).close y n := by
  induction f generalizing n with
  | int k => rfl
  | bound i => rfl
  | free z k =>
    by_cases hzx : z = x
    · subst hzx
      have hr : y ∉ r.freeVars := h (List.mem_singleton_self z)
      have hzy : z ≠ y := fun e => hyx e.symm
      simp [close, put, hzy, close_of_not_mem hr]
    · by_cases hzy : z = y
      · simp [close, put, hzy, hyx]
      · simp [close, put, hzx, hzy]
  | arrow s t k hs ht | app s t k hs ht =>
    simp only [freeVars, List.mem_append] at h
    rw [close, put, put, close, hs (fun hx => h (.inl hx)), ht (fun hx => h (.inr hx))]
  | bind b xk t k ht => rw [close, put, put, close, ht h]

/-- A binder may take any name that is not free in its body. -/
theorem close_put_free (h : y ∉ f.freeVars) (k : Kind) (n : Nat) :
    (f.put x (free y k)).close y n = f.close x n := by
  induction f generalizing n with
  | int l => rfl
  | bound i => rfl
  | free z l =>
    have hzy : z ≠ y := fun e => h (e ▸ List.mem_singleton_self _)
    by_cases hzx : z = x
    · simp [close, put, hzx]
    · simp [close, put, hzx, hzy]
  | arrow s t l hs ht | app s t l hs ht =>
    simp only [freeVars, List.mem_append, not_or] at h
    rw [put, close, close, hs h.1, ht h.2]
  | bind b xk t l ht => rw [put, close, close, ht h]

end Form

/-! ## Forms of core types -/

namespace Ty

/-- The locally nameless form of a core type. -/
@[grind]
def form : Ty → Form
  | .int k => .int k
  | .var x k => .free x k
  | .arrow s t k => .arrow s.form t.form k
  | .bind b x xk t k => .bind b xk (t.form.close x 0) k
  | .app f a k => .app f.form a.form k

theorem mem_freeVars_form {t : Ty} {y : Name} : y ∈ t.form.freeVars ↔ y ∈ t.freeVars := by
  induction t with
  | int k => rfl
  | var x k => rfl
  | arrow s t k hs ht | app s t k hs ht =>
    simp only [form, Form.freeVars, freeVars, List.mem_append, hs, ht]
  | bind b x xk t k ht =>
    simp only [form, Form.freeVars, freeVars, Form.mem_freeVars_close, ht, List.mem_filter,
      decide_eq_true_eq]

theorem form_rename {x y : Name} {k : Kind} {t : Ty} (h : y ∉ t.names) :
    (t.rename x y k).form = t.form.put x (.free y k) := by
  induction t with
  | int l => rfl
  | var z l => by_cases hz : z = x <;> simp [rename, form, Form.put, hz]
  | arrow s t l hs ht | app s t l hs ht =>
    simp only [names, List.mem_append, not_or] at h
    simp only [rename, form, Form.put, hs h.1, ht h.2]
  | bind b z zk t l ht =>
    simp only [names, List.mem_cons, not_or] at h
    by_cases hz : z = x
    · -- the binder hides `x`
      subst hz
      have hx : z ∉ (bind b z zk t l).form.freeVars := by
        rw [mem_freeVars_form]
        simp [freeVars]
      rw [Form.put_of_not_mem hx, rename, if_pos rfl]
    · have hc : z ∉ (Form.free y k).freeVars := by
        rw [Form.freeVars, List.mem_singleton]
        exact fun e => h.1 e.symm
      rw [rename, if_neg hz, form, form, ht h.2, Form.put, Form.put_close hz fun _ => hc]

/-- Substitution replaces the free occurrences of `x` by `r` and changes nothing else but the
numbers of binders. -/
theorem form_subst (t : Ty) (x : Name) (r : Ty) (c : Int) :
    (t.subst x r c).1.form = t.form.put x r.form := by
  fun_induction subst t x r c with
  | case1 c k => rfl
  | case2 c y k => by_cases h : y = x <;> simp [form, Form.put, h]
  | case3 c s t k s' t' hs ht => rw [form, form, Form.put, hs, ht]
  | case4 c b yk body k =>
    have hx : x ∉ (bind b x yk body k).form.freeVars := by
      rw [mem_freeVars_form]
      simp [freeVars]
    rw [Form.put_of_not_mem hx]
  | case5 c b y yk body k hyx hcap n z body' ih =>
    -- `y` would capture a name of `r`, so that the binder is first given the fresh name `z`
    have hz : z ∉ body.names ++ r.names := Name.fresh_not_mem c y.value _
    rw [List.mem_append, not_or] at hz
    have hzx : z ≠ x := fun e => hz.1 (e ▸ freeVars_subset_names body hcap.2)
    have hzr : z ∉ r.form.freeVars := fun h =>
      hz.2 (freeVars_subset_names r (mem_freeVars_form.1 h))
    have hzb : z ∉ body.form.freeVars := fun h =>
      hz.1 (freeVars_subset_names body (mem_freeVars_form.1 h))
    rw [form, form, Form.put, ih, ← Form.put_close hzx fun _ => hzr, form_rename hz.1,
      Form.close_put_free hzb]
  | case6 c b y yk body k hyx hcap body' ih =>
    have hc : x ∈ body.form.freeVars → y ∉ r.form.freeVars := by
      rw [mem_freeVars_form, mem_freeVars_form]
      exact fun hx hy => hcap ⟨hy, hx⟩
    rw [form, form, Form.put, ih, Form.put_close hyx hc]
  | case7 c f a k f' a' hf ha => rw [form, form, Form.put, hf, ha]

/-- The free names after a substitution. -/
theorem mem_freeVars_subst (t : Ty) (x : Name) (r : Ty) (c : Int) (y : Name) :
    y ∈ (t.subst x r c).1.freeVars ↔
      (y ∈ t.freeVars ∧ y ≠ x) ∨ (x ∈ t.freeVars ∧ y ∈ r.freeVars) := by
  rw [← mem_freeVars_form, form_subst, Form.mem_freeVars_put, mem_freeVars_form,
    mem_freeVars_form, mem_freeVars_form]

/-! ## The rules of substitution -/

/-- Two types that differ at most in the names of binders and in the kinds at bound occurrences. -/
def Alike (s t : Ty) : Prop := s.form = t.form

instance (s t : Ty) : Decidable (s.Alike t) := inferInstanceAs (Decidable (_ = _))

theorem Alike.refl (t : Ty) : t.Alike t := rfl

theorem Alike.symm {s t : Ty} (h : s.Alike t) : t.Alike s := Eq.symm h

theorem Alike.trans {s t u : Ty} (h : s.Alike t) (h' : t.Alike u) : s.Alike u := Eq.trans h h'

/-- A binder may take any name that its body does not have. -/
theorem alike_bind_rename {y z : Name} {body : Ty} (hz : z ∉ body.names) (b : Binder)
    (yk k : Kind) : (bind b y yk body k).Alike (bind b z yk (body.rename y z yk) k) := by
  have hzb : z ∉ body.form.freeVars := fun h =>
    hz (freeVars_subset_names body (mem_freeVars_form.1 h))
  rw [Alike, form, form, form_rename hz, Form.close_put_free hzb]

/-- The rules of substitution: the second type is the first with `r` for the free occurrences of
`x`. -/
inductive Substitutes (x : Name) (r : Ty) : Ty → Ty → Prop
  | int (k : Kind) : Substitutes x r (int k) (int k)
  | found (k : Kind) : Substitutes x r (var x k) r
  | other {y : Name} (k : Kind) : y ≠ x → Substitutes x r (var y k) (var y k)
  | arrow {s s' t t' : Ty} (k : Kind) : Substitutes x r s s' → Substitutes x r t t' →
    Substitutes x r (arrow s t k) (arrow s' t' k)
  | bind (b : Binder) {y : Name} (yk : Kind) {t t' : Ty} (k : Kind) : y ≠ x → y ∉ r.freeVars →
    Substitutes x r t t' → Substitutes x r (bind b y yk t k) (bind b y yk t' k)
  | app {f f' a a' : Ty} (k : Kind) : Substitutes x r f f' → Substitutes x r a a' →
    Substitutes x r (app f a k) (app f' a' k)
  | alpha {t s s' t' : Ty} : t.Alike s → Substitutes x r s s' → s'.Alike t' → Substitutes x r t t'

namespace Substitutes

variable {x : Name} {r t u : Ty}

/-- The rules leave no choice but that of names. -/
theorem form_eq (h : Substitutes x r t u) : u.form = t.form.put x r.form := by
  induction h with
  | int k => rfl
  | found k => simp [form, Form.put]
  | other k hy => simp [form, Form.put, hy]
  | arrow k _ _ hs ht | app k _ _ hs ht => rw [form, form, Form.put, hs, ht]
  | bind b yk k hyx hyr _ ht =>
    rw [← mem_freeVars_form] at hyr
    rw [form, form, Form.put, ht, Form.put_close hyx fun _ => hyr]
  | alpha hl _ hr ih => rw [← hr, ih, ← hl]

/-- The rules always give a result: binders that are in the way can be renamed. -/
theorem exists_result (x : Name) (r t : Ty) : ∃ u, Substitutes x r t u := by
  -- a renamed body is no part of the type but has the size of one
  induction h : t.size using Nat.strongRecOn generalizing t with
  | _ n ih =>
    subst h
    cases t with
    | int k => exact ⟨_, .int k⟩
    | var y k =>
      by_cases hy : y = x
      · subst hy
        exact ⟨r, .found k⟩
      · exact ⟨_, .other k hy⟩
    | arrow s t k =>
      obtain ⟨s', hs⟩ := ih s.size (by simp only [size]; omega) s rfl
      obtain ⟨t', ht⟩ := ih t.size (by simp only [size]; omega) t rfl
      exact ⟨_, .arrow k hs ht⟩
    | app f a k =>
      obtain ⟨f', hf⟩ := ih f.size (by simp only [size]; omega) f rfl
      obtain ⟨a', ha⟩ := ih a.size (by simp only [size]; omega) a rfl
      exact ⟨_, .app k hf ha⟩
    | bind b y yk body k =>
      let z : Name := ⟨y.value, Name.above 0 (x :: (body.names ++ r.names))⟩
      have hz : z ∉ x :: (body.names ++ r.names) := Name.fresh_not_mem 0 y.value _
      rw [List.mem_cons, List.mem_append, not_or, not_or] at hz
      obtain ⟨hzx, hzb, hzr⟩ := hz
      obtain ⟨body', hbody⟩ := ih body.size (by simp [size]) (body.rename y z yk) (by simp)
      have hbind := hbody.bind b yk k hzx fun h => hzr (freeVars_subset_names r h)
      exact ⟨_, .alpha (alike_bind_rename hzb b yk k) hbind (.refl _)⟩

end Substitutes

/-- Substitution obeys the rules, from every counter, and gives all that they allow: its result is
alike every type that is `t` with `r` for `x`, and no other. Its free names are those of `t`
without `x`, and those of `r` if `x` is free in `t`. -/
theorem substitutes_iff_subst_alike (t : Ty) (x : Name) (r : Ty) (c : Int) :
    (∀ u, Substitutes x r t u ↔ (t.subst x r c).1.Alike u) ∧
      ∀ y, y ∈ (t.subst x r c).1.freeVars ↔
        (y ∈ t.freeVars ∧ y ≠ x) ∨ (x ∈ t.freeVars ∧ y ∈ r.freeVars) := by
  have hrules {u : Ty} (h : Substitutes x r t u) : (t.subst x r c).1.Alike u := by
    rw [Alike, form_subst, h.form_eq]
  refine ⟨fun u => ⟨hrules, fun hu => ?_⟩, fun y => ?_⟩
  · obtain ⟨v, hv⟩ := Substitutes.exists_result x r t
    exact .alpha (.refl t) hv ((hrules hv).symm.trans hu)
  · exact mem_freeVars_subst t x r c y

/-- In `∀Y. X -> (∀X. X)` with `Y` for `X`, the outer binder is in the way and is renamed, and the
inner one hides `X`. -/
example :
    let X : Name := ⟨"X", 1⟩
    let Y : Name := ⟨"Y", 2⟩
    let inner : Ty := .bind .all X .star (.var X .star) .star
    let t : Ty := .bind .all Y .star (.arrow (.var X .star) inner .star) .star
    (t.subst X (.var Y .star) 0).1 =
      .bind .all ⟨"Y", 3⟩ .star (.arrow (.var Y .star) inner .star) .star := by
  cbv

end Ty

end SystemFOmega
