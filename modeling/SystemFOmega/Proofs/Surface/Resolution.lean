import SystemFOmega.Proofs.Surface.Binders

/-!
# Renaming resolves references

Renaming goes through a phrase and comes to binders and references (`Visit`). Each binder takes the
next number, and each reference is looked up among the binders around it; the first one that is not
found ends the way (`Expr.rename_follows`). If all are found, the result differs from the phrase in
numbers only, and every reference has the name of its innermost binder (`Expr.rename_resolves`).

`Expr.rename_alphaConverts` says so of closed programs, and that no number is given out twice by
renamings that share a counter.
-/

namespace SystemFOmega

open Run

/-! ## The way through a phrase -/

/-- What renaming comes to: a binder, or a reference with the binders around it, of which the
innermost comes first. -/
inductive Visit where
  | binder (x : Ident)
  | reference (l : Level) (x : Ident) (around : List (Level × Name))

/-- What renaming comes across in a kind, inside of the binders `around`. -/
def KindExpr.visits (around : List (Level × Name)) : KindExpr → List Visit
  | .star => []
  | .var x => [.reference .kind x around]
  | .arrow j k => j.visits around ++ k.visits around

/-- What renaming comes across in a type. A binder is met behind its kind. -/
def TypeExpr.visits (around : List (Level × Name)) : TypeExpr → List Visit
  | .int => []
  | .var x => [.reference .type x around]
  | .arrow s t | .app s t => s.visits around ++ t.visits around
  | .bind _ x k t => k.visits around ++ .binder x :: t.visits ((.type, x.name) :: around)
  | .kinded t k => t.visits around ++ k.visits around

/-- The value of a definition is outside of its scope. -/
def Expr.visits (around : List (Level × Name)) : Expr → List Visit
  | .lit _ _ => []
  | .var x _ => [.reference .expr x around]
  | .lam x t e _ => t.visits around ++ .binder x :: e.visits ((.expr, x.name) :: around)
  | .app f a _ => f.visits around ++ a.visits around
  | .tlam x k e _ => k.visits around ++ .binder x :: e.visits ((.type, x.name) :: around)
  | .tapp e t _ | .ann e t _ => e.visits around ++ t.visits around
  | .letIn x v e _ => v.visits around ++ .binder x :: e.visits ((.expr, x.name) :: around)
  | .typeIn x v e _ => v.visits around ++ .binder x :: e.visits ((.type, x.name) :: around)
  | .kindIn x v e _ => v.visits around ++ .binder x :: e.visits ((.kind, x.name) :: around)

/-- What renaming comes across in a whole phrase. -/
def Tree.visits : Tree → List Visit
  | .kind k => k.visits []
  | .type t => t.visits []
  | .expr e => e.visits []

namespace Visit

/-- The innermost binder with the display name `v` at the level `l`. -/
def innermost (l : Level) (v : String) (around : List (Level × Name)) : Option Name :=
  (around.find? fun b => b.1 = l ∧ b.2.value = v).map (·.2)

/-- A reference has a binder, around it in the phrase or in the scope `s` of the phrase. -/
def resolved (s : Scope) : Visit → Bool
  | .binder _ => true
  | .reference l x around =>
    ((innermost l x.value around).or ((s.binders l).get? x.value)).isSome

/-- A reference has the name of its innermost binder. -/
def Bound : Visit → Prop
  | .binder _ => True
  | .reference l x around => innermost l x.value around = some x.name

/-- The number of binders up to the first reference without a binder. -/
def met (s : Scope) : List Visit → Nat
  | [] => 0
  | .binder _ :: vs => met s vs + 1
  | .reference l x around :: vs => if (reference l x around).resolved s then met s vs else 0

variable {s : Scope} {l m : Level} {v : String} {x y : Name} {around : List (Level × Name)}
  {vs ws : List Visit}

theorem innermost_cons : innermost l v ((m, x) :: around) =
    if m = l ∧ x.value = v then some x else innermost l v around := by
  unfold innermost
  rw [List.find?_cons]
  by_cases h : m = l ∧ x.value = v
  · simp [h]
  · rw [if_neg h]
    simp [h]

/-- The innermost binder of a name is one of that name. -/
theorem value_of_innermost (h : innermost l v around = some y) : y.value = v := by
  obtain ⟨b, hb, rfl⟩ := Option.map_eq_some_iff.1 h
  have hfound := List.find?_some hb
  exact (of_decide_eq_true hfound).2

/-- All binders are met as long as every name is resolved. -/
theorem met_append_of_resolved (h : ∀ w ∈ vs, w.resolved s) :
    met s (vs ++ ws) = met s vs + met s ws := by
  induction vs with
  | nil => simp [met]
  | cons w vs ih =>
    obtain ⟨hw, hvs⟩ := List.forall_mem_cons.1 h
    cases w with
    | binder x =>
      simp only [List.cons_append, met, ih hvs]
      omega
    | reference l x around => simp only [List.cons_append, met, hw, if_true, ih hvs]

/-- No binder is met behind a name that is not resolved. -/
theorem met_append_of_unresolved (h : ∃ w ∈ vs, ¬ w.resolved s) :
    met s (vs ++ ws) = met s vs := by
  induction vs with
  | nil => simp at h
  | cons w vs ih =>
    cases w with
    | binder x =>
      have hvs : ∃ w ∈ vs, ¬ w.resolved s := by simpa [resolved] using h
      simp only [List.cons_append, met, ih hvs]
    | reference l x around =>
      simp only [List.cons_append, met]
      split
      · rename_i hx
        exact ih (by simpa [hx] using h)
      · rfl

end Visit

open Visit (innermost met)

/-! ## Where renaming ends -/

/-- `m` goes the way `vs`: it succeeds if all references on it have binders, and takes a number for
each binder up to the first reference that has none. -/
def Rename.Follows {α : Type} (s : Scope) (vs : List Visit) (m : Rename α) : Prop :=
  ∀ c, match m c with
    | .ok _ c' => (∀ v ∈ vs, v.resolved s) ∧ c' = c + met s vs
    | .error _ c' => (∃ v ∈ vs, ¬ v.resolved s) ∧ c' = c + met s vs

namespace Rename.Follows

variable {α β : Type} {s : Scope} {vs ws : List Visit} {m : Rename α} {f : α → Rename β}

theorem pure (s : Scope) (a : α) : Follows s [] (pure a) :=
  fun c => ⟨fun _ h => (nomatch h), (Int.add_zero c).symm⟩

/-- The visits of one part, and then those of the other. -/
theorem bind (hm : Follows s vs m) (hf : ∀ a, Follows s ws (f a)) :
    Follows s (vs ++ ws) (m >>= f) := by
  intro c
  have h := hm c
  show match EStateM.bind m f c with | .ok _ c' => _ | .error _ c' => _
  unfold EStateM.bind
  cases hrun : m c with
  | ok a c₁ =>
    rw [hrun] at h
    obtain ⟨hvs, rfl⟩ := h
    have h' := hf a (c + met s vs)
    simp only [Visit.met_append_of_resolved hvs]
    cases hrun' : f a (c + met s vs) with
    | ok b c₂ =>
      rw [hrun'] at h'
      exact ⟨List.forall_mem_append.2 ⟨hvs, h'.1⟩, by have := h'.2; omega⟩
    | error u c₂ =>
      rw [hrun'] at h'
      obtain ⟨⟨v, hv, hne⟩, hc⟩ := h'
      exact ⟨⟨v, List.mem_append_right _ hv, hne⟩, by omega⟩
  | error u c₁ =>
    rw [hrun] at h
    obtain ⟨v, hv, hne⟩ := h.1
    exact ⟨⟨v, List.mem_append_left _ hv, hne⟩, Visit.met_append_of_unresolved h.1 ▸ h.2⟩

/-- What is built from the result does not matter. -/
theorem map (hm : Follows s vs m) (g : α → β) : Follows s vs (m >>= fun a => Pure.pure (g a)) := by
  have h := hm.bind fun a => Follows.pure s (g a)
  rwa [List.append_nil] at h

theorem fresh {x : Ident} {f : Ident → Rename β} (hf : ∀ n, Follows s ws (f (x.withId n))) :
    Follows s (.binder x :: ws) (x.fresh >>= f) := by
  intro c
  have h := hf c (c + 1)
  show match f (x.withId c) (c + 1) with | .ok _ c' => _ | .error _ c' => _
  cases hrun : f (x.withId c) (c + 1) with
  | ok b c₂ =>
    rw [hrun] at h
    exact ⟨List.forall_mem_cons.2 ⟨rfl, h.1⟩, by rw [h.2, met]; omega⟩
  | error u c₂ =>
    rw [hrun] at h
    obtain ⟨⟨v, hv, hne⟩, hc⟩ := h
    exact ⟨⟨v, List.mem_cons_of_mem _ hv, hne⟩, by rw [hc, met]; omega⟩

end Rename.Follows

/-- The scope `s` has the display names of the binders `around` and of the scope `outer`. -/
def Scope.Sees (s outer : Scope) (around : List (Level × Name)) : Prop :=
  ∀ l v, ((s.binders l).get? v).isSome =
    ((innermost l v around).or ((outer.binders l).get? v)).isSome

/-- A binder that is entered is seen as the innermost one. -/
theorem Scope.Sees.bind {s outer : Scope} {around : List (Level × Name)}
    (h : s.Sees outer around) (l : Level) (x : Ident) (n : Int) :
    (s.bind l (x.withId n).name).Sees outer ((l, x.name) :: around) := by
  intro m v
  have hx : (x.withId n).name.value = x.name.value := rfl
  rw [Scope.get?_bind, Visit.innermost_cons, hx]
  split
  · rfl
  · exact h m v

section

variable {s outer : Scope} {around : List (Level × Name)}

theorem Ident.resolve_follows (hs : s.Sees outer around) (l : Level) (x : Ident) :
    Rename.Follows outer [.reference l x around] (x.resolve l s) := by
  intro c
  have hsees := hs l x.value
  unfold resolve
  cases hget : (s.binders l).get? x.value with
  | some y =>
    rw [hget] at hsees
    have hres : (Visit.reference l x around).resolved outer := hsees.symm
    refine ⟨List.forall_mem_singleton.2 hres, ?_⟩
    rw [met, if_pos hres]
    exact (Int.add_zero c).symm
  | none =>
    rw [hget] at hsees
    have hres : ¬ (Visit.reference l x around).resolved outer := by
      rw [Visit.resolved, ← hsees]
      simp
    refine ⟨⟨_, List.mem_singleton_self _, hres⟩, ?_⟩
    rw [met, if_neg hres]
    exact (Int.add_zero c).symm

theorem KindExpr.rename_follows (k : KindExpr) (hs : s.Sees outer around) :
    Rename.Follows outer (k.visits around) (k.rename s) := by
  induction k with
  | star => exact .pure _ _
  | var x => exact (x.resolve_follows hs .kind).map _
  | arrow j k hj hk => exact hj.bind fun _ => hk.map _

theorem TypeExpr.rename_follows (t : TypeExpr) (hs : s.Sees outer around) :
    Rename.Follows outer (t.visits around) (t.rename s) := by
  induction t generalizing s around with
  | int => exact .pure _ _
  | var x => exact (x.resolve_follows hs .type).map _
  | arrow t u ht hu | app t u ht hu => exact (ht hs).bind fun _ => (hu hs).map _
  | bind b x k t ih =>
    exact (k.rename_follows hs).bind fun _ => .fresh fun n => (ih (hs.bind .type x n)).map _
  | kinded t k ih => exact (ih hs).bind fun _ => (k.rename_follows hs).map _

theorem Expr.rename_follows (e : Expr) (hs : s.Sees outer around) :
    Rename.Follows outer (e.visits around) (e.rename s) := by
  induction e generalizing s around with
  | lit => exact .pure _ _
  | var x => exact (x.resolve_follows hs .expr).map _
  | lam x t e _ ih =>
    exact (t.rename_follows hs).bind fun _ => .fresh fun n => (ih (hs.bind .expr x n)).map _
  | app f a _ hf ha => exact (hf hs).bind fun _ => (ha hs).map _
  | tlam x k e _ ih =>
    exact (k.rename_follows hs).bind fun _ => .fresh fun n => (ih (hs.bind .type x n)).map _
  | tapp e t _ ih | ann e t _ ih => exact (ih hs).bind fun _ => (t.rename_follows hs).map _
  | letIn x v e _ hv he =>
    exact (hv hs).bind fun _ => .fresh fun n => (he (hs.bind .expr x n)).map _
  | typeIn x t e _ ih =>
    exact (t.rename_follows hs).bind fun _ => .fresh fun n => (ih (hs.bind .type x n)).map _
  | kindIn x k e _ ih =>
    exact (k.rename_follows hs).bind fun _ => .fresh fun n => (ih (hs.bind .kind x n)).map _

/-- Renaming makes the visits of the phrase, one after the other. -/
theorem Tree.rename_follows (t : Tree) (s : Scope) : Rename.Follows s t.visits (t.rename s) := by
  have hs : s.Sees s [] := fun _ _ => rfl
  cases t with
  | kind k => exact (k.rename_follows hs).map _
  | type t => exact (t.rename_follows hs).map _
  | expr e => exact (e.rename_follows hs).map _

end

/-! ## What renaming gives -/

/-- The identifier as a reader writes it. -/
def Ident.unnumbered (x : Ident) : Ident := x.withId 0

/-- A kind with the names of the text. -/
def KindExpr.unnumbered : KindExpr → KindExpr
  | .star => .star
  | .var x => .var x.unnumbered
  | .arrow j k => .arrow j.unnumbered k.unnumbered

/-- A type with the names of the text. -/
def TypeExpr.unnumbered : TypeExpr → TypeExpr
  | .int => .int
  | .var x => .var x.unnumbered
  | .arrow s t => .arrow s.unnumbered t.unnumbered
  | .bind b x k t => .bind b x.unnumbered k.unnumbered t.unnumbered
  | .app f a => .app f.unnumbered a.unnumbered
  | .kinded t k => .kinded t.unnumbered k.unnumbered

/-- The expression without the numbers of its names. -/
def Expr.unnumbered : Expr → Expr
  | .lit n l => .lit n l
  | .var x l => .var x.unnumbered l
  | .lam x t e l => .lam x.unnumbered t.unnumbered e.unnumbered l
  | .app f a l => .app f.unnumbered a.unnumbered l
  | .tlam x k e l => .tlam x.unnumbered k.unnumbered e.unnumbered l
  | .tapp f t l => .tapp f.unnumbered t.unnumbered l
  | .ann e t l => .ann e.unnumbered t.unnumbered l
  | .letIn x v e l => .letIn x.unnumbered v.unnumbered e.unnumbered l
  | .typeIn x v e l => .typeIn x.unnumbered v.unnumbered e.unnumbered l
  | .kindIn x v e l => .kindIn x.unnumbered v.unnumbered e.unnumbered l

/-- The scope `s` finds the innermost of the binders `around`. -/
def Scope.FindsInnermost (s : Scope) (around : List (Level × Name)) : Prop :=
  ∀ l v, (s.binders l).get? v = innermost l v around

theorem Scope.FindsInnermost.nil : Scope.FindsInnermost {} [] := fun l _ => by cases l <;> rfl

/-- A scope goes on finding the innermost binder of each name. -/
theorem Scope.FindsInnermost.bind {s : Scope} {around : List (Level × Name)}
    (h : s.FindsInnermost around) (l : Level) (x : Name) :
    (s.bind l x).FindsInnermost ((l, x) :: around) := by
  intro m v
  rw [Scope.get?_bind, Visit.innermost_cons, h m v]

section

variable {s : Scope} {around : List (Level × Name)} {c : Int}

/-- A name is resolved as its innermost binder, and keeps its text. -/
theorem Ident.resolve_resolves (hs : s.FindsInnermost around) (l : Level) (x : Ident) :
    Ends (x.resolve l s) c (fun y _ => y.unnumbered = x.unnumbered ∧
      ∀ v ∈ [Visit.reference l y around], v.Bound) True := by
  unfold resolve
  split
  · rename_i y hy
    rw [hs] at hy
    have hv : y.value = x.value := Visit.value_of_innermost hy
    refine .pure ⟨?_, List.forall_mem_singleton.2 ?_⟩
    · show ({ x with name := ⟨y.value, 0⟩ } : Ident) = { x with name := ⟨x.value, 0⟩ }
      rw [hv]
    · show innermost l y.value around = some y
      rw [hv]
      exact hy
  · exact .throw trivial

/-- The two parts of a phrase. -/
theorem Visit.bound_append {vs ws : List Visit} (hv : ∀ v ∈ vs, v.Bound) (hw : ∀ w ∈ ws, w.Bound) :
    ∀ v ∈ vs ++ ws, v.Bound :=
  List.forall_mem_append.2 ⟨hv, hw⟩

/-- The two parts of a phrase, where the second is in the scope of a binder. -/
theorem Visit.bound_binder {vs ws : List Visit} {x : Ident} (hv : ∀ v ∈ vs, v.Bound)
    (hw : ∀ w ∈ ws, w.Bound) : ∀ v ∈ vs ++ .binder x :: ws, v.Bound :=
  bound_append hv (List.forall_mem_cons.2 ⟨trivial, hw⟩)

theorem KindExpr.rename_resolves (k : KindExpr) (hs : s.FindsInnermost around) :
    Ends (k.rename s) c (fun r _ => r.unnumbered = k.unnumbered ∧
      ∀ v ∈ r.visits around, v.Bound) True := by
  induction k generalizing c with
  | star => exact .pure ⟨rfl, List.forall_mem_nil _⟩
  | var x =>
    exact .bind (x.resolve_resolves hs .kind) fun _ _ h => .pure ⟨congrArg var h.1, h.2⟩
  | arrow j k hj hk =>
    exact .bind hj fun _ _ h₁ => .bind hk fun _ _ h₂ =>
      .pure ⟨congrArg₂ arrow h₁.1 h₂.1, Visit.bound_append h₁.2 h₂.2⟩

/-- The names of a renamed type refer to their innermost binders. -/
theorem TypeExpr.rename_resolves (t : TypeExpr) (hs : s.FindsInnermost around) :
    Ends (t.rename s) c (fun r _ => r.unnumbered = t.unnumbered ∧
      ∀ v ∈ r.visits around, v.Bound) True := by
  induction t generalizing s around c with
  | int => exact .pure ⟨rfl, List.forall_mem_nil _⟩
  | var x =>
    exact .bind (x.resolve_resolves hs .type) fun _ _ h => .pure ⟨congrArg var h.1, h.2⟩
  | arrow t u ht hu | app t u ht hu =>
    exact .bind (ht hs) fun _ _ h₁ => .bind (hu hs) fun _ _ h₂ =>
      .pure ⟨congrArg₂ _ h₁.1 h₂.1, Visit.bound_append h₁.2 h₂.2⟩
  | bind b x k t ih =>
    refine .bind (k.rename_resolves hs) fun k' c₁ h₁ => ?_
    refine .bind x.fresh_ends fun y c₂ hy => ?_
    obtain ⟨rfl, rfl⟩ := hy
    refine .bind (ih (hs.bind .type _)) fun t' c₃ h₂ => .pure ⟨?_, Visit.bound_binder h₁.2 h₂.2⟩
    exact congrArg₂ (bind b x.unnumbered) h₁.1 h₂.1
  | kinded t k ih =>
    exact .bind (ih hs) fun _ _ h₁ => .bind (k.rename_resolves hs) fun _ _ h₂ =>
      .pure ⟨congrArg₂ kinded h₁.1 h₂.1, Visit.bound_append h₁.2 h₂.2⟩

/-- The result of renaming differs from the phrase in numbers only, and its references have the
names of their binders. -/
theorem Expr.rename_resolves (e : Expr) (hs : s.FindsInnermost around) :
    Ends (e.rename s) c (fun r _ => r.unnumbered = e.unnumbered ∧
      ∀ v ∈ r.visits around, v.Bound) True := by
  induction e generalizing s around c with
  | lit => exact .pure ⟨rfl, List.forall_mem_nil _⟩
  | var x l =>
    exact .bind (x.resolve_resolves hs .expr) fun _ _ h => .pure ⟨congrArg (var · l) h.1, h.2⟩
  | lam x t e l ih =>
    refine .bind (t.rename_resolves hs) fun t' c₁ h₁ => ?_
    refine .bind x.fresh_ends fun y c₂ hy => ?_
    obtain ⟨rfl, rfl⟩ := hy
    refine .bind (ih (hs.bind .expr _)) fun e' c₃ h₂ => .pure ⟨?_, Visit.bound_binder h₁.2 h₂.2⟩
    exact congrArg₂ (lam x.unnumbered · · l) h₁.1 h₂.1
  | app f a l hf ha =>
    exact .bind (hf hs) fun _ _ h₁ => .bind (ha hs) fun _ _ h₂ =>
      .pure ⟨congrArg₂ (app · · l) h₁.1 h₂.1, Visit.bound_append h₁.2 h₂.2⟩
  | tlam x k e l ih =>
    refine .bind (k.rename_resolves hs) fun k' c₁ h₁ => ?_
    refine .bind x.fresh_ends fun y c₂ hy => ?_
    obtain ⟨rfl, rfl⟩ := hy
    refine .bind (ih (hs.bind .type _)) fun e' c₃ h₂ => .pure ⟨?_, Visit.bound_binder h₁.2 h₂.2⟩
    exact congrArg₂ (tlam x.unnumbered · · l) h₁.1 h₂.1
  | tapp e t l ih =>
    exact .bind (ih hs) fun _ _ h₁ => .bind (t.rename_resolves hs) fun _ _ h₂ =>
      .pure ⟨congrArg₂ (tapp · · l) h₁.1 h₂.1, Visit.bound_append h₁.2 h₂.2⟩
  | ann e t l ih =>
    exact .bind (ih hs) fun _ _ h₁ => .bind (t.rename_resolves hs) fun _ _ h₂ =>
      .pure ⟨congrArg₂ (ann · · l) h₁.1 h₂.1, Visit.bound_append h₁.2 h₂.2⟩
  | letIn x v e l hv he =>
    refine .bind (hv hs) fun v' c₁ h₁ => ?_
    refine .bind x.fresh_ends fun y c₂ hy => ?_
    obtain ⟨rfl, rfl⟩ := hy
    refine .bind (he (hs.bind .expr _)) fun e' c₃ h₂ => .pure ⟨?_, Visit.bound_binder h₁.2 h₂.2⟩
    exact congrArg₂ (letIn x.unnumbered · · l) h₁.1 h₂.1
  | typeIn x v e l ih =>
    refine .bind (v.rename_resolves hs) fun v' c₁ h₁ => ?_
    refine .bind x.fresh_ends fun y c₂ hy => ?_
    obtain ⟨rfl, rfl⟩ := hy
    refine .bind (ih (hs.bind .type _)) fun e' c₃ h₂ => .pure ⟨?_, Visit.bound_binder h₁.2 h₂.2⟩
    exact congrArg₂ (typeIn x.unnumbered · · l) h₁.1 h₂.1
  | kindIn x v e l ih =>
    refine .bind (v.rename_resolves hs) fun v' c₁ h₁ => ?_
    refine .bind x.fresh_ends fun y c₂ hy => ?_
    obtain ⟨rfl, rfl⟩ := hy
    refine .bind (ih (hs.bind .kind _)) fun e' c₃ h₂ => .pure ⟨?_, Visit.bound_binder h₁.2 h₂.2⟩
    exact congrArg₂ (kindIn x.unnumbered · · l) h₁.1 h₂.1

end

/-! ## The numbers that are given out -/

/-- The `n` numbers from `c` on. -/
def numbersFrom (c : Int) : Nat → List Int
  | 0 => []
  | n + 1 => c :: numbersFrom (c + 1) n

/-- The numbers that are taken are those from the counter on. -/
theorem mem_numbersFrom {c i : Int} {n : Nat} : i ∈ numbersFrom c n ↔ c ≤ i ∧ i < c + n := by
  induction n generalizing c with
  | zero =>
    simp only [numbersFrom, List.not_mem_nil, false_iff]
    omega
  | succ n ih =>
    rw [numbersFrom, List.mem_cons, ih]
    omega

theorem nodup_numbersFrom (c : Int) (n : Nat) : (numbersFrom c n).Nodup := by
  induction n generalizing c with
  | zero => exact .nil
  | succ n ih =>
    refine List.nodup_cons.2 ⟨fun h => ?_, ih (c + 1)⟩
    have hlt := (mem_numbersFrom.1 h).1
    omega

/-- How far the counter goes, and which numbers are given. -/
theorem Numbered.ids {c c' : Int} {xs : List Name} (h : Numbered c c' xs) :
    c' = c + xs.length ∧ xs.map (·.id) = numbersFrom c xs.length := by
  induction xs generalizing c with
  | nil => exact ⟨h.trans (Int.add_zero c).symm, rfl⟩
  | cons x xs ih =>
    obtain ⟨rfl, hxs⟩ := h
    obtain ⟨rfl, hids⟩ := ih hxs
    exact ⟨by rw [List.length_cons]; omega, congrArg (List.cons x.id) hids⟩

/-- The binders of a phrase, in the order in which renaming numbers them. -/
def Tree.binders : Tree → List Name
  | .kind _ => []
  | .type t => t.binders
  | .expr e => e.binders

theorem Tree.rename_numbered (t : Tree) {s : Scope} {c : Int} :
    Ends (t.rename s) c (fun r c' => Numbered c c' r.binders) True := by
  cases t with
  | kind k => exact .bind k.rename_keeps fun _ _ h => .pure h
  | type t => exact .bind t.rename_numbered fun _ _ h => .pure h
  | expr e => exact .bind e.rename_numbered fun _ _ h => .pure h

/-- The numbers that a call of renaming gives out: those of the binders of its result or, if it
fails, of the binders that it has met. -/
def Tree.numbers (s : Scope) (t : Tree) (c : Int) : List Int :=
  match t.rename s c with
  | .ok r _ => r.binders.map (·.id)
  | .error _ _ => numbersFrom c (met s t.visits)

/-- The counter that a call of renaming leaves behind. -/
def Tree.counter (s : Scope) (t : Tree) (c : Int) : Int :=
  match t.rename s c with
  | .ok _ c' | .error _ c' => c'

/-- The numbers that calls of renaming give out, one call after the other. -/
def Rename.numbers : List (Scope × Tree) → Int → List Int
  | [], _ => []
  | (s, t) :: calls, c => t.numbers s c ++ numbers calls (t.counter s c)

/-- The counter goes up by the number of binders that are met. -/
theorem Tree.counter_eq (s : Scope) (t : Tree) (c : Int) : t.counter s c = c + met s t.visits := by
  have h := t.rename_follows s c
  unfold counter
  cases hrun : t.rename s c with
  | ok r c' | error u c' =>
    rw [hrun] at h
    exact h.2

/-- A number is taken for each binder that is met. -/
theorem Tree.numbers_eq (s : Scope) (t : Tree) (c : Int) :
    t.numbers s c = numbersFrom c (met s t.visits) := by
  have h := t.rename_follows s c
  unfold numbers
  cases hrun : t.rename s c with
  | ok r c' =>
    rw [hrun] at h
    obtain ⟨hlen, hids⟩ := (t.rename_numbered.of_ok hrun).ids
    have hmet : r.binders.length = met s t.visits := by
      have := h.2
      omega
    show r.binders.map (·.id) = _
    rw [hids, hmet]
  | error u c' => rfl

theorem Rename.le_of_mem_numbers {calls : List (Scope × Tree)} {c i : Int}
    (h : i ∈ numbers calls c) : c ≤ i := by
  induction calls generalizing c with
  | nil => cases h
  | cons call calls ih =>
    rcases List.mem_append.1 h with h | h
    · rw [Tree.numbers_eq] at h
      exact (mem_numbersFrom.1 h).1
    · have hle := ih h
      rw [Tree.counter_eq] at hle
      omega

/-- No number is taken twice, over any number of calls. -/
theorem Rename.nodup_numbers (calls : List (Scope × Tree)) (c : Int) :
    (numbers calls c).Nodup := by
  induction calls generalizing c with
  | nil => exact .nil
  | cons call calls ih =>
    obtain ⟨s, t⟩ := call
    refine List.nodup_append.2 ⟨?_, ih _, ?_⟩
    · rw [Tree.numbers_eq]
      exact nodup_numbersFrom _ _
    · rintro i hi j hj rfl
      rw [Tree.numbers_eq] at hi
      have hle := le_of_mem_numbers hj
      rw [Tree.counter_eq] at hle
      exact absurd (mem_numbersFrom.1 hi).2 (by omega)

/-! ## Closed programs -/

theorem Expr.rename_ok_iff (e : Expr) (c : Int) :
    (∃ r c', e.rename {} c = .ok r c') ↔
      ∀ l x around, .reference l x around ∈ e.visits [] →
        ∃ y, innermost l x.value around = some y := by
  have hempty (l : Level) (v : String) : (Scope.binders {} l).get? v = none := by cases l <;> rfl
  have hall : (∀ v ∈ e.visits [], v.resolved {}) ↔
      ∀ l x around, .reference l x around ∈ e.visits [] →
        ∃ y, innermost l x.value around = some y := by
    simp only [← Option.isSome_iff_exists]
    constructor
    · intro h l x around hx
      simpa [Visit.resolved, hempty] using h _ hx
    · intro h v hv
      cases v with
      | binder x => rfl
      | reference l x around => simpa [Visit.resolved, hempty] using h l x around hv
  have hsees : Scope.Sees {} {} [] := fun _ _ => rfl
  have h := e.rename_follows hsees c
  rw [← hall]
  cases hrun : e.rename {} c with
  | ok r c' =>
    rw [hrun] at h
    exact ⟨fun _ => h.1, fun _ => ⟨r, c', rfl⟩⟩
  | error u c' =>
    rw [hrun] at h
    obtain ⟨v, hv, hne⟩ := h.1
    refine ⟨fun hok => ?_, fun hres => absurd (hres v hv) hne⟩
    obtain ⟨_, _, hok⟩ := hok
    cases hok

/-- Renaming is an alpha-conversion. It succeeds on the programs whose references all have a binder.
It changes numbers only, binders get the numbers from the counter on, each its own, and references
get those of their innermost binders. Calls that share a counter give out no number twice, even if
some of them fail. -/
theorem Expr.rename_alphaConverts (c : Int) :
    (∀ e : Expr,
      ((∃ r c', e.rename {} c = .ok r c') ↔
        ∀ l x around, .reference l x around ∈ e.visits [] →
          ∃ y, innermost l x.value around = some y) ∧
      ∀ r c', e.rename {} c = .ok r c' →
        r.unnumbered = e.unnumbered ∧
        (r.binders.map (·.id)).Nodup ∧
        c ≤ c' ∧ r.binders.map (·.id) = numbersFrom c (c' - c).toNat ∧
        ∀ l x around, .reference l x around ∈ r.visits [] →
          innermost l x.value around = some x.name) ∧
    ∀ calls : List (Scope × Tree), (Rename.numbers calls c).Nodup := by
  refine ⟨fun e => ⟨e.rename_ok_iff c, fun r c' hrun => ?_⟩, (Rename.nodup_numbers · c)⟩
  obtain ⟨hsame, hbound⟩ := (e.rename_resolves .nil).of_ok hrun
  obtain ⟨hlen, hids⟩ := (e.rename_numbered.of_ok hrun).ids
  refine ⟨hsame, ?_, by omega, ?_, fun l x around hx => hbound _ hx⟩
  · rw [hids]
    exact nodup_numbersFrom _ _
  · rw [hids]
    congr 1
    omega

/-- The value of the inner definition refers to the outer binder. -/
example :
    let x (n : Int) : Ident := { name := ⟨"x", n⟩ }
    Expr.rename {}
        (.lam (x 0) .int (.letIn (x 0) (.var (x 0) none) (.var (x 0) none) none) none) 1 =
      .ok (.lam (x 1) .int (.letIn (x 2) (.var (x 1) none) (.var (x 2) none) none) none) 3 :=
  rfl

end SystemFOmega
