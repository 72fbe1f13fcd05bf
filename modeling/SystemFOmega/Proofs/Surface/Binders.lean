import SystemFOmega.Proofs.Surface.Rename

/-!
# Binders in the order of their numbers

Renaming numbers the binders of a phrase one after the other, in the order in which it meets them
(`Expr.rename_numbered`), so that no two binders of a renamed phrase have the same name. Among them
are the names that a `let` defines (`Expr.lets`).
-/

namespace SystemFOmega

open Run

/-- The binders of a type, in the order in which renaming numbers them. -/
def TypeExpr.binders : TypeExpr → List Name
  | .int | .var _ => []
  | .arrow s t | .app s t => s.binders ++ t.binders
  | .bind _ x _ t => x.name :: t.binders
  | .kinded t _ => t.binders

/-- The binders of an expression, in the order in which renaming numbers them. -/
def Expr.binders : Expr → List Name
  | .lit _ _ | .var _ _ => []
  | .lam x t e _ => t.binders ++ x.name :: e.binders
  | .app f a _ => f.binders ++ a.binders
  | .tlam x _ e _ => x.name :: e.binders
  | .tapp e t _ | .ann e t _ => e.binders ++ t.binders
  | .letIn x v e _ => v.binders ++ x.name :: e.binders
  | .typeIn x v e _ => v.binders ++ x.name :: e.binders
  | .kindIn x _ e _ => x.name :: e.binders

/-- The names that `let` defines in an expression, in that order. -/
def Expr.lets : Expr → List Name
  | .lit _ _ | .var _ _ => []
  | .lam _ _ e _ | .tlam _ _ e _ | .tapp e _ _ | .ann e _ _ | .typeIn _ _ e _ | .kindIn _ _ e _ =>
    e.lets
  | .app f a _ => f.lets ++ a.lets
  | .letIn x v e _ => v.lets ++ x.name :: e.lets

/-- The definitions of an expression are among its binders, in the same order. -/
theorem Expr.lets_sublist (e : Expr) : e.lets.Sublist e.binders := by
  induction e with
  | lit | var => exact .slnil
  | lam x t e _ ih => exact (List.Sublist.cons _ ih).trans (List.sublist_append_right _ _)
  | app f a _ hf ha => exact hf.append ha
  | tlam x k e _ ih | kindIn x k e _ ih => exact .cons _ ih
  | tapp e t _ ih | ann e t _ ih => exact ih.trans (List.sublist_append_left _ _)
  | letIn x v e _ hv he => exact hv.append (.cons_cons _ he)
  | typeIn x v e _ ih => exact (List.Sublist.cons _ ih).trans (List.sublist_append_right _ _)

/-! ## Numbers -/

/-- The names have the numbers from `c` up to `c'`, in this order. -/
def Numbered (c c' : Int) : List Name → Prop
  | [] => c' = c
  | x :: xs => x.id = c ∧ Numbered (c + 1) c' xs

namespace Numbered

variable {c c' c'' : Int} {xs ys : List Name}

/-- Numbers are given to one list of names after the other. -/
theorem append (h : Numbered c c' xs) (h' : Numbered c' c'' ys) : Numbered c c'' (xs ++ ys) := by
  induction xs generalizing c with
  | nil =>
    obtain rfl : c' = c := h
    exact h'
  | cons x xs ih => exact ⟨h.1, ih h.2⟩

theorem le_of_mem (h : Numbered c c' xs) {x : Name} (hx : x ∈ xs) : c ≤ x.id := by
  induction xs generalizing c with
  | nil => cases hx
  | cons y xs ih =>
    have hy := h.1
    rcases List.mem_cons.1 hx with rfl | hx
    · omega
    · have := ih h.2 hx
      omega

theorem le (h : Numbered c c' xs) : c ≤ c' := by
  induction xs generalizing c with
  | nil => exact Int.le_of_eq h.symm
  | cons x xs ih =>
    have hle := ih h.2
    omega

theorem lt_of_mem (h : Numbered c c' xs) {x : Name} (hx : x ∈ xs) : x.id < c' := by
  induction xs generalizing c with
  | nil => cases hx
  | cons y xs ih =>
    rcases List.mem_cons.1 hx with rfl | hx
    · have hid := h.1
      have hle := h.2.le
      omega
    · exact ih h.2 hx

/-- Names that are numbered one after the other differ. -/
theorem nodup (h : Numbered c c' xs) : xs.Nodup := by
  induction xs generalizing c with
  | nil => exact .nil
  | cons x xs ih =>
    refine List.nodup_cons.2 ⟨fun hx => ?_, ih h.2⟩
    have hle := h.2.le_of_mem hx
    have hid := h.1
    omega

end Numbered

/-- All names have numbers below `c`. -/
def Below (c : Int) (xs : List Name) : Prop := ∀ x ∈ xs, x.id < c

instance (c : Int) (xs : List Name) : Decidable (Below c xs) :=
  inferInstanceAs (Decidable (∀ x ∈ xs, x.id < c))

theorem Below.mono {c c' : Int} {xs ys : List Name} (h : Below c xs) (hc : c ≤ c') (hy : ys ⊆ xs) :
    Below c' ys := by
  intro x hx
  have hlt := h x (hy hx)
  omega

/-- A name with a new number is none of the old ones. -/
theorem Below.not_mem {c : Int} {xs : List Name} (h : Below c xs) {x : Name} (hx : c ≤ x.id) :
    x ∉ xs := by
  intro hmem
  have hlt := h x hmem
  omega

section

variable {s : Scope} {c : Int}

theorem Ident.resolve_keeps (l : Level) (x : Ident) :
    Ends (x.resolve l s) c (fun _ c' => c' = c) True := by
  unfold resolve
  split
  · exact .pure rfl
  · exact .throw trivial

/-- Kinds bind nothing, so that renaming them takes no numbers. -/
theorem KindExpr.rename_keeps (k : KindExpr) : Ends (k.rename s) c (fun _ c' => c' = c) True := by
  induction k generalizing c with
  | star => exact .pure rfl
  | var x => exact .bind (x.resolve_keeps .kind) fun _ _ h => .pure h
  | arrow j k hj hk =>
    exact .bind hj fun _ _ h₁ => .bind hk fun _ _ h₂ => .pure (h₂.trans h₁)

/-- The binders of a renamed type have the numbers that the renaming has taken. -/
theorem TypeExpr.rename_numbered (t : TypeExpr) :
    Ends (t.rename s) c (fun r c' => Numbered c c' r.binders) True := by
  induction t generalizing s c with
  | int => exact .pure rfl
  | var x => exact .bind (x.resolve_keeps .type) fun _ _ h => .pure h
  | arrow t u ht hu | app t u ht hu =>
    exact .bind ht fun _ _ h₁ => .bind hu fun _ _ h₂ => .pure (h₁.append h₂)
  | bind b x k t ih =>
    refine .bind k.rename_keeps fun k' c₁ h₁ => ?_
    obtain rfl := h₁
    refine .bind x.fresh_ends fun y c₂ hy => ?_
    obtain ⟨rfl, rfl⟩ := hy
    exact .bind ih fun _ _ h₂ => .pure ⟨rfl, h₂⟩
  | kinded t k ih =>
    refine .bind ih fun t' c₁ h₁ => ?_
    refine .bind k.rename_keeps fun k' c₂ h₂ => ?_
    obtain rfl := h₂
    exact .pure h₁

/-- Renaming gives the binders of an expression consecutive numbers. -/
theorem Expr.rename_numbered (e : Expr) :
    Ends (e.rename s) c (fun r c' => Numbered c c' r.binders) True := by
  induction e generalizing s c with
  | lit => exact .pure rfl
  | var x => exact .bind (x.resolve_keeps .expr) fun _ _ h => .pure h
  | lam x t e _ ih | typeIn x t e _ ih =>
    refine .bind t.rename_numbered fun t' c₁ h₁ => ?_
    refine .bind x.fresh_ends fun y c₂ hy => ?_
    obtain ⟨rfl, rfl⟩ := hy
    exact .bind ih fun _ _ h₂ => .pure (h₁.append ⟨rfl, h₂⟩)
  | app f a _ hf ha =>
    exact .bind hf fun _ _ h₁ => .bind ha fun _ _ h₂ => .pure (h₁.append h₂)
  | tlam x k e _ ih | kindIn x k e _ ih =>
    refine .bind k.rename_keeps fun k' c₁ h₁ => ?_
    obtain rfl := h₁
    refine .bind x.fresh_ends fun y c₂ hy => ?_
    obtain ⟨rfl, rfl⟩ := hy
    exact .bind ih fun _ _ h₂ => .pure ⟨rfl, h₂⟩
  | tapp e t _ ih | ann e t _ ih =>
    exact .bind ih fun _ _ h₁ => .bind t.rename_numbered fun _ _ h₂ => .pure (h₁.append h₂)
  | letIn x v e _ hv he =>
    refine .bind hv fun v' c₁ h₁ => ?_
    refine .bind x.fresh_ends fun y c₂ hy => ?_
    obtain ⟨rfl, rfl⟩ := hy
    exact .bind he fun _ _ h₂ => .pure (h₁.append ⟨rfl, h₂⟩)

end

/-! ## Closed programs -/

/-- No two definitions of a renamed expression have the same name. -/
theorem Expr.nodup_lets {e r : Expr} {c c' : Int} (h : e.rename {} c = .ok r c') : r.lets.Nodup :=
  (e.rename_numbered.of_ok h).nodup.sublist r.lets_sublist

/-- After renaming, the name of a binder tells its telescope, and only names with numbers below the
counter have one. -/
theorem Expr.exists_placed_below {e r : Expr} {c c' : Int} (h : e.rename {} c = .ok r c') :
    ∃ place, r.Placed place [] ∧ ∀ x : Name, place x ≠ [] → x.id < c' := by
  obtain ⟨-, place, hplace⟩ := (e.rename_placed (c := c) .nil).of_ok h
  refine ⟨fun x => if x.id < c' then place x else [], hplace _ fun x _ hx => if_pos hx, ?_⟩
  intro x hx
  by_contra hlt
  exact hx (if_neg hlt)

section

variable {place : Name → Telescope} {S : Telescope} {c : Int}

/-- A name in scope has a number that has been taken. -/
theorem Telescope.Has.lt {l : Level} {x : Name} (h : S.Has l x) (hS : Below c S.names) : x.id < c :=
  hS x h.mem

theorem KindExpr.Placed.below {k : KindExpr} (hS : Below c S.names) (h : k.Placed S) :
    Below c k.names := by
  induction k with
  | star => exact List.forall_mem_nil _
  | var x => exact List.forall_mem_singleton.2 (Telescope.Has.lt h hS)
  | arrow j k hj hk => exact List.forall_mem_append.2 ⟨hj h.1, hk h.2⟩

variable (hplace : ∀ x : Name, place x ≠ [] → x.id < c)

include hplace

/-- Where all names of the place have numbers below `c`, so have those of a binder and of what is
under it. -/
theorem Telescope.below_cons {d : Decl} (hS : Below c S.names) (hd : place d.name = d :: S) :
    Below c (Telescope.names (d :: S)) := by
  refine List.forall_mem_cons.2 ⟨hplace _ ?_, hS⟩
  rw [hd]
  exact List.cons_ne_nil _ _

theorem TypeExpr.Placed.below {t : TypeExpr} (hS : Below c S.names) (h : t.Placed place S) :
    Below c t.names := by
  induction t generalizing S with
  | int => exact List.forall_mem_nil _
  | var x => exact List.forall_mem_singleton.2 (Telescope.Has.lt h hS)
  | arrow s t hs ht | app s t hs ht => exact List.forall_mem_append.2 ⟨hs hS h.1, ht hS h.2⟩
  | bind b x k t ih =>
    obtain ⟨hk, hx, ht⟩ := h
    have hS' := Telescope.below_cons hplace (d := .typeVar x.name k) hS hx
    exact List.forall_mem_cons.2
      ⟨hS' _ (.head _), List.forall_mem_append.2 ⟨hk.below hS, ih hS' ht⟩⟩
  | kinded t k ih => exact List.forall_mem_append.2 ⟨ih hS h.1, h.2.below hS⟩

/-- A placed expression has no names with numbers still to come. -/
theorem Expr.Placed.below {e : Expr} (hS : Below c S.names) (h : e.Placed place S) :
    Below c e.names := by
  -- a binder, with the phrase outside its scope and its body
  have hbind {d : Decl} {S : Telescope} {xs ys : List Name} (hS : Below c S.names)
      (hd : place d.name = d :: S) (hxs : Below c xs)
      (hys : Below c (Telescope.names (d :: S)) → Below c ys) :
      Below c (d.name :: (xs ++ ys)) := by
    have hS' := Telescope.below_cons hplace hS hd
    exact List.forall_mem_cons.2 ⟨hS' _ (.head _), List.forall_mem_append.2 ⟨hxs, hys hS'⟩⟩
  induction e generalizing S with
  | lit => exact List.forall_mem_nil _
  | var x => exact List.forall_mem_singleton.2 (Telescope.Has.lt h hS)
  | lam x t e _ ih =>
    exact hbind (d := .exprVar x.name t) hS h.2.1 (h.1.below hplace hS) fun hS' => ih hS' h.2.2
  | app f a _ hf ha => exact List.forall_mem_append.2 ⟨hf hS h.1, ha hS h.2⟩
  | tlam x k e _ ih =>
    exact hbind (d := .typeVar x.name k) hS h.2.1 (h.1.below hS) fun hS' => ih hS' h.2.2
  | tapp e t _ ih | ann e t _ ih =>
    exact List.forall_mem_append.2 ⟨ih hS h.1, h.2.below hplace hS⟩
  | letIn x v e _ hv he =>
    exact hbind (d := .exprDef x.name v) hS h.2.1 (hv hS h.1) fun hS' => he hS' h.2.2
  | typeIn x v e _ ih =>
    exact hbind (d := .typeDef x.name v) hS h.2.1 (h.1.below hplace hS) fun hS' => ih hS' h.2.2
  | kindIn x v e _ ih =>
    exact hbind (d := .kindDef x.name v) hS h.2.1 (h.1.below hS) fun hS' => ih hS' h.2.2

end

/-- Renaming leaves the counter above all numbers of the phrase. -/
theorem Expr.below_of_rename {e r : Expr} {c c' : Int} (h : e.rename {} c = .ok r c') :
    Below c' r.names := by
  obtain ⟨place, hr, hplace⟩ := exists_placed_below h
  exact hr.below (S := []) hplace (List.forall_mem_nil _)

end SystemFOmega
