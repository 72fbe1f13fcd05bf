import SystemFOmega.Proofs.Run
import SystemFOmega.Surface.Names
import SystemFOmega.Surface.Rename

/-!
# Identifiers and places of a phrase

`Expr.Each I N` says that all identifiers of an expression satisfy `I`, and all its places `N`.
Renaming gives identifiers new names but leaves everything where it is, and it fails at the place of
an identifier (`Expr.rename_each`).
-/

namespace SystemFOmega

open Run

/-- Every name in the kind satisfies `I`. -/
def KindExpr.Each (I : Ident → Prop) : KindExpr → Prop
  | .star => True
  | .var x => I x
  | .arrow j k => j.Each I ∧ k.Each I

/-- Every name in the type satisfies `I`, that of a binder as well as that of a reference. -/
def TypeExpr.Each (I : Ident → Prop) : TypeExpr → Prop
  | .int => True
  | .var x => I x
  | .arrow s t | .app s t => s.Each I ∧ t.Each I
  | .bind _ x k t => I x ∧ k.Each I ∧ t.Each I
  | .kinded t k => t.Each I ∧ k.Each I

/-- Every name in the expression satisfies `I`, and the place of every expression in it satisfies
`N`. -/
def Expr.Each (I : Ident → Prop) (N : Option Location → Prop) : Expr → Prop
  | .lit _ l => N l
  | .var x l => N l ∧ I x
  | .lam x t e l => N l ∧ I x ∧ t.Each I ∧ e.Each I N
  | .app f a l => N l ∧ f.Each I N ∧ a.Each I N
  | .tlam x k e l => N l ∧ I x ∧ k.Each I ∧ e.Each I N
  | .tapp e t l | .ann e t l => N l ∧ e.Each I N ∧ t.Each I
  | .letIn x v e l => N l ∧ I x ∧ v.Each I N ∧ e.Each I N
  | .typeIn x v e l => N l ∧ I x ∧ v.Each I ∧ e.Each I N
  | .kindIn x v e l => N l ∧ I x ∧ v.Each I ∧ e.Each I N

section

variable {I I' : Ident → Prop} {N N' : Option Location → Prop}

/-- The expression itself is one of those whose places are looked at. -/
theorem Expr.Each.loc {e : Expr} (h : e.Each I N) : N e.loc := by
  cases e with
  | lit n l => exact h
  | _ => exact h.1

theorem KindExpr.Each.mono {k : KindExpr} (h : k.Each I) (hI : ∀ x, I x → I' x) : k.Each I' := by
  induction k with
  | star => trivial
  | var x => exact hI x h
  | arrow j k hj hk => exact ⟨hj h.1, hk h.2⟩

theorem TypeExpr.Each.mono {t : TypeExpr} (h : t.Each I) (hI : ∀ x, I x → I' x) : t.Each I' := by
  induction t with
  | int => trivial
  | var x => exact hI x h
  | arrow s t hs ht | app s t hs ht => exact ⟨hs h.1, ht h.2⟩
  | bind b x k t ht => exact ⟨hI x h.1, h.2.1.mono hI, ht h.2.2⟩
  | kinded t k ht => exact ⟨ht h.1, h.2.mono hI⟩

/-- A weaker condition on names and places holds as well. -/
theorem Expr.Each.mono {e : Expr} (h : e.Each I N) (hI : ∀ x, I x → I' x) (hN : ∀ l, N l → N' l) :
    e.Each I' N' := by
  induction e with
  | lit n l => exact hN l h
  | var x l => exact ⟨hN l h.1, hI x h.2⟩
  | app f a l hf ha => exact ⟨hN l h.1, hf h.2.1, ha h.2.2⟩
  | tapp e t l ih | ann e t l ih => exact ⟨hN l h.1, ih h.2.1, h.2.2.mono hI⟩
  | lam x t e l ih | tlam x t e l ih | typeIn x t e l ih | kindIn x t e l ih =>
    exact ⟨hN l h.1, hI x h.2.1, h.2.2.1.mono hI, ih h.2.2.2⟩
  | letIn x v e l hv he => exact ⟨hN l h.1, hI x h.2.1, hv h.2.2.1, he h.2.2.2⟩

theorem KindExpr.each_of_forall (hI : ∀ x, I x) (k : KindExpr) : k.Each I := by
  induction k with
  | star => trivial
  | var x => exact hI x
  | arrow j k hj hk => exact ⟨hj, hk⟩

theorem TypeExpr.each_of_forall (hI : ∀ x, I x) (t : TypeExpr) : t.Each I := by
  induction t with
  | int => trivial
  | var x => exact hI x
  | arrow s t hs ht | app s t hs ht => exact ⟨hs, ht⟩
  | bind b x k t ht => exact ⟨hI x, k.each_of_forall hI, ht⟩
  | kinded t k ht => exact ⟨ht, k.each_of_forall hI⟩

/-- What holds of all names and places there are holds of those of an expression. -/
theorem Expr.each_of_forall (hI : ∀ x, I x) (hN : ∀ l, N l) (e : Expr) : e.Each I N := by
  induction e with
  | lit n l => exact hN l
  | var x l => exact ⟨hN l, hI x⟩
  | app f a l hf ha => exact ⟨hN l, hf, ha⟩
  | tapp e t l ih | ann e t l ih => exact ⟨hN l, ih, t.each_of_forall hI⟩
  | lam x t e l ih | tlam x t e l ih | typeIn x t e l ih | kindIn x t e l ih =>
    exact ⟨hN l, hI x, t.each_of_forall hI, ih⟩
  | letIn x v e l hv he => exact ⟨hN l, hI x, hv, he⟩

/-! ## Names -/

variable {P : Name → Prop}

theorem KindExpr.Each.names {k : KindExpr} (h : k.Each (P ·.name)) : ∀ y ∈ k.names, P y := by
  induction k with
  | star => exact List.forall_mem_nil _
  | var x => exact List.forall_mem_singleton.2 h
  | arrow j k hj hk => exact List.forall_mem_append.2 ⟨hj h.1, hk h.2⟩

theorem TypeExpr.Each.names {t : TypeExpr} (h : t.Each (P ·.name)) : ∀ y ∈ t.names, P y := by
  induction t with
  | int => exact List.forall_mem_nil _
  | var x => exact List.forall_mem_singleton.2 h
  | arrow s t hs ht | app s t hs ht => exact List.forall_mem_append.2 ⟨hs h.1, ht h.2⟩
  | bind b x k t ht =>
    exact List.forall_mem_cons.2 ⟨h.1, List.forall_mem_append.2 ⟨h.2.1.names, ht h.2.2⟩⟩
  | kinded t k ht => exact List.forall_mem_append.2 ⟨ht h.1, h.2.names⟩

/-- A condition that depends on the name alone holds of all names that are listed. -/
theorem Expr.Each.names {e : Expr} (h : e.Each (P ·.name) N) : ∀ y ∈ e.names, P y := by
  induction e with
  | lit n l => exact List.forall_mem_nil _
  | var x l => exact List.forall_mem_singleton.2 h.2
  | app f a l hf ha => exact List.forall_mem_append.2 ⟨hf h.2.1, ha h.2.2⟩
  | tapp e t l ih | ann e t l ih => exact List.forall_mem_append.2 ⟨ih h.2.1, h.2.2.names⟩
  | lam x t e l ih | tlam x t e l ih | typeIn x t e l ih | kindIn x t e l ih =>
    exact List.forall_mem_cons.2 ⟨h.2.1, List.forall_mem_append.2 ⟨h.2.2.1.names, ih h.2.2.2⟩⟩
  | letIn x v e l hv he =>
    exact List.forall_mem_cons.2 ⟨h.2.1, List.forall_mem_append.2 ⟨hv h.2.2.1, he h.2.2.2⟩⟩

end

/-! ## Renaming -/

section

variable {N : Option Location → Prop} {s : Scope} {c : Int}

/-- A reference keeps its place when it takes the number of its binder, and if there is no binder,
then it is reported there. -/
theorem Ident.resolve_loc (l : Level) {x : Ident} (h : N x.loc) :
    Settles (x.resolve l s) c (fun y _ => N y.loc) (N ·.loc) := by
  unfold Ident.resolve
  split
  · exact .pure h
  · exact .throw h

theorem Ident.fresh_loc {x : Ident} (h : N x.loc) :
    Ends x.fresh c (fun y _ => N y.loc) False := h

/-- Renaming moves nothing: the names of a renamed kind are where they were, and a reference without
a binder is reported where it is. -/
theorem KindExpr.rename_each {k : KindExpr} (h : k.Each (N ·.loc)) :
    Settles (k.rename s) c (fun r _ => r.Each (N ·.loc)) (N ·.loc) := by
  induction k generalizing c with
  | star => exact .pure trivial
  | var x => exact .bind (Ident.resolve_loc .kind h) fun y _ hy => .pure hy
  | arrow j k hj hk =>
    exact .bind (hj h.1) fun _ _ hj => .bind (hk h.2) fun _ _ hk => .pure ⟨hj, hk⟩

/-- Renaming moves nothing in a type. -/
theorem TypeExpr.rename_each {t : TypeExpr} (h : t.Each (N ·.loc)) :
    Settles (t.rename s) c (fun r _ => r.Each (N ·.loc)) (N ·.loc) := by
  induction t generalizing s c with
  | int => exact .pure trivial
  | var x => exact .bind (Ident.resolve_loc .type h) fun y _ hy => .pure hy
  | arrow t u ht hu | app t u ht hu =>
    exact .bind (ht h.1) fun _ _ ht => .bind (hu h.2) fun _ _ hu => .pure ⟨ht, hu⟩
  | bind b x k t ht =>
    exact .bind (KindExpr.rename_each h.2.1) fun _ _ hk =>
      .ends_bind (Ident.fresh_loc h.1) fun _ _ hx =>
        .bind (ht h.2.2) fun _ _ ht => .pure ⟨hx, hk, ht⟩
  | kinded t k ht =>
    exact .bind (ht h.1) fun _ _ ht =>
      .bind (KindExpr.rename_each h.2) fun _ _ hk => .pure ⟨ht, hk⟩

/-- Renaming moves nothing in an expression. -/
theorem Expr.rename_each {e : Expr} (h : e.Each (N ·.loc) N) :
    Settles (e.rename s) c (fun r _ => r.Each (N ·.loc) N) (N ·.loc) := by
  induction e generalizing s c with
  | lit n l => exact .pure h
  | var x l => exact .bind (Ident.resolve_loc .expr h.2) fun _ _ hx => .pure ⟨h.1, hx⟩
  | app f a l hf ha =>
    exact .bind (hf h.2.1) fun _ _ hf => .bind (ha h.2.2) fun _ _ ha => .pure ⟨h.1, hf, ha⟩
  | tapp e t l ih | ann e t l ih =>
    exact .bind (ih h.2.1) fun _ _ he =>
      .bind (TypeExpr.rename_each h.2.2) fun _ _ ht => .pure ⟨h.1, he, ht⟩
  | lam x t e l ih | typeIn x t e l ih =>
    exact .bind (TypeExpr.rename_each h.2.2.1) fun _ _ ht =>
      .ends_bind (Ident.fresh_loc h.2.1) fun _ _ hx =>
        .bind (ih h.2.2.2) fun _ _ he => .pure ⟨h.1, hx, ht, he⟩
  | tlam x k e l ih | kindIn x k e l ih =>
    exact .bind (KindExpr.rename_each h.2.2.1) fun _ _ hk =>
      .ends_bind (Ident.fresh_loc h.2.1) fun _ _ hx =>
        .bind (ih h.2.2.2) fun _ _ he => .pure ⟨h.1, hx, hk, he⟩
  | letIn x v e l hv he =>
    exact .bind (hv h.2.2.1) fun _ _ hv =>
      .ends_bind (Ident.fresh_loc h.2.1) fun _ _ hx =>
        .bind (he h.2.2.2) fun _ _ he => .pure ⟨h.1, hx, hv, he⟩

end

end SystemFOmega
