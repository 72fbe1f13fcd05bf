import SystemFOmega.Proofs.Surface.Closed
import SystemFOmega.Proofs.Surface.Resolution
import SystemFOmega.Proofs.Surface.Skeleton

/-!
# Display names and shadowing

A reader of a printed phrase sees display names only, and takes a reference to be to the innermost
binder with its display name. That is right if every reference has the name of that binder
(`Phrase.Resolves`); otherwise a binder in between shadows the one that is meant.

A closed phrase without its numbers is equal to the phrase up to bound names exactly if all
references resolve (`Phrase.skeleton_unnumbered_iff`). So if the names of a closed phrase lose their
numbers and renaming gives them new ones, then the result is equal to the phrase exactly in this
case (`Expr.exists_rename_unnumbered`).
-/

namespace SystemFOmega

open Visit (innermost)

/-- The name as it is in the text. -/
def Name.unnumbered (x : Name) : Name := ⟨x.value, 0⟩

theorem Skeleton.rename_id (t : Skeleton) : t.rename id = t :=
  (rename_eq_subst id t).trans (subst_ref t)

/-! ## Binders around a reference -/

namespace Mark

/-- Makes the free names that the binders `around` bind, of which the innermost comes first,
references to these. -/
def within : List (Level × Name) → Mark → Mark
  | [] => id
  | (l, x) :: around => lift l (within around) ∘ close l x

variable {l m : Level} {x y : Name} {around : List (Level × Name)}

theorem within_self : within ((l, x) :: around) (free l x) = bound l 0 := by simp [within]

theorem within_of_ne (h : ¬ (m = l ∧ y = x)) :
    within ((l, x) :: around) (free m y) = (within around (free m y)).shift l := by
  have hne : free m y ≠ free l x := fun e => h (free.inj e)
  simp [within, close_of_ne hne]

end Mark

/-- The binders without their numbers. -/
def Visit.unnumbered (around : List (Level × Name)) : List (Level × Name) :=
  around.map fun b => (b.1, b.2.unnumbered)

/-- Without numbers, a name refers to the same binder just in case that is the innermost one of its
text. -/
theorem Mark.within_unnumbered_iff {l : Level} {x : Name} {around : List (Level × Name)}
    (h : (l, x) ∈ around) :
    within (Visit.unnumbered around) (free l x.unnumbered) = within around (free l x) ↔
      innermost l x.value around = some x := by
  induction around with
  | nil => cases h
  | cons b around ih =>
    obtain ⟨m, y⟩ := b
    rw [Visit.innermost_cons]
    by_cases hv : m = l ∧ y.value = x.value
    · obtain ⟨rfl, hv⟩ := hv
      have hread : within (Visit.unnumbered ((m, y) :: around)) (free m x.unnumbered) =
          bound m 0 := by
        have hyx : y.unnumbered = x.unnumbered := by rw [Name.unnumbered, hv]; rfl
        rw [← hyx]
        exact within_self
      rw [hread, if_pos ⟨rfl, hv⟩]
      by_cases hyx : y = x
      · subst hyx
        simp only [within_self]
      · -- `y` shadows the binder that is meant
        have hne : ¬ (m = m ∧ x = y) := fun e => hyx e.2.symm
        rw [within_of_ne hne]
        exact ⟨fun e => absurd e.symm (shift_ne_self _ _), fun e => absurd (Option.some.inj e) hyx⟩
    · have hne : ¬ (l = m ∧ x = y) := fun e => hv ⟨e.1.symm, by rw [e.2]⟩
      have hne' : ¬ (l = m ∧ x.unnumbered = y.unnumbered) := fun e =>
        hv ⟨e.1.symm, (congrArg Name.value e.2).symm⟩
      have hmem : (l, x) ∈ around := by
        rcases List.mem_cons.1 h with e | h
        · exact absurd (Prod.mk.inj e) hne
        · exact h
      rw [if_neg hv, within_of_ne hne, ← ih hmem]
      have hread : within (Visit.unnumbered ((m, y) :: around)) (free l x.unnumbered) =
          (within (Visit.unnumbered around) (free l x.unnumbered)).shift m := within_of_ne hne'
      rw [hread]
      exact ⟨shift_injective, congrArg _⟩

/-! ## Phrases -/

namespace Phrase

/-- The phrase without the numbers of its names. -/
def unnumbered : Phrase → Phrase
  | leaf c => leaf c
  | ref l x => ref l x.unnumbered
  | pair o a b => pair o a.unnumbered b.unnumbered
  | bind s x a b => bind s x.unnumbered a.unnumbered b.unnumbered

/-- Every reference has the name of the innermost binder with its display name, in the phrase or
among the binders `around`. -/
def Resolves (around : List (Level × Name)) : Phrase → Prop
  | leaf _ => True
  | ref l x => innermost l x.value around = some x
  | pair _ a b => a.Resolves around ∧ b.Resolves around
  | bind s x a b => a.Resolves around ∧ b.Resolves ((s.level, x) :: around)

variable {p q : Phrase} {l : Level} {x y : Name} {around : List (Level × Name)}

theorem unnumbered_unnumbered (p : Phrase) : p.unnumbered.unnumbered = p.unnumbered := by
  induction p with
  | leaf c | ref l x => rfl
  | pair o a b ha hb => simp only [unnumbered, ha, hb]
  | bind s x a b ha hb =>
    simp only [unnumbered, ha, hb]
    rfl

theorem id_of_mem_unnumbered (h : y ∈ p.unnumbered.names) : y.id = 0 := by
  induction p with
  | leaf c => cases h
  | ref l x =>
    obtain rfl := List.mem_singleton.1 h
    rfl
  | pair o a b ha hb => exact (List.mem_append.1 h).elim ha hb
  | bind s x a b ha hb =>
    rcases List.mem_cons.1 h with rfl | h
    · rfl
    · exact (List.mem_append.1 h).elim ha hb

/-- The free names of a phrase are still free without their numbers, and no others are. -/
theorem exists_of_mem_free_unnumbered (h : y ∈ p.unnumbered.free l) :
    ∃ x ∈ p.free l, y = x.unnumbered := by
  induction p with
  | leaf c => cases h
  | ref m x =>
    rw [unnumbered, free] at h
    split at h
    · rename_i hl
      obtain rfl := List.mem_singleton.1 h
      exact ⟨x, by simp [free, hl], rfl⟩
    · cases h
  | pair o a b ha hb =>
    rw [free]
    rcases List.mem_append.1 h with h | h
    · exact (ha h).imp fun _ hx => ⟨List.mem_append_left _ hx.1, hx.2⟩
    · exact (hb h).imp fun _ hx => ⟨List.mem_append_right _ hx.1, hx.2⟩
  | bind s z a b ha hb =>
    rw [free]
    rcases List.mem_append.1 h with h | h
    · exact (ha h).imp fun _ hx => ⟨List.mem_append_left _ hx.1, hx.2⟩
    · obtain ⟨h, hne⟩ := mem_unbound.1 h
      obtain ⟨x, hx, rfl⟩ := hb h
      refine ⟨x, List.mem_append_right _ (mem_unbound.2 ⟨hx, fun e => hne ⟨e.1, ?_⟩⟩), rfl⟩
      exact congrArg Name.unnumbered e.2

/-- A closed phrase is closed without its numbers too. -/
theorem free_unnumbered (h : ∀ l, p.free l = []) (l : Level) : p.unnumbered.free l = [] := by
  refine List.eq_nil_iff_forall_not_mem.2 fun y hy => ?_
  obtain ⟨x, hx, -⟩ := exists_of_mem_free_unnumbered hy
  rw [h l] at hx
  cases hx

/-- If all references resolve, the free names are bound by the binders around the phrase. -/
theorem Resolves.mem_around (h : p.Resolves around) (hx : x ∈ p.free l) : (l, x) ∈ around := by
  induction p generalizing around with
  | leaf c => cases hx
  | ref m y =>
    rw [free] at hx
    split at hx
    · rename_i hl
      obtain rfl := List.mem_singleton.1 hx
      subst hl
      obtain ⟨b, hb, rfl⟩ := Option.map_eq_some_iff.1 h
      have hfound := List.find?_some hb
      have hl : b.1 = l := (of_decide_eq_true hfound).1
      exact hl ▸ List.mem_of_find?_eq_some hb
    · cases hx
  | pair o a b ha hb => exact (List.mem_append.1 hx).elim (ha h.1) (hb h.2)
  | bind s y a b ha hb =>
    rcases List.mem_append.1 hx with hx | hx
    · exact ha h.1 hx
    · obtain ⟨hx, hne⟩ := mem_unbound.1 hx
      rcases List.mem_cons.1 (hb h.2 hx) with e | hmem
      · exact absurd (Prod.mk.inj e) hne
      · exact hmem

/-- A phrase whose names refer to their binders is closed. -/
theorem Resolves.free (h : p.Resolves []) (l : Level) : p.free l = [] :=
  List.eq_nil_iff_forall_not_mem.2 fun _ hx => List.not_mem_nil (h.mem_around hx)

/-- Under the binders `around`, which bind all that is free, the numbers of a phrase play no part
exactly if all references resolve. -/
theorem rename_within_unnumbered_iff (h : ∀ l, ∀ x ∈ p.free l, (l, x) ∈ around) :
    p.unnumbered.skeleton.rename (Mark.within (Visit.unnumbered around)) =
      p.skeleton.rename (Mark.within around) ↔ p.Resolves around := by
  induction p generalizing around with
  | leaf c => exact iff_of_true rfl trivial
  | ref l x =>
    have hx : (l, x) ∈ around := h l x (by simp [Phrase.free])
    rw [Resolves, ← Mark.within_unnumbered_iff hx]
    exact ⟨Skeleton.ref.inj, congrArg _⟩
  | pair o a b ha hb =>
    have ha := ha fun l x hx => h l x (List.mem_append_left _ hx)
    have hb := hb fun l x hx => h l x (List.mem_append_right _ hx)
    simp only [unnumbered, skeleton, Skeleton.rename, Skeleton.pair.injEq, true_and, Resolves, ha,
      hb]
  | bind s y a b ha hb =>
    have ha := ha fun l x hx => h l x (List.mem_append_left _ hx)
    have hb := @hb ((s.level, y) :: around) fun l x hx => by
      by_cases e : l = s.level ∧ x = y
      · rw [e.1, e.2]
        exact List.mem_cons_self
      · exact .tail _ (h l x (List.mem_append_right _ (mem_unbound.2 ⟨hx, e⟩)))
    simp only [unnumbered, skeleton, Skeleton.rename, Skeleton.bind.injEq, true_and, Resolves, ha,
      ← hb, Skeleton.close, Skeleton.rename_rename]
    rfl

/-- The numbers of a closed phrase play no part exactly if all references resolve. -/
theorem skeleton_unnumbered_iff (h : ∀ l, p.free l = []) :
    p.unnumbered.skeleton = p.skeleton ↔ p.Resolves [] := by
  have hiff := @rename_within_unnumbered_iff p [] fun l x hx => by
    rw [h l] at hx
    cases hx
  rwa [Visit.unnumbered, List.map_nil, Mark.within, Skeleton.rename_id, Skeleton.rename_id] at hiff

/-- A phrase whose references resolve and a closed phrase with the same display names are equal up
to bound names exactly if the references of the other resolve as well. -/
theorem Resolves.skeleton_eq_iff (hq : q.Resolves []) (hp : ∀ l, p.free l = [])
    (h : q.unnumbered = p.unnumbered) : q.skeleton = p.skeleton ↔ p.Resolves [] := by
  rw [← (skeleton_unnumbered_iff hq.free).2 hq, h, skeleton_unnumbered_iff hp]

end Phrase

/-! ## Kinds, types and expressions -/

theorem KindExpr.phrase_unnumbered (k : KindExpr) : k.unnumbered.phrase = k.phrase.unnumbered := by
  induction k with
  | star | var => rfl
  | arrow j k hj hk => simp only [unnumbered, phrase, Phrase.unnumbered, hj, hk]

theorem TypeExpr.phrase_unnumbered (t : TypeExpr) : t.unnumbered.phrase = t.phrase.unnumbered := by
  induction t with
  | int | var => rfl
  | arrow s t hs ht | app s t hs ht => simp only [unnumbered, phrase, Phrase.unnumbered, hs, ht]
  | bind b x k t ih =>
    simp only [unnumbered, phrase, Phrase.unnumbered, ih, k.phrase_unnumbered]
    rfl
  | kinded t k ih => simp only [unnumbered, phrase, Phrase.unnumbered, ih, k.phrase_unnumbered]

theorem Expr.phrase_unnumbered (e : Expr) : e.unnumbered.phrase = e.phrase.unnumbered := by
  induction e with
  | lit | var => rfl
  | app f a _ hf ha => simp only [unnumbered, phrase, Phrase.unnumbered, hf, ha]
  | letIn x v e _ hv he =>
    simp only [unnumbered, phrase, Phrase.unnumbered, hv, he]
    rfl
  | tapp e t _ ih | ann e t _ ih =>
    simp only [unnumbered, phrase, Phrase.unnumbered, ih, t.phrase_unnumbered]
  | lam x t e _ ih | typeIn x t e _ ih =>
    simp only [unnumbered, phrase, Phrase.unnumbered, ih, t.phrase_unnumbered]
    rfl
  | tlam x k e _ ih | kindIn x k e _ ih =>
    simp only [unnumbered, phrase, Phrase.unnumbered, ih, k.phrase_unnumbered]
    rfl

theorem KindExpr.phrase_unlocated (k : KindExpr) : k.unlocated.phrase = k.phrase := by
  induction k with
  | star | var => rfl
  | arrow j k hj hk => simp only [unlocated, phrase, hj, hk]

theorem TypeExpr.phrase_unlocated (t : TypeExpr) : t.unlocated.phrase = t.phrase := by
  induction t with
  | int | var => rfl
  | arrow s t hs ht | app s t hs ht => simp only [unlocated, phrase, hs, ht]
  | bind b x k t ih =>
    simp only [unlocated, phrase, ih, k.phrase_unlocated]
    rfl
  | kinded t k ih => simp only [unlocated, phrase, ih, k.phrase_unlocated]

theorem Expr.phrase_unlocated (e : Expr) : e.unlocated.phrase = e.phrase := by
  induction e with
  | lit | var => rfl
  | app f a _ hf ha => simp only [unlocated, phrase, hf, ha]
  | letIn x v e _ hv he =>
    simp only [unlocated, phrase, hv, he]
    rfl
  | tapp e t _ ih | ann e t _ ih => simp only [unlocated, phrase, ih, t.phrase_unlocated]
  | lam x t e _ ih | typeIn x t e _ ih =>
    simp only [unlocated, phrase, ih, t.phrase_unlocated]
    rfl
  | tlam x k e _ ih | kindIn x k e _ ih =>
    simp only [unlocated, phrase, ih, k.phrase_unlocated]
    rfl

section

variable {around : List (Level × Name)}

theorem Visit.forall_bound_reference {l : Level} {x : Ident} :
    (∀ v ∈ [reference l x around], v.Bound) ↔ innermost l x.value around = some x.name :=
  List.forall_mem_singleton

theorem Visit.forall_bound_append {vs ws : List Visit} :
    (∀ v ∈ vs ++ ws, v.Bound) ↔ (∀ v ∈ vs, v.Bound) ∧ ∀ w ∈ ws, w.Bound :=
  List.forall_mem_append

theorem Visit.forall_bound_binder {vs ws : List Visit} {x : Ident} :
    (∀ v ∈ vs ++ .binder x :: ws, v.Bound) ↔ (∀ v ∈ vs, v.Bound) ∧ ∀ w ∈ ws, w.Bound := by
  rw [forall_bound_append, List.forall_mem_cons]
  exact and_congr_right fun _ => and_iff_right trivial

theorem KindExpr.resolves_phrase (k : KindExpr) :
    k.phrase.Resolves around ↔ ∀ v ∈ k.visits around, v.Bound := by
  induction k with
  | star => exact iff_of_true trivial (List.forall_mem_nil _)
  | var x => exact Visit.forall_bound_reference.symm
  | arrow j k hj hk =>
    rw [visits, Visit.forall_bound_append, ← hj, ← hk]
    rfl

/-- The visits of a type tell whether its names refer to their innermost binders. -/
theorem TypeExpr.resolves_phrase (t : TypeExpr) :
    t.phrase.Resolves around ↔ ∀ v ∈ t.visits around, v.Bound := by
  induction t generalizing around with
  | int => exact iff_of_true trivial (List.forall_mem_nil _)
  | var x => exact Visit.forall_bound_reference.symm
  | arrow s t hs ht | app s t hs ht =>
    rw [visits, Visit.forall_bound_append, ← hs, ← ht]
    rfl
  | bind b x k t ih =>
    rw [visits, Visit.forall_bound_binder, ← k.resolves_phrase, ← ih]
    rfl
  | kinded t k ih =>
    rw [visits, Visit.forall_bound_append, ← ih, ← k.resolves_phrase]
    rfl

/-- The visits of an expression tell whether its names refer to their innermost binders. -/
theorem Expr.resolves_phrase (e : Expr) :
    e.phrase.Resolves around ↔ ∀ v ∈ e.visits around, v.Bound := by
  induction e generalizing around with
  | lit => exact iff_of_true trivial (List.forall_mem_nil _)
  | var x => exact Visit.forall_bound_reference.symm
  | app f a _ hf ha =>
    rw [visits, Visit.forall_bound_append, ← hf, ← ha]
    rfl
  | tapp e t _ ih | ann e t _ ih =>
    rw [visits, Visit.forall_bound_append, ← ih, ← t.resolves_phrase]
    rfl
  | lam x t e _ ih | typeIn x t e _ ih =>
    rw [visits, Visit.forall_bound_binder, ← t.resolves_phrase, ← ih]
    rfl
  | tlam x k e _ ih | kindIn x k e _ ih =>
    rw [visits, Visit.forall_bound_binder, ← k.resolves_phrase, ← ih]
    rfl
  | letIn x v e _ hv he =>
    rw [visits, Visit.forall_bound_binder, ← hv, ← he]
    rfl

end

/-! ## Renaming -/

/-- Take a closed phrase and forget its numbers. Renaming then succeeds, with a phrase that is equal
to it up to bound names exactly if its references resolve. -/
theorem TypeExpr.exists_rename_unnumbered {t u : TypeExpr} (h : t.phrase = u.phrase.unnumbered)
    (hu : u.Closed) (c : Int) :
    ∃ r c', t.rename {} c = .ok r c' ∧ r.phrase.unnumbered = u.phrase.unnumbered ∧
      (r.phrase.skeleton = u.phrase.skeleton ↔ ∀ v ∈ u.visits [], v.Bound) := by
  have hfree (l : Level) : u.phrase.free l = [] := (u.free_phrase l).trans (hu l)
  have hplain : ∀ x ∈ t.names, x.id = 0 := by
    rw [← names_phrase, h]
    exact fun x => Phrase.id_of_mem_unnumbered
  have hfinds (l : Level) : Scope.Finds {} l (t.free l) := by
    rw [← free_phrase, h, Phrase.free_unnumbered hfree]
    exact List.forall_mem_nil _
  obtain ⟨r, c', hr, -⟩ :=
    (rename_expand hplain hfinds (.nil c Env.empty Env.empty)).exists_ok id
  obtain ⟨hsame, hbound⟩ := (t.rename_resolves .nil).of_ok hr
  have hnames : r.phrase.unnumbered = u.phrase.unnumbered := by
    rw [← phrase_unnumbered, hsame, phrase_unnumbered, h, Phrase.unnumbered_unnumbered]
  refine ⟨r, c', hr, hnames, ?_⟩
  rw [← u.resolves_phrase]
  exact ((r.resolves_phrase).2 hbound).skeleton_eq_iff hfree hnames

theorem Expr.exists_rename_unnumbered {e r : Expr} (h : e.phrase = r.phrase.unnumbered)
    (hr : r.Closed) (c : Int) :
    ∃ r' c', e.rename {} c = .ok r' c' ∧ (r'.AlphaEq r ↔ ∀ v ∈ r.visits [], v.Bound) := by
  have hfree (l : Level) : r.phrase.free l = [] := (r.free_phrase l).trans (hr l)
  have hplain : ∀ x ∈ e.names, x.id = 0 := by
    rw [← names_phrase, h]
    exact fun x => Phrase.id_of_mem_unnumbered
  have hfinds (l : Level) : Scope.Finds {} l (e.free l) := by
    rw [← free_phrase, h, Phrase.free_unnumbered hfree]
    exact List.forall_mem_nil _
  obtain ⟨r', c', hrun, -⟩ :=
    (rename_expand hplain hfinds (.nil c Env.empty Env.empty)).exists_ok id
  obtain ⟨hsame, hbound⟩ := (e.rename_resolves .nil).of_ok hrun
  have hnames : r'.phrase.unnumbered = r.phrase.unnumbered := by
    rw [← phrase_unnumbered, hsame, phrase_unnumbered, h, Phrase.unnumbered_unnumbered]
  refine ⟨r', c', hrun, ?_⟩
  rw [← r.resolves_phrase]
  exact ((r'.resolves_phrase).2 hbound).skeleton_eq_iff hfree hnames

end SystemFOmega
