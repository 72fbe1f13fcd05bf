import SystemFOmega.Proofs.Surface.Skeleton

/-!
# Substitution without capture

The rules of substitution for a free name (`Phrase.Substitutes`) say what it gives up to the choice
of bound names, for phrases of all levels: they go under a binder only if it captures nothing, and
let any binder take another name first. They come to substitution in skeletons
(`Phrase.Substitutes.skeleton`).

References are counted in skeletons (`Skeleton.count`). Substitution for a free name takes each of
its occurrences away and brings in those of what is put there (`Skeleton.count_put`).
-/

namespace SystemFOmega

/-! ## Counting references -/

namespace Skeleton

/-- How often `r`, seen from outside, occurs in a skeleton. -/
def count (r : Mark) : Skeleton → Nat
  | leaf _ => 0
  | ref s => if s = r then 1 else 0
  | pair _ a b => a.count r + b.count r
  | bind s a b => a.count r + b.count (r.shift s.level)

section

variable {l m : Level} {x y : Name} {q r : Mark} {a t : Skeleton} {ξ : Mark → Mark}

theorem count_eq_zero (h : ¬ t.Uses r) : t.count r = 0 := by
  induction t generalizing r with
  | leaf c => rfl
  | ref s => exact if_neg fun he => h he.symm
  | pair o a b ha hb => rw [count, ha fun hu => h (.inl hu), hb fun hu => h (.inr hu)]
  | bind s a b ha hb => rw [count, ha fun hu => h (.inl hu), hb fun hu => h (.inr hu)]

/-- A renaming that makes `q` of `r` only keeps the count. -/
theorem count_rename (h : ∀ s, ξ s = q ↔ s = r) : (t.rename ξ).count q = t.count r := by
  induction t generalizing ξ q r with
  | leaf c => rfl
  | ref s => simp only [rename, count, h]
  | pair o a b ha hb => simp only [rename, count, ha h, hb h]
  | bind s a b ha hb =>
    have hbody : ∀ p, Mark.lift s.level ξ p = q.shift s.level ↔ p = r.shift s.level := by
      intro p
      obtain rfl | ⟨p, rfl⟩ := p.self_or_shift s.level
      · rw [Mark.lift_self]
        exact iff_of_false (Mark.shift_ne_self s.level q).symm (Mark.shift_ne_self s.level r).symm
      · rw [Mark.lift_shift, Mark.shift_inj, Mark.shift_inj, h]
    simp only [rename, count, ha h, hb hbody]

theorem count_shift : (t.shift l).count (r.shift l) = t.count r :=
  count_rename fun _ => Mark.shift_inj

theorem count_close : (t.close l x).count (.free m y) =
    if m = l ∧ y = x then 0 else t.count (.free m y) := by
  split
  case isTrue h => exact count_eq_zero fun hu => (uses_close_free.1 hu).2 h
  case isFalse h =>
    have hne : Mark.free m y ≠ .free l x := fun he => h (Mark.free.inj he)
    refine count_rename fun s => ⟨fun hs => ?_, fun hs => ?_⟩
    · by_cases hx : s = .free l x
      · rw [hx, Mark.close_self] at hs
        cases hs
      · rw [Mark.close_of_ne hx] at hs
        exact Mark.shift_injective hs
    · rw [hs, Mark.close_of_ne hne]
      rfl

/-- A replaced name is gone, and each of its uses brings those of the replacement. -/
theorem count_put : (t.subst (put l x a)).count r =
    (if r = .free l x then 0 else t.count r) + t.count (.free l x) * a.count r := by
  induction t generalizing a r with
  | leaf c => simp [subst, count]
  | ref s =>
    by_cases hs : s = .free l x
    · subst hs
      by_cases hr : r = .free l x
      · simp [subst, count, hr]
      · simp [subst, count, hr, Ne.symm hr]
    · by_cases hr : r = .free l x
      · simp [subst, count, put_of_ne hs, hs, hr]
      · simp [subst, count, put_of_ne hs, hs, hr]
  | pair o b c hb hc =>
    simp only [subst, count, hb, hc]
    simp only [Nat.add_mul]
    split <;> omega
  | bind s b c hb hc =>
    have hfree : (Mark.free l x).shift s.level = .free l x := rfl
    have hr : r.shift s.level = .free l x ↔ r = .free l x := by
      rw [← hfree, Mark.shift_inj]
      rfl
    simp only [subst, count, up_put, hb, hc, count_shift, hfree, hr]
    simp only [Nat.add_mul]
    split <;> omega

end

end Skeleton

namespace Phrase

/-- A name is free in a phrase as often as it is in its tree. -/
theorem count_free (l : Level) (y : Name) (p : Phrase) :
    (p.free l).count y = p.skeleton.count (.free l y) := by
  induction p with
  | leaf c => rfl
  | ref m x =>
    by_cases hl : l = m
    · subst hl
      simp [free, skeleton, Skeleton.count, List.count_singleton]
    · simp [free, skeleton, Skeleton.count, hl, Ne.symm hl]
  | pair o a b ha hb => rw [free, List.count_append, ha, hb, skeleton, Skeleton.count]
  | bind s x a b ha hb =>
    have hbody : (unbound l s.level ⟨x, none⟩ (b.free l)).count y =
        (b.skeleton.close s.level x).count (.free l y) := by
      rw [Skeleton.count_close, ← hb, unbound]
      by_cases hl : l = s.level
      · by_cases hy : y = x
        · simp [hl, hy, List.count_eq_zero]
        · simp [hl, hy, List.count_filter]
      · simp [hl]
    rw [free, List.count_append, ha, hbody]
    rfl

/-! ## The rules -/

/-- `p` for the free name `z` of the level `l` in a phrase. -/
inductive Substitutes (l : Level) (z : Name) (p : Phrase) : Phrase → Phrase → Prop
  | leaf (k : Skeleton.Leaf) : Substitutes l z p (leaf k) (leaf k)
  | hit : Substitutes l z p (ref l z) p
  | miss {m : Level} {x : Name} (h : ¬ (m = l ∧ x = z)) : Substitutes l z p (ref m x) (ref m x)
  | pair {a a' b b' : Phrase} (o : Skeleton.Pairing) : Substitutes l z p a a' →
    Substitutes l z p b b' → Substitutes l z p (pair o a b) (pair o a' b')
  /-- A binder of the same name and level hides the name in its scope. -/
  | hidden {x : Name} {a a' b : Phrase} {s : Skeleton.Scoping} (h : s.level = l ∧ x = z) :
    Substitutes l z p a a' → Substitutes l z p (bind s x a b) (bind s x a' b)
  /-- A binder of another name, which is not free in `p` at the level of the binder. -/
  | bind {x : Name} {a a' b b' : Phrase} {s : Skeleton.Scoping} (h : ¬ (s.level = l ∧ x = z))
    (hx : x ∉ p.free s.level) : Substitutes l z p a a' → Substitutes l z p b b' →
    Substitutes l z p (bind s x a b) (bind s x a' b')
  /-- The choice of bound names does not matter, before and after. -/
  | alpha {t t' u u' : Phrase} (ht : t.skeleton = t'.skeleton) (hu : u'.skeleton = u.skeleton) :
    Substitutes l z p t' u' → Substitutes l z p t u

/-- A replacement that captures nothing is a substitution in the tree without names. -/
theorem Substitutes.skeleton {l : Level} {z : Name} {p t u : Phrase}
    (h : Substitutes l z p t u) :
    u.skeleton = t.skeleton.subst (Skeleton.put l z p.skeleton) := by
  induction h with
  | leaf => rfl
  | hit => exact (Skeleton.put_self _ _ _).symm
  | miss h => exact (Skeleton.put_of_ne fun he => h (Mark.free.inj he)).symm
  | pair o _ _ ha hb => simp only [Phrase.skeleton, Skeleton.subst, ha, hb]
  | @hidden x a a' b s h _ ha =>
    have hb : (b.skeleton.close s.level x).subst
        (Skeleton.put l z (p.skeleton.shift s.level)) = b.skeleton.close s.level x := by
      refine Skeleton.subst_put_of_not_uses fun hu => ?_
      exact (Skeleton.uses_close_free.1 hu).2 ⟨h.1.symm, h.2.symm⟩
    simp only [Phrase.skeleton, Skeleton.subst, Skeleton.up_put, ha, hb]
  | @bind x a a' b b' s h hx _ _ ha hb =>
    have hmark : Mark.free s.level x ≠ .free l z := fun he => h (Mark.free.inj he)
    have hput : ¬ p.skeleton.Uses (.free s.level x) := fun hu => hx (mem_free.2 hu)
    simp only [Phrase.skeleton, Skeleton.subst, Skeleton.up_put, ha, hb,
      Skeleton.close_put hmark fun _ => hput]
  | alpha ht hu _ ih => rw [← hu, ih, ht]

end Phrase

end SystemFOmega
