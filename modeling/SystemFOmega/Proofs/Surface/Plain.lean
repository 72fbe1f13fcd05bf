import SystemFOmega.Core.Ty
import SystemFOmega.Proofs.Surface.Shadowing
import SystemFOmega.Proofs.Surface.Telescope
import SystemFOmega.Surface.Printer

/-!
# Core types as they are written

A core type is written like a surface type without ascriptions and without names of kinds
(`Ty.surface`, `Phrase.Plain`), and it has the same text (`Ty.print_surface`). For such types,
equality up to bound names can be read off the skeleton, which is the nameless form of the type with
its references as marks (`Nameless.skeleton`): core types are alpha-equivalent exactly if their
surface types have the same skeleton (`Ty.alphaEq_iff_skeleton_eq`), and the expansion of a plain
type has the skeleton of the type (`TypeExpr.skeleton_expand`).
-/

namespace SystemFOmega

/-! ## Core types as surface types -/

/-- The kind as it is written, without aliases. -/
def Kind.surface : Kind → KindExpr
  | .star => .star
  | .arrow j k => .arrow j.surface k.surface

/-- The core type without the kinds of its nodes. -/
def Ty.surface : Ty → TypeExpr
  | .int _ => .int
  | .var x _ => .var ⟨x, none⟩
  | .arrow s t _ => .arrow s.surface t.surface
  | .bind b x k t _ => .bind b ⟨x, none⟩ k.surface t.surface
  | .app f a _ => .app f.surface a.surface

theorem Kind.print_surface (k : Kind) : k.surface.print = k.print := by
  induction k with
  | star => rfl
  | arrow j k hj hk =>
    have hj' : j.surface.isArrow = j.isArrow := by cases j <;> rfl
    simp only [surface, KindExpr.print, print, hj, hk, hj']

/-- A type of the core and the type that is written for it have the same text. -/
theorem Ty.print_surface (t : Ty) : t.surface.print = t.print := by
  have hopen (t : Ty) : t.surface.isOpen = t.isOpen := by cases t <;> rfl
  have hhead (t : Ty) : t.surface.isHead = t.isHead := by cases t <;> rfl
  have hword (t : Ty) : t.surface.isWord = t.isWord := by cases t <;> rfl
  induction t with
  | int | var => rfl
  | arrow s t k hs ht => simp only [surface, TypeExpr.print, print, hs, ht, hopen]
  | bind b x xk t k ih =>
    simp only [surface, TypeExpr.print, print, ih, xk.print_surface]
    rfl
  | app f a k hf ha => simp only [surface, TypeExpr.print, print, hf, ha, hhead, hword]

/-- References are to types only, and nothing is ascribed. -/
def Phrase.Plain : Phrase → Prop
  | leaf _ => True
  | ref l _ => l = .type
  | pair o a b => o ≠ .kinded ∧ a.Plain ∧ b.Plain
  | bind _ _ a b => a.Plain ∧ b.Plain

/-- Numbers play no part. -/
theorem Phrase.plain_congr {p q : Phrase} (h : q.unnumbered = p.unnumbered) :
    q.Plain ↔ p.Plain := by
  have hunnumbered (p : Phrase) : p.unnumbered.Plain ↔ p.Plain := by
    induction p with
    | leaf c | ref l x => rfl
    | pair o a b ha hb => exact and_congr Iff.rfl (and_congr ha hb)
    | bind s x a b ha hb => exact and_congr ha hb
  rw [← hunnumbered q, h, hunnumbered p]

theorem Kind.plain_surface (k : Kind) : k.surface.phrase.Plain := by
  induction k with
  | star => trivial
  | arrow j k hj hk => exact ⟨by decide, hj, hk⟩

theorem Ty.plain_surface (t : Ty) : t.surface.phrase.Plain := by
  induction t with
  | int | var => trivial
  | arrow s t k hs ht | app s t k hs ht => exact ⟨by decide, hs, ht⟩
  | bind b x xk t k ih => exact ⟨xk.plain_surface, ih⟩

/-- A plain kind stands for itself. -/
theorem KindExpr.surface_expand {k : KindExpr} (h : k.phrase.Plain) (ρ : Env) :
    (k.expand ρ).surface.phrase = k.phrase := by
  induction k with
  | star => rfl
  | var x => cases h
  | arrow j k hj hk => simp only [expand, Kind.surface, phrase, hj h.2.1, hk h.2.2]

theorem Kind.free_surface (k : Kind) (l : Level) : k.surface.free l = [] := by
  induction k with
  | star => rfl
  | arrow j k hj hk => simp only [surface, KindExpr.free, hj, hk, List.append_nil]

/-- The free names of the written type are the free variables of the type. -/
theorem Ty.mem_free_surface {t : Ty} {l : Level} {y : Name} (h : y ∈ t.surface.free l) :
    l = .type ∧ y ∈ t.freeVars := by
  induction t with
  | int => cases h
  | var x k =>
    rw [surface, TypeExpr.free] at h
    split at h
    · rename_i hl
      exact ⟨hl, h⟩
    · cases h
  | arrow s t k hs ht | app s t k hs ht =>
    rcases List.mem_append.1 h with h | h
    · exact ⟨(hs h).1, List.mem_append_left _ (hs h).2⟩
    · exact ⟨(ht h).1, List.mem_append_right _ (ht h).2⟩
  | bind b x xk t k ih =>
    rw [surface, TypeExpr.free, xk.free_surface, List.nil_append, mem_unbound] at h
    obtain ⟨rfl, hy⟩ := ih h.1
    have hne : y ≠ x := fun e => h.2 ⟨rfl, e⟩
    exact ⟨rfl, List.mem_filter.2 ⟨hy, by simpa using hne⟩⟩

theorem Ty.closed_surface {t : Ty} (h : t.freeVars = []) : t.surface.Closed := by
  refine fun l => List.eq_nil_iff_forall_not_mem.2 fun y hy => ?_
  have hfree := (mem_free_surface hy).2
  rw [h] at hfree
  cases hfree

/-! ## Skeletons of nameless types -/

/-- A reference in a type, as one in a phrase of any level. -/
def Ref.mark : Ref → Mark
  | bound i => .bound .type i
  | free x => .free .type x

theorem Ref.mark_shift (r : Ref) : r.shift.mark = r.mark.shift .type := by
  cases r <;> simp [shift, mark, Mark.shift]

theorem Ref.mark_close (x : Name) (r : Ref) : (r.close x).mark = r.mark.close .type x := by
  by_cases h : r = .free x
  · subst h
    rw [close_self]
    exact (Mark.close_self .type x).symm
  · have hm : r.mark ≠ .free .type x := by
      cases r with
      | bound i => exact Mark.noConfusion
      | free y => exact fun e => h (congrArg free (Mark.free.inj e).2)
    rw [close_of_ne h, Mark.close_of_ne hm, mark_shift]

theorem Ref.mark_injective {r s : Ref} (h : r.mark = s.mark) : r = s := by
  cases r <;> cases s <;> simp_all [mark]

/-- A kind without names. -/
def Kind.skeleton (k : Kind) : Skeleton := k.surface.phrase.skeleton

theorem Kind.skeleton_injective {j k : Kind} (h : j.skeleton = k.skeleton) : j = k := by
  induction j generalizing k with
  | star =>
    cases k with
    | star => rfl
    | arrow => cases h
  | arrow j₁ j₂ h₁ h₂ =>
    cases k with
    | star => cases h
    | arrow k₁ k₂ =>
      obtain ⟨-, e₁, e₂⟩ := Skeleton.pair.inj h
      rw [h₁ e₁, h₂ e₂]

/-- A kind has no references. -/
theorem Kind.rename_skeleton (k : Kind) (ζ : Mark → Mark) : k.skeleton.rename ζ = k.skeleton := by
  induction k with
  | star => rfl
  | arrow j k hj hk => exact congrArg₂ (Skeleton.pair .kindArrow) hj hk

namespace Nameless

/-- The skeleton of the types with this nameless form. -/
def skeleton : Nameless → Skeleton
  | int => .leaf .int
  | var r => .ref r.mark
  | arrow s t => .pair .typeArrow s.skeleton t.skeleton
  | bind b k t => .bind (.quantify b) k.skeleton t.skeleton
  | app f a => .pair .typeApp f.skeleton a.skeleton

/-- Nameless types are told apart by their trees. -/
theorem skeleton_injective {t u : Nameless} (h : t.skeleton = u.skeleton) : t = u := by
  induction t generalizing u with
  | int => cases u <;> first | rfl | cases h
  | var r =>
    cases u with
    | var r' => rw [Ref.mark_injective (Skeleton.ref.inj h)]
    | _ => cases h
  | arrow s t hs ht =>
    cases u with
    | arrow s' t' =>
      obtain ⟨-, es, et⟩ := Skeleton.pair.inj h
      rw [hs es, ht et]
    | app => simp [skeleton] at h
    | _ => cases h
  | bind b k t ih =>
    cases u with
    | bind b' k' t' =>
      obtain ⟨eb, ek, et⟩ := Skeleton.bind.inj h
      cases eb
      rw [Kind.skeleton_injective ek, ih et]
    | _ => cases h
  | app f a hf ha =>
    cases u with
    | app f' a' =>
      obtain ⟨-, ef, ea⟩ := Skeleton.pair.inj h
      rw [hf ef, ha ea]
    | arrow => simp [skeleton] at h
    | _ => cases h

theorem skeleton_rename {ξ : Ref → Ref} {ζ : Mark → Mark} (h : ∀ r, (ξ r).mark = ζ r.mark)
    (t : Nameless) : (t.rename ξ).skeleton = t.skeleton.rename ζ := by
  induction t generalizing ξ ζ with
  | int => rfl
  | var r => exact congrArg Skeleton.ref (h r)
  | arrow s t hs ht | app s t hs ht => simp only [rename, skeleton, Skeleton.rename, hs h, ht h]
  | bind b k t ih =>
    have hlift (r : Ref) : (Ref.lift ξ r).mark = Mark.lift .type ζ r.mark := by
      obtain rfl | ⟨r, rfl⟩ := r.zero_or_shift
      · exact (Mark.lift_self .type ζ).symm
      · rw [Ref.lift_shift, Ref.mark_shift, Ref.mark_shift, Mark.lift_shift, h]
    simp only [rename, skeleton, Skeleton.rename, ih hlift, k.rename_skeleton]
    rfl

end Nameless

/-- The tree of the written type is that of the nameless one. -/
theorem Ty.skeleton_surface (t : Ty) : t.surface.phrase.skeleton = t.nameless.skeleton := by
  induction t with
  | int | var => rfl
  | arrow s t k hs ht | app s t k hs ht =>
    simp only [surface, TypeExpr.phrase, Phrase.skeleton, nameless, Nameless.skeleton, hs, ht]
  | bind b x xk t k ih =>
    simp only [surface, TypeExpr.phrase, Phrase.skeleton, nameless, Nameless.skeleton, ih,
      Nameless.skeleton_rename (Ref.mark_close x)]
    rfl

/-- Types are equal up to bound names just in case their trees are equal. -/
theorem Ty.alphaEq_iff_skeleton_eq {s t : Ty} :
    s.AlphaEq t ↔ s.surface.phrase.skeleton = t.surface.phrase.skeleton := by
  rw [s.skeleton_surface, t.skeleton_surface]
  exact ⟨congrArg _, Nameless.skeleton_injective⟩

/-! ## Expansion -/

/-- The expansion of a plain type, where the names in scope stand for references. -/
theorem TypeExpr.skeleton_expand_rename {u : TypeExpr} (h : u.phrase.Plain) {ρ : Env}
    {ζ : Mark → Mark} (hρ : ∀ x, (ρ.types x).skeleton = .ref (ζ (.free .type x))) :
    (u.expand ρ).skeleton = u.phrase.skeleton.rename ζ := by
  have hkind {k : KindExpr} (hk : k.phrase.Plain) (ρ : Env) (ζ : Mark → Mark) :
      (k.expand ρ).skeleton = k.phrase.skeleton.rename ζ := by
    have hself : (k.expand ρ).skeleton = k.phrase.skeleton :=
      congrArg Phrase.skeleton (k.surface_expand hk ρ)
    rw [← hself, Kind.rename_skeleton]
  induction u generalizing ρ ζ with
  | int => rfl
  | var x => exact hρ x.name
  | arrow s t hs ht | app s t hs ht =>
    simp only [expand, Nameless.skeleton, phrase, Phrase.skeleton, Skeleton.rename, hs h.2.1 hρ,
      ht h.2.2 hρ]
  | bind b x k t ih =>
    have hbody (y : Name) : ((ρ.bindType x.name).types y).skeleton =
        .ref ((Mark.lift .type ζ ∘ Mark.close .type x.name) (.free .type y)) := by
      by_cases hy : y = x.name
      · subst hy
        simp [Env.bindType, Nameless.skeleton, Ref.mark]
      · have hne : Mark.free .type y ≠ .free .type x.name := fun e => hy (Mark.free.inj e).2
        have hshift := Nameless.skeleton_rename Ref.mark_shift (ρ.types y)
        rw [Function.comp_apply, Mark.close_of_ne hne, Mark.lift_shift]
        simp only [Env.bindType, Function.update_of_ne hy, Nameless.shift, hshift, hρ,
          Skeleton.rename]
    simp only [expand, Nameless.skeleton, phrase, Phrase.skeleton, Skeleton.rename, ih h.2 hbody,
      hkind h.1 ρ ζ, Skeleton.close, Skeleton.rename_rename]
    rfl
  | kinded t k => exact absurd rfl h.1

/-- A type without definitions means its own tree. -/
theorem TypeExpr.skeleton_expand {u : TypeExpr} (h : u.phrase.Plain) :
    (u.expand Env.empty).skeleton = u.phrase.skeleton := by
  have hself := skeleton_expand_rename h (ρ := Env.empty) (ζ := id) fun _ => rfl
  rwa [Skeleton.rename_id] at hself

end SystemFOmega
