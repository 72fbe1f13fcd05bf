import Mathlib.Logic.Equiv.Basic
import SystemFOmega.Proofs.Core.Equiv
import SystemFOmega.Proofs.Core.Normalize
import SystemFOmega.Proofs.Core.Substitution

/-!
# The numbers of fresh names

A binder that is renamed gets the number at which the counter stands. Runs that start from different
counters therefore give types that differ in such numbers, but in nothing else: there is one
permutation of names that takes all of the first run to the second (`Relabeling`). It keeps display
names and all names with numbers below a bound, which are those of the program.

The two runs are looked at side by side. Each time they take a fresh name the permutation is changed
so that it takes the one to the other (`Relabeling.extend`), which does no harm because neither has
been in use. In this way substitution (`Ty.subst_relabel`) and normalization
(`Ty.normalizeFrom_relabel`) go in step.

Types that are the same up to such a permutation (`Ty.Twin`) are alpha-equivalent, print alike, and
conform to the same types.
-/

namespace SystemFOmega

namespace Ty

/-- The type with its names changed by `f`, bound ones and free ones. -/
@[grind]
def mapNames (f : Name → Name) : Ty → Ty
  | .int k => .int k
  | .var x k => .var (f x) k
  | .arrow s t k => .arrow (s.mapNames f) (t.mapNames f) k
  | .bind b x xk t k => .bind b (f x) xk (t.mapNames f) k
  | .app g a k => .app (g.mapNames f) (a.mapNames f) k

variable {f g : Name → Name} {t : Ty}

theorem names_mapNames (f : Name → Name) (t : Ty) : (t.mapNames f).names = t.names.map f := by
  induction t with
  | int k => rfl
  | var x k => rfl
  | arrow s t k hs ht | app s t k hs ht => simp [mapNames, names, hs, ht]
  | bind b x xk t k ht => simp [mapNames, names, ht]

/-- Only the names in a type matter. -/
theorem mapNames_congr (h : ∀ x ∈ t.names, f x = g x) : t.mapNames f = t.mapNames g := by
  induction t with
  | int k => rfl
  | var x k => simp only [mapNames, h x (List.mem_singleton_self _)]
  | arrow s t k hs ht | app s t k hs ht =>
    simp only [names, List.forall_mem_append] at h
    simp only [mapNames, hs h.1, ht h.2]
  | bind b x xk t k ht =>
    simp only [names, List.forall_mem_cons] at h
    simp only [mapNames, h.1, ht h.2]

theorem mapNames_id (t : Ty) : t.mapNames id = t := by
  induction t with
  | int k => rfl
  | var x k => rfl
  | arrow s t k hs ht | app s t k hs ht => rw [mapNames, hs, ht]
  | bind b x xk t k ht => rw [mapNames, ht, id]

theorem mapNames_eq_self (h : ∀ x ∈ t.names, f x = x) : t.mapNames f = t :=
  (mapNames_congr h).trans (mapNames_id t)

/-- The kind at the root has no names. -/
@[simp] theorem withKind_mapNames (f : Name → Name) (k : Kind) (t : Ty) :
    (t.withKind k).mapNames f = (t.mapNames f).withKind k := by
  cases t <;> rfl

theorem names_withKind (k : Kind) (t : Ty) : (t.withKind k).names = t.names := by
  cases t <;> rfl

/-- The text of a type shows no numbers. -/
theorem print_mapNames (hf : ∀ x, (f x).value = x.value) (t : Ty) :
    (t.mapNames f).print = t.print := by
  have hopen (t : Ty) : (t.mapNames f).isOpen = t.isOpen := by cases t <;> rfl
  have hhead (t : Ty) : (t.mapNames f).isHead = t.isHead := by cases t <;> rfl
  have hword (t : Ty) : (t.mapNames f).isWord = t.isWord := by cases t <;> rfl
  induction t with
  | int k => rfl
  | var x k => exact hf x
  | arrow s t k hs ht => rw [mapNames, print, print, hopen, hs, ht]
  | bind b x xk t k ht => rw [mapNames, print, print, hf, ht]
  | app g a k hg ha => rw [mapNames, print, print, hhead, hword, hg, ha]

section Injective

variable (hf : Function.Injective f)
include hf

/-- If no two names are confused, the free names of a relabeled type are those of the type,
relabeled. -/
theorem freeVars_mapNames (t : Ty) : (t.mapNames f).freeVars = t.freeVars.map f := by
  induction t with
  | int k => rfl
  | var x k => rfl
  | arrow s t k hs ht | app s t k hs ht => simp [mapNames, freeVars, hs, ht]
  | bind b x xk t k ht =>
    rw [mapNames, freeVars, freeVars, ht, List.filter_map]
    congr 2
    funext y
    simp [hf.eq_iff]

theorem mem_freeVars_mapNames {x : Name} (t : Ty) :
    f x ∈ (t.mapNames f).freeVars ↔ x ∈ t.freeVars := by
  simp [freeVars_mapNames hf, hf.eq_iff]

/-- A name that is changed to another one is relabeled to a name that is changed to another one. -/
theorem rename_mapNames (x y : Name) (k : Kind) (t : Ty) :
    (t.rename x y k).mapNames f = (t.mapNames f).rename (f x) (f y) k := by
  induction t with
  | int l => rfl
  | var z l => by_cases h : z = x <;> simp [rename, mapNames, h, hf.eq_iff]
  | arrow s t l hs ht | app s t l hs ht => simp only [rename, mapNames, hs, ht]
  | bind b z zk t l ht => by_cases h : z = x <;> simp [rename, mapNames, h, hf.eq_iff, ht]

end Injective

theorem names_rename (x y : Name) (k : Kind) (t : Ty) : (t.rename x y k).names ⊆ y :: t.names := by
  induction t with
  | int l => exact List.nil_subset _
  | var z l =>
    by_cases h : z = x
    · simp [rename, names, h]
    · simp [rename, names, h]
  | arrow s t l hs ht | app s t l hs ht =>
    intro z hz
    rcases List.mem_append.1 hz with hz | hz
    · exact (List.mem_cons.1 (hs hz)).elim (fun e => e ▸ List.mem_cons_self)
        fun h => .tail _ (List.mem_append_left _ h)
    · exact (List.mem_cons.1 (ht hz)).elim (fun e => e ▸ List.mem_cons_self)
        fun h => .tail _ (List.mem_append_right _ h)
  | bind b z zk t l ht =>
    by_cases h : z = x
    · simp [rename, names, h]
    · intro w hw
      rw [rename, if_neg h] at hw
      rcases List.mem_cons.1 hw with rfl | hw
      · exact .tail _ List.mem_cons_self
      · exact (List.mem_cons.1 (ht hw)).elim (fun e => e ▸ List.mem_cons_self)
          fun h => .tail _ (.tail _ h)

/-- All numbers in the type are below `c`. -/
def Below (c : Int) (t : Ty) : Prop := ∀ x ∈ t.names, x.id < c

theorem Below.mono {c c' : Int} (h : t.Below c) (hc : c ≤ c') : t.Below c' :=
  fun x hx => Int.lt_of_lt_of_le (h x hx) hc

end Ty

/-- A counter that is above all numbers is the next number. -/
theorem Name.above_eq {c : Int} {xs : List Name} (h : ∀ x ∈ xs, x.id < c) :
    Name.above c xs = c := by
  induction xs with
  | nil => rfl
  | cons x xs ih =>
    rw [List.forall_mem_cons] at h
    have hmax : max c (x.id + 1) = c := by omega
    rw [Name.above, List.foldl_cons, hmax]
    exact ih h.2

/-! ## Relabelings -/

/-- A permutation of names that keeps display names, and all names with numbers below `b`, together
with the counters of two runs, of which the second has the permuted names. -/
structure Relabeling (b : Int) where
  perm : Equiv.Perm Name
  left : Int
  right : Int
  value (x : Name) : (perm x).value = x.value
  fixed {x : Name} : x.id < b → perm x = x
  le_left : b ≤ left
  le_right : b ≤ right

namespace Relabeling

variable {b : Int} {ρ σ τ : Relabeling b} {t u : Ty} {x : Name}

/-- The name is in use in both runs. -/
def Covers (ρ : Relabeling b) (x : Name) : Prop := x.id < ρ.left ∧ (ρ.perm x).id < ρ.right

/-- The later relabeling does the same to all names that are in use. -/
structure Le (ρ σ : Relabeling b) : Prop where
  left : ρ.left ≤ σ.left
  right : ρ.right ≤ σ.right
  perm {x : Name} : ρ.Covers x → σ.perm x = ρ.perm x

theorem Le.refl (ρ : Relabeling b) : ρ.Le ρ := ⟨Int.le_refl _, Int.le_refl _, fun _ => rfl⟩

/-- A name that has been taken stays so. -/
theorem Le.covers (h : ρ.Le σ) (hx : ρ.Covers x) : σ.Covers x := by
  refine ⟨Int.lt_of_lt_of_le hx.1 h.left, ?_⟩
  rw [h.perm hx]
  exact Int.lt_of_lt_of_le hx.2 h.right

theorem Le.trans (h : ρ.Le σ) (h' : σ.Le τ) : ρ.Le τ :=
  ⟨Int.le_trans h.left h'.left, Int.le_trans h.right h'.right,
    fun hx => (h'.perm (h.covers hx)).trans (h.perm hx)⟩

/-- In the two runs, `t` and `u` are the same type. -/
structure Maps (ρ : Relabeling b) (t u : Ty) : Prop where
  covers {x : Name} : x ∈ t.names → ρ.Covers x
  eq : u = t.mapNames ρ.perm

/-- What an earlier relabeling does to a type, a later one does as well. -/
theorem Maps.mono (h : ρ.Maps t u) (hle : ρ.Le σ) : σ.Maps t u := by
  refine ⟨fun hx => hle.covers (h.covers hx), h.eq.trans (Ty.mapNames_congr fun x hx => ?_)⟩
  exact (hle.perm (h.covers hx)).symm

/-- A name of a run has a number from `b` on only if it has one in the other run. -/
theorem le_of_le (ρ : Relabeling b) (h : b ≤ x.id) : b ≤ (ρ.perm x).id := by
  by_contra hlt
  have hfix := ρ.fixed (x := ρ.perm x) (by omega)
  rw [ρ.perm.injective hfix] at hlt
  omega

/-- Both runs take a fresh name with the display name `v`. -/
def extend (ρ : Relabeling b) (v : String) : Relabeling b where
  perm := ρ.perm.trans (Equiv.swap (ρ.perm ⟨v, ρ.left⟩) ⟨v, ρ.right⟩)
  left := ρ.left + 1
  right := ρ.right + 1
  value x := by
    have hv := ρ.value ⟨v, ρ.left⟩
    rw [Equiv.trans_apply, Equiv.swap_apply_def]
    split
    · rename_i h
      rw [← ρ.value x, h, hv]
    · split
      · rename_i h
        rw [← ρ.value x, h, hv]
      · exact ρ.value x
  fixed {x} hx := by
    have hl := ρ.le_of_le (x := ⟨v, ρ.left⟩) ρ.le_left
    have hr := ρ.le_right
    rw [Equiv.trans_apply, ρ.fixed hx]
    refine Equiv.swap_apply_of_ne_of_ne ?_ ?_
    · rintro rfl
      omega
    · rintro rfl
      simp only at hx
      omega
  le_left := by have := ρ.le_left; omega
  le_right := by have := ρ.le_right; omega

/-- The fresh names of both runs correspond from now on. -/
theorem extend_fresh (ρ : Relabeling b) (v : String) :
    (ρ.extend v).perm ⟨v, ρ.left⟩ = ⟨v, ρ.right⟩ :=
  Equiv.swap_apply_left _ _

/-- Fresh names change nothing for those that have been taken. -/
theorem le_extend (ρ : Relabeling b) (v : String) : ρ.Le (ρ.extend v) := by
  refine ⟨Int.le_add_one (Int.le_refl _), Int.le_add_one (Int.le_refl _), fun {x} hx => ?_⟩
  refine Equiv.swap_apply_of_ne_of_ne (fun h => ?_) fun h => ?_
  · have hid := hx.1
    rw [ρ.perm.injective h] at hid
    exact absurd hid (Int.lt_irrefl _)
  · have hid := hx.2
    rw [h] at hid
    exact absurd hid (Int.lt_irrefl _)

theorem covers_fresh (ρ : Relabeling b) (v : String) : (ρ.extend v).Covers ⟨v, ρ.left⟩ := by
  unfold Covers
  rw [extend_fresh]
  exact ⟨Int.lt_add_one_iff.2 (Int.le_refl _), Int.lt_add_one_iff.2 (Int.le_refl _)⟩

namespace Maps

theorem int (ρ : Relabeling b) (k : Kind) : ρ.Maps (.int k) (.int k) :=
  ⟨fun hx => (by cases hx), rfl⟩

theorem arrow {t' u' : Ty} (ht : ρ.Maps t t') (hu : ρ.Maps u u') (k : Kind) :
    ρ.Maps (.arrow t u k) (.arrow t' u' k) :=
  ⟨fun hx => (List.mem_append.1 hx).elim ht.covers hu.covers, by rw [ht.eq, hu.eq, Ty.mapNames]⟩

theorem app {t' u' : Ty} (ht : ρ.Maps t t') (hu : ρ.Maps u u') (k : Kind) :
    ρ.Maps (.app t u k) (.app t' u' k) :=
  ⟨fun hx => (List.mem_append.1 hx).elim ht.covers hu.covers, by rw [ht.eq, hu.eq, Ty.mapNames]⟩

theorem bind {t' : Ty} (hx : ρ.Covers x) (ht : ρ.Maps t t') (b : Binder) (xk k : Kind) :
    ρ.Maps (.bind b x xk t k) (.bind b (ρ.perm x) xk t' k) := by
  refine ⟨fun hy => ?_, by rw [ht.eq, Ty.mapNames]⟩
  rcases List.mem_cons.1 hy with rfl | hy
  · exact hx
  · exact ht.covers hy

theorem arrow_inv {s v : Ty} {k : Kind} (h : ρ.Maps (.arrow s t k) v) :
    ∃ s' t', v = .arrow s' t' k ∧ ρ.Maps s s' ∧ ρ.Maps t t' :=
  ⟨_, _, h.eq, ⟨fun hx => h.covers (List.mem_append_left _ hx), rfl⟩,
    fun hx => h.covers (List.mem_append_right _ hx), rfl⟩

theorem app_inv {s v : Ty} {k : Kind} (h : ρ.Maps (.app s t k) v) :
    ∃ s' t', v = .app s' t' k ∧ ρ.Maps s s' ∧ ρ.Maps t t' :=
  ⟨_, _, h.eq, ⟨fun hx => h.covers (List.mem_append_left _ hx), rfl⟩,
    fun hx => h.covers (List.mem_append_right _ hx), rfl⟩

theorem bind_inv {v : Ty} {b' : Binder} {xk k : Kind} (h : ρ.Maps (.bind b' x xk t k) v) :
    ∃ t', v = .bind b' (ρ.perm x) xk t' k ∧ ρ.Covers x ∧ ρ.Maps t t' :=
  ⟨_, h.eq, h.covers List.mem_cons_self, fun hx => h.covers (.tail _ hx), rfl⟩

theorem withKind (h : ρ.Maps t u) (k : Kind) : ρ.Maps (t.withKind k) (u.withKind k) := by
  refine ⟨fun hx => h.covers (by rwa [Ty.names_withKind] at hx), ?_⟩
  rw [Ty.withKind_mapNames, h.eq]

/-- Free names correspond to free names. -/
theorem mem_freeVars (h : ρ.Maps t u) : ρ.perm x ∈ u.freeVars ↔ x ∈ t.freeVars := by
  rw [h.eq, Ty.mem_freeVars_mapNames ρ.perm.injective]

theorem below_left (h : ρ.Maps t u) : t.Below ρ.left := fun _ hx => (h.covers hx).1

theorem below_right (h : ρ.Maps t u) : u.Below ρ.right := by
  intro y hy
  rw [h.eq, Ty.names_mapNames] at hy
  obtain ⟨x, hx, rfl⟩ := List.mem_map.1 hy
  exact (h.covers hx).2

/-- Both runs give a binder a fresh name. -/
theorem fresh {y : Name} (h : ρ.Maps t u) (hy : ρ.Covers y) (yk : Kind) :
    (ρ.extend y.value).Maps (t.rename y ⟨y.value, ρ.left⟩ yk)
      (u.rename (ρ.perm y) ⟨y.value, ρ.right⟩ yk) := by
  have hle := ρ.le_extend y.value
  refine ⟨fun hx => ?_, ?_⟩
  · rcases List.mem_cons.1 (Ty.names_rename _ _ _ _ hx) with rfl | hx
    · exact ρ.covers_fresh y.value
    · exact hle.covers (h.covers hx)
  · rw [Ty.rename_mapNames (Equiv.injective _), extend_fresh, hle.perm hy, ← (h.mono hle).eq]

end Maps

end Relabeling

open Relabeling (Maps)

namespace Ty

/-! ## Substitution -/

variable {b : Int}

/-- Substitutions in two runs give the same type, and the runs go on together. -/
theorem subst_relabel {ρ : Relabeling b} {t t' r r' : Ty} {x : Name} (ht : ρ.Maps t t')
    (hr : ρ.Maps r r') (hx : ρ.Covers x) :
    ∃ σ : Relabeling b, ρ.Le σ ∧ (t.subst x r ρ.left).2 = σ.left ∧
      (t'.subst (ρ.perm x) r' ρ.right).2 = σ.right ∧
      σ.Maps (t.subst x r ρ.left).1 (t'.subst (ρ.perm x) r' ρ.right).1 := by
  -- a renamed body is no part of the type but has the size of one
  induction h : t.size using Nat.strongRecOn generalizing t t' ρ with
  | _ n ih =>
    subst h
    cases t with
    | int k =>
      obtain rfl := ht.eq
      rw [mapNames, subst, subst]
      exact ⟨ρ, .refl ρ, rfl, rfl, .int ρ k⟩
    | var y k =>
      obtain rfl := ht.eq
      refine ⟨ρ, .refl ρ, by simp [subst], by simp [subst, mapNames], ?_⟩
      by_cases hyx : y = x
      · simpa [subst, mapNames, hyx] using hr
      · simpa [subst, mapNames, hyx] using ht
    | arrow s t k =>
      obtain ⟨s', t', rfl, hs, ht⟩ := ht.arrow_inv
      obtain ⟨σ, hle, hl, hrt, hs⟩ := ih s.size (by simp only [size]; omega) hs hr hx rfl
      obtain ⟨τ, hle', hl', hrt', ht⟩ :=
        ih t.size (by simp only [size]; omega) (ht.mono hle) (hr.mono hle) (hle.covers hx) rfl
      rw [hle.perm hx] at hrt' ht
      rw [subst, subst, hl, hrt]
      exact ⟨τ, hle.trans hle', hl', hrt', (hs.mono hle').arrow ht k⟩
    | app f a k =>
      obtain ⟨f', a', rfl, hf, ha⟩ := ht.app_inv
      obtain ⟨σ, hle, hl, hrt, hf⟩ := ih f.size (by simp only [size]; omega) hf hr hx rfl
      obtain ⟨τ, hle', hl', hrt', ha⟩ :=
        ih a.size (by simp only [size]; omega) (ha.mono hle) (hr.mono hle) (hle.covers hx) rfl
      rw [hle.perm hx] at hrt' ha
      rw [subst, subst, hl, hrt]
      exact ⟨τ, hle.trans hle', hl', hrt', (hf.mono hle').app ha k⟩
    | bind b' y yk body k =>
      have hbind := ht
      obtain ⟨body', rfl, hy, hbody⟩ := ht.bind_inv
      have hinj : ρ.perm y = ρ.perm x ↔ y = x := ρ.perm.injective.eq_iff
      have hcap : ρ.perm y ∈ r'.freeVars ∧ ρ.perm x ∈ body'.freeVars ↔
          y ∈ r.freeVars ∧ x ∈ body.freeVars := and_congr hr.mem_freeVars hbody.mem_freeVars
      rw [subst, subst]
      by_cases hyx : y = x
      · rw [if_pos hyx, if_pos (hinj.2 hyx)]
        exact ⟨ρ, .refl ρ, rfl, rfl, hbind⟩
      rw [if_neg hyx, if_neg fun e => hyx (hinj.1 e)]
      by_cases hc : y ∈ r.freeVars ∧ x ∈ body.freeVars
      · -- both runs rename the binder, each to its next number
        rw [if_pos hc, if_pos (hcap.2 hc)]
        have hl : Name.above ρ.left (body.names ++ r.names) = ρ.left :=
          Name.above_eq (List.forall_mem_append.2 ⟨hbody.below_left, hr.below_left⟩)
        have hr' : Name.above ρ.right (body'.names ++ r'.names) = ρ.right :=
          Name.above_eq (List.forall_mem_append.2 ⟨hbody.below_right, hr.below_right⟩)
        have hle := ρ.le_extend y.value
        obtain ⟨σ, hle', hleft, hright, hm⟩ := ih body.size (by simp [size]) (hbody.fresh hy yk)
          (hr.mono hle) (hle.covers hx) (by simp)
        rw [hle.perm hx] at hright hm
        rw [hl, hr', ρ.value]
        refine ⟨σ, hle.trans hle', hleft, hright, ?_⟩
        have hfresh := hm.bind (hle'.covers (ρ.covers_fresh y.value)) b' yk k
        rwa [hle'.perm (ρ.covers_fresh y.value), ρ.extend_fresh] at hfresh
      · rw [if_neg hc, if_neg fun h => hc (hcap.1 h)]
        obtain ⟨σ, hle, hleft, hright, hm⟩ := ih body.size (by simp [size]) hbody hr hx rfl
        refine ⟨σ, hle, hleft, hright, ?_⟩
        have hsame := hm.bind (hle.covers hy) b' yk k
        rwa [hle.perm hy] at hsame

end Ty

/-! ## Normalization -/

namespace Relabeling

variable {b : Int} {ρ σ : Relabeling b} {s s' : Normalizer} {t t' : Ty}

/-- The two runs have the same fuel and the counters of the relabeling. -/
structure Syncs (ρ : Relabeling b) (s s' : Normalizer) : Prop where
  left : s.supply = ρ.left
  right : s'.supply = ρ.right
  remaining : s.remaining = s'.remaining

/-- The two runs end with the same type, and may go on together. -/
def Together (ρ : Relabeling b) (t : Ty) (s : Normalizer) (t' : Ty) (s' : Normalizer) : Prop :=
  ∃ σ : Relabeling b, ρ.Le σ ∧ σ.Syncs s s' ∧ σ.Maps t t'

/-- Two runs that have been together from a later relabeling on have been so from an earlier
one on. -/
theorem Together.after (h : σ.Together t s t' s') (hle : ρ.Le σ) : ρ.Together t s t' s' := by
  obtain ⟨τ, hle', hs, ht⟩ := h
  exact ⟨τ, hle.trans hle', hs, ht⟩

end Relabeling

namespace Ty

open Run

variable {b : Int} {ρ : Relabeling b} {s s' : Normalizer} {t t' : Ty}

/-- Both runs spend the same fuel. -/
theorem spend_relabel (hs : ρ.Syncs s s') :
    Pairs spend s spend s' (fun _ s₁ _ s₁' => ρ.Syncs s₁ s₁') Eq := by
  obtain ⟨fuel, c⟩ := s
  obtain ⟨fuel', c'⟩ := s'
  obtain ⟨hl, hr, rfl⟩ := hs
  cases fuel with
  | none => exact .ok rfl rfl ⟨hl, hr, rfl⟩
  | some n =>
    by_cases h : n ≤ 0
    · exact .error ((spend_some n c).trans (if_pos h)) ((spend_some n c').trans (if_pos h)) rfl
    · exact .ok ((spend_some n c).trans (if_neg h)) ((spend_some n c').trans (if_neg h))
        ⟨hl, hr, rfl⟩

/-- Both runs contract the same redex. -/
theorem contract_relabel {x : Name} {body body' a a' : Ty} (k : Kind) (hs : ρ.Syncs s s')
    (hx : ρ.Covers x) (hbody : ρ.Maps body body') (ha : ρ.Maps a a') :
    Pairs (contract x body a k) s (contract (ρ.perm x) body' a' k) s' ρ.Together Eq := by
  refine .bind (spend_relabel hs) fun _ s₁ _ s₁' hs₁ => ?_
  obtain ⟨σ, hle, hl, hr, hm⟩ := subst_relabel hbody ha hx
  rw [← hs₁.left] at hl hm
  rw [← hs₁.right] at hr hm
  exact .ok rfl rfl ⟨σ, hle, ⟨hl, hr, hs₁.remaining⟩, hm.withKind k⟩

/-- Both runs of weak head reduction stay together. -/
theorem weakHead_relabel (d : Nat) (hs : ρ.Syncs s s') (ht : ρ.Maps t t') :
    Pairs (weakHead d t) s (weakHead d t') s' ρ.Together Eq := by
  induction d generalizing ρ t t' s s' with
  | zero =>
    cases t with
    | app f a k =>
      obtain ⟨f', a', rfl, -, -⟩ := ht.app_inv
      exact .throw rfl
    | _ =>
      obtain rfl := ht.eq
      exact .pure ⟨ρ, .refl ρ, hs, ht⟩
  | succ d ih =>
    cases t with
    | app f a k =>
      obtain ⟨f', a', rfl, hf, ha⟩ := ht.app_inv
      refine .bind (spend_relabel hs) fun _ s₁ _ s₁' hs₁ => ?_
      refine .bind (ih hs₁ hf) fun g s₂ g' s₂' h => ?_
      obtain ⟨σ, hle, hs₂, hg⟩ := h
      have ha := ha.mono hle
      have hdone : ρ.Together (.app g a k) s₂ (.app g' a' k) s₂' := ⟨σ, hle, hs₂, hg.app ha k⟩
      cases g with
      | bind b x xk body l =>
        obtain ⟨body', rfl, hx, hbody⟩ := hg.bind_inv
        cases b with
        | all => exact .pure hdone
        | lam =>
          -- the contraction may take new names, for which the relabeling is extended
          refine .bind (contract_relabel k hs₂ hx hbody ha) fun r s₃ r' s₃' h => ?_
          obtain ⟨τ, hle', hs₃, hr⟩ := h
          exact (ih hs₃ hr).mono (fun _ _ _ _ h => h.after (hle.trans hle')) fun _ _ h => h
      | _ =>
        obtain rfl := hg.eq
        exact .pure hdone
    | _ =>
      obtain rfl := ht.eq
      exact .pure ⟨ρ, .refl ρ, hs, ht⟩

/-- Both runs go into the parts of a type together. -/
theorem visit_relabel {go : Ty → Normalize Ty}
    (hgo : ∀ {ρ : Relabeling b} {s s' t t'}, ρ.Syncs s s' → ρ.Maps t t' →
      Pairs (go t) s (go t') s' ρ.Together Eq)
    (hs : ρ.Syncs s s') (ht : ρ.Maps t t') :
    Pairs (visit go t) s (visit go t') s' ρ.Together Eq := by
  cases t with
  | int k =>
    obtain rfl := ht.eq
    exact .pure ⟨ρ, .refl ρ, hs, ht⟩
  | var x k =>
    obtain rfl := ht.eq
    exact .pure ⟨ρ, .refl ρ, hs, ht⟩
  | arrow u v k =>
    obtain ⟨u', v', rfl, hu, hv⟩ := ht.arrow_inv
    refine .bind (hgo hs hu) fun _ s₁ _ s₁' h => ?_
    obtain ⟨σ, hle, hs₁, hu⟩ := h
    refine .bind (hgo hs₁ (hv.mono hle)) fun _ s₂ _ s₂' h => ?_
    obtain ⟨τ, hle', hs₂, hv⟩ := h
    exact .pure ⟨τ, hle.trans hle', hs₂, (hu.mono hle').arrow hv k⟩
  | bind b x xk v k =>
    obtain ⟨v', rfl, hx, hv⟩ := ht.bind_inv
    refine .bind (hgo hs hv) fun _ s₁ _ s₁' h => ?_
    obtain ⟨σ, hle, hs₁, hv⟩ := h
    have hbind := hv.bind (hle.covers hx) b xk k
    rw [hle.perm hx] at hbind
    exact .pure ⟨σ, hle, hs₁, hbind⟩
  | app f a k =>
    obtain ⟨f', a', rfl, hf, ha⟩ := ht.app_inv
    refine .bind (hgo hs hf) fun g s₁ g' s₁' h => ?_
    obtain ⟨σ, hle, hs₁, hg⟩ := h
    refine .bind (hgo hs₁ (ha.mono hle)) fun c s₂ c' s₂' h => ?_
    obtain ⟨τ, hle', hs₂, hc⟩ := h
    have hg := hg.mono hle'
    have hle := hle.trans hle'
    have hdone : ρ.Together (.app g c k) s₂ (.app g' c' k) s₂' := ⟨τ, hle, hs₂, hg.app hc k⟩
    cases g with
    | bind b x xk body l =>
      obtain ⟨body', rfl, hx, hbody⟩ := hg.bind_inv
      cases b with
      | all => exact .pure hdone
      | lam =>
        refine .bind (contract_relabel k hs₂ hx hbody hc) fun r s₃ r' s₃' h => ?_
        obtain ⟨υ, hle'', hs₃, hr⟩ := h
        exact (hgo hs₃ hr).mono (fun _ _ _ _ h => h.after (hle.trans hle'')) fun _ _ h => h
    | _ =>
      obtain rfl := hg.eq
      exact .pure hdone

/-- Two runs on the same type use the same fuel and end in the same way. -/
theorem normalizeFrom_relabel (o : Order) (d : Nat) (hs : ρ.Syncs s s') (ht : ρ.Maps t t') :
    Pairs (normalizeFrom o d t) s (normalizeFrom o d t') s' ρ.Together Eq := by
  induction d generalizing ρ t t' s s' with
  | zero => exact .throw rfl
  | succ d ih =>
    refine .bind (spend_relabel hs) fun _ s₁ _ s₁' hs₁ => ?_
    cases o with
    | normal =>
      refine .bind (weakHead_relabel d hs₁ ht) fun u s₂ u' s₂' h => ?_
      obtain ⟨σ, hle, hs₂, hu⟩ := h
      exact (visit_relabel ih hs₂ hu).mono (fun _ _ _ _ h => h.after hle) fun _ _ h => h
    | applicative => exact visit_relabel ih hs₁ ht

end Ty

end SystemFOmega
