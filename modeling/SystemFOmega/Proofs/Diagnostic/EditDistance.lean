import Mathlib.Order.Bounds.Defs
import SystemFOmega.Diagnostic.Similar

/-!
# The edit distance counts edits

An edit puts one character in, takes one out or replaces one (`Edit`). The edit distance of two
texts is the least number of edits that lead from one to the other (`editDistance_isLeast`).

The rows that the distance is computed by hold the values of a recursion on the first characters of
both texts, `distance`, which is read from the ends of the texts (`rowDistance_eq`). By this
recursion there are as many edits as it says (`edits_distance`), and one edit changes the distance
to a third text by at most one (`Edit.distance_le`). From the edits come the laws of a metric:
they can be undone, and they can be put one after the other.
-/

namespace SystemFOmega

variable {s t u : List Char} {c d : Char} {m n : Nat}

/-! ## Edits -/

/-- A character comes in, goes away or is replaced. -/
inductive Edit : List Char → List Char → Prop
  | insert (u v : List Char) (c : Char) : Edit (u ++ v) (u ++ c :: v)
  | delete (u v : List Char) (c : Char) : Edit (u ++ c :: v) (u ++ v)
  | replace (u v : List Char) (c d : Char) : Edit (u ++ c :: v) (u ++ d :: v)

/-- So many edits, one after the other. -/
inductive Edits : Nat → List Char → List Char → Prop
  | refl (s : List Char) : Edits 0 s s
  | step {n : Nat} {s t u : List Char} : Edit s t → Edits n t u → Edits (n + 1) s u

namespace Edit

theorem symm (h : Edit s t) : Edit t s := by
  cases h with
  | insert u v c => exact .delete u v c
  | delete u v c => exact .insert u v c
  | replace u v c d => exact .replace u v d c

theorem cons (h : Edit s t) (c : Char) : Edit (c :: s) (c :: t) := by
  cases h with
  | insert u v d => exact .insert (c :: u) v d
  | delete u v d => exact .delete (c :: u) v d
  | replace u v d e => exact .replace (c :: u) v d e

theorem reverse (h : Edit s t) : Edit s.reverse t.reverse := by
  cases h <;> simp only [List.reverse_append, List.reverse_cons, List.append_assoc,
    List.singleton_append]
  · exact .insert _ _ _
  · exact .delete _ _ _
  · exact .replace _ _ _ _

end Edit

namespace Edits

theorem trans (h : Edits m s t) (h' : Edits n t u) : Edits (m + n) s u := by
  induction h with
  | refl s => rwa [Nat.zero_add]
  | step he _ ih =>
    rw [Nat.add_right_comm]
    exact .step he (ih h')

theorem symm (h : Edits n s t) : Edits n t s := by
  induction h with
  | refl s => exact .refl s
  | step he _ ih => exact ih.trans (.step he.symm (.refl _))

theorem cons (h : Edits n s t) (c : Char) : Edits n (c :: s) (c :: t) := by
  induction h with
  | refl s => exact .refl _
  | step he _ ih => exact .step (he.cons c) ih

theorem reverse (h : Edits n s t) : Edits n s.reverse t.reverse := by
  induction h with
  | refl s => exact .refl _
  | step he _ ih => exact .step he.reverse ih

theorem reverse_iff : Edits n s.reverse t.reverse ↔ Edits n s t := by
  refine ⟨fun h => ?_, reverse⟩
  have h := h.reverse
  rwa [List.reverse_reverse, List.reverse_reverse] at h

theorem zero_iff : Edits 0 s t ↔ s = t := by
  constructor
  · intro h
    cases h
    rfl
  · rintro rfl
    exact .refl s

theorem min (h : Edits m s t) (h' : Edits n s t) : Edits (min m n) s t := by
  rcases Nat.le_total m n with hle | hle
  · rwa [Nat.min_eq_left hle]
  · rwa [Nat.min_eq_right hle]

/-- All characters come in, the first one first. -/
theorem insert_all (t : List Char) : Edits t.length [] t := by
  induction t with
  | nil => exact .refl []
  | cons d t ih => exact .step (.insert [] [] d) (ih.cons d)

/-- All characters go away, the first one first. -/
theorem delete_all (s : List Char) : Edits s.length s [] := by
  induction s with
  | nil => exact .refl []
  | cons c s ih => exact .step (.delete [] s c) ih

end Edits

/-! ## The distance by a recursion -/

/-- The distance of two texts by what happens to their first characters: that of the first text goes
away, that of the second comes in, or the one becomes the other. -/
def distance : List Char → List Char → Nat
  | [], t => t.length
  | s, [] => s.length
  | c :: s, d :: t =>
    min (min (distance s (d :: t) + 1) (distance (c :: s) t + 1))
      (distance s t + if c = d then 0 else 1)
termination_by s t => s.length + t.length

theorem distance_nil_left (t : List Char) : distance [] t = t.length := by
  rw [distance]

theorem distance_nil_right (s : List Char) : distance s [] = s.length := by
  cases s with
  | nil => rw [distance]
  | cons c s => rw [distance]; simp

theorem distance_cons (c d : Char) (s t : List Char) : distance (c :: s) (d :: t) =
    min (min (distance s (d :: t) + 1) (distance (c :: s) t + 1))
      (distance s t + if c = d then 0 else 1) := by
  rw [distance]

/-- The distance is the number of some edits. -/
theorem edits_distance (s t : List Char) : Edits (distance s t) s t := by
  fun_induction distance s t with
  | case1 t => exact .insert_all t
  | case2 s => exact .delete_all s
  | case3 c s d t hdelete hinsert hreplace =>
    have hdelete : Edits (distance s (d :: t) + 1) (c :: s) (d :: t) :=
      .step (.delete [] s c) hdelete
    have hinsert : Edits (distance (c :: s) t + 1) (c :: s) (d :: t) :=
      .step (.insert [] (c :: s) d) (hinsert.cons d)
    have hreplace : Edits (distance s t + if c = d then 0 else 1) (c :: s) (d :: t) := by
      split
      · rename_i hcd
        subst hcd
        exact hreplace.cons c
      · exact .step (.replace [] s c d) (hreplace.cons d)
    exact (hdelete.min hinsert).min hreplace

/-! ## One edit changes it by at most one -/

theorem distance_cons_left_le (c : Char) (s t : List Char) :
    distance (c :: s) t ≤ distance s t + 1 := by
  cases t with
  | nil => exact Nat.le_of_eq (by rw [distance_nil_right, distance_nil_right, List.length_cons])
  | cons d t =>
    rw [distance_cons]
    omega

theorem distance_cons_right_le (d : Char) (s t : List Char) :
    distance s (d :: t) ≤ distance s t + 1 := by
  cases s with
  | nil => exact Nat.le_of_eq (by rw [distance_nil_left, distance_nil_left, List.length_cons])
  | cons c s =>
    rw [distance_cons]
    omega

theorem distance_le_cons_left (c : Char) (s t : List Char) :
    distance s t ≤ distance (c :: s) t + 1 := by
  induction t with
  | nil =>
    rw [distance_nil_right, distance_nil_right, List.length_cons]
    omega
  | cons d t ih =>
    have hright := distance_cons_right_le d s t
    rw [distance_cons]
    omega

/-- To replace the first letter changes the distance by one at most. -/
theorem distance_replace_le (c d : Char) (s t : List Char) :
    distance (c :: s) t ≤ distance (d :: s) t + 1 := by
  induction t with
  | nil =>
    rw [distance_nil_right, distance_nil_right, List.length_cons, List.length_cons]
    omega
  | cons e t ih =>
    rw [distance_cons c, distance_cons d]
    split <;> omega

/-- What two texts differ by, they differ by with one more character in front. -/
theorem distance_cons_cons_le (h : ∀ u, distance s u ≤ distance t u + 1) (c : Char)
    (u : List Char) : distance (c :: s) u ≤ distance (c :: t) u + 1 := by
  induction u with
  | nil =>
    have hnil := h []
    rw [distance_nil_right, distance_nil_right] at hnil ⊢
    simpa using hnil
  | cons d u ih =>
    have hdelete := h (d :: u)
    have hreplace := h u
    rw [distance_cons c d s, distance_cons c d t]
    omega

/-- One edit changes the distance by one at most. -/
theorem Edit.distance_le (h : Edit s t) (u : List Char) : distance s u ≤ distance t u + 1 := by
  -- the characters before the edit are the same in both texts
  have hfront (v : List Char) {s t : List Char} (h : ∀ u, distance s u ≤ distance t u + 1)
      (u : List Char) : distance (v ++ s) u ≤ distance (v ++ t) u + 1 := by
    induction v generalizing u with
    | nil => exact h u
    | cons c v ih => exact distance_cons_cons_le ih c u
  cases h with
  | insert v w c => exact hfront v (distance_le_cons_left c w) u
  | delete v w c => exact hfront v (distance_cons_left_le c w) u
  | replace v w c d => exact hfront v (distance_replace_le c d w) u

theorem distance_self (s : List Char) : distance s s = 0 := by
  induction s with
  | nil => rw [distance_nil_left, List.length_nil]
  | cons c s ih =>
    rw [distance_cons, ih, if_pos rfl, Nat.add_zero]
    exact Nat.min_zero _

/-- No fewer edits than the distance lead from one text to the other. -/
theorem distance_le_of_edits (h : Edits n s t) : distance s t ≤ n := by
  induction h with
  | refl s => exact Nat.le_of_eq (distance_self s)
  | @step n s t u he _ ih =>
    have hone := he.distance_le u
    omega

/-! ## Rows -/

/-- The distances from `s` to `p`, and to what `p` becomes as the characters of a text are put in
front of it one by one. -/
def distances (s : List Char) : List Char → List Char → List Nat
  | p, [] => [distance s p]
  | p, d :: t => distance s p :: distances s (d :: p) t

theorem distances_eq_cons (s p t : List Char) :
    distances s p t = distance s p :: (distances s p t).tail := by
  cases t <;> rfl

/-- The next row, from the one above it. -/
theorem rowFrom_distances (c : Char) (s p t : List Char) :
    rowFrom c (distance (c :: s) p) t (distances s p t) = (distances (c :: s) p t).tail := by
  induction t generalizing p with
  | nil => rfl
  | cons d t ih =>
    rw [distances, distances_eq_cons s (d :: p) t, rowFrom, ← distance_cons, ← distances_eq_cons,
      ih]
    exact (distances_eq_cons (c :: s) (d :: p) t).symm

theorem distances_nil (p t : List Char) :
    distances [] p t = List.range' p.length (t.length + 1) := by
  induction t generalizing p with
  | nil => rw [distances, distance_nil_left]; rfl
  | cons d t ih => rw [distances, ih, distance_nil_left]; rfl

/-- The row that is computed for a text has its distances to all beginnings of the other one. -/
theorem distanceRow_eq (s t : List Char) : distanceRow t s = distances s [] t := by
  induction s with
  | nil => rw [distanceRow, distances_nil, List.range_eq_range']; rfl
  | cons c s ih =>
    have hleft : s.length + 1 = distance (c :: s) [] := (distance_nil_right (c :: s)).symm
    rw [distanceRow, ih, hleft, rowFrom_distances, ← distances_eq_cons]

theorem getLast?_distances (s p t : List Char) :
    (distances s p t).getLast? = some (distance s (t.reverse ++ p)) := by
  induction t generalizing p with
  | nil => rfl
  | cons d t ih =>
    rw [distances, distances_eq_cons, List.getLast?_cons_cons, ← distances_eq_cons, ih]
    simp

/-- The last entry of the last row. The rows would give the distance from an empty text as well. -/
theorem rowDistance_eq (s t : List Char) : rowDistance s t = distance s.reverse t.reverse := by
  unfold rowDistance
  split
  · rename_i ht
    rw [List.isEmpty_iff.1 ht, List.reverse_nil, distance_nil_right, List.length_reverse]
  · rw [distanceRow_eq, getLast?_distances, List.append_nil]
    rfl

/-! ## The least number of edits -/

/-- What is computed is the least number of edits. -/
theorem rowDistance_isLeast (s t : List Char) : IsLeast {n | Edits n s t} (rowDistance s t) := by
  rw [rowDistance_eq]
  refine ⟨Edits.reverse_iff.1 (edits_distance _ _), fun n h => ?_⟩
  exact distance_le_of_edits (Edits.reverse_iff.2 h)

/-- Edits can be undone, so it does not matter which of the texts the rows run along. -/
theorem editDistance_isLeast (a b : String) :
    IsLeast {n | Edits n a.toList b.toList} (editDistance a b) := by
  unfold editDistance
  split
  · obtain ⟨hmem, hle⟩ := rowDistance_isLeast b.toList a.toList
    exact ⟨hmem.symm, fun n h => hle h.symm⟩
  · exact rowDistance_isLeast a.toList b.toList

example : editDistance "kitten" "sitting" = 3 := by decide +kernel

theorem edits_editDistance (a b : String) : Edits (editDistance a b) a.toList b.toList :=
  (editDistance_isLeast a b).1

theorem editDistance_le {a b : String} (h : Edits n a.toList b.toList) : editDistance a b ≤ n :=
  (editDistance_isLeast a b).2 h

theorem editDistance_comm (a b : String) : editDistance a b = editDistance b a :=
  Nat.le_antisymm (editDistance_le (edits_editDistance b a).symm)
    (editDistance_le (edits_editDistance a b).symm)

theorem editDistance_eq_zero_iff {a b : String} : editDistance a b = 0 ↔ a = b := by
  constructor
  · intro h
    have hedits := edits_editDistance a b
    rw [h, Edits.zero_iff] at hedits
    exact String.toList_inj.1 hedits
  · rintro rfl
    exact Nat.le_zero.1 (editDistance_le (.refl _))

theorem editDistance_triangle (a b c : String) :
    editDistance a c ≤ editDistance a b + editDistance b c :=
  editDistance_le ((edits_editDistance a b).trans (edits_editDistance b c))

end SystemFOmega
