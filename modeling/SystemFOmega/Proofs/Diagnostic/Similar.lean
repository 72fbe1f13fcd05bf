import SystemFOmega.Proofs.Diagnostic.EditDistance

/-!
# Suggestions are the nearest names

The names that are suggested for a name are the available ones at an edit distance of at most two,
without the name itself: the nearest first, and names at one distance in code point order. There is
one list of this kind (`Ranking.unique`), and as many names as asked for are taken from its front
(`similarNames_nearest`).

The names are put in code point order and then sorted by distance. That the first order is kept
among names at one distance is the stability of the second sort (`pairwise_mergeSort_key`).
-/

namespace SystemFOmega

variable {name x y : String} {available names names' : List String}

/-! ## Rankings -/

/-- As a suggestion for `name`, `x` comes before `y`: it is nearer, or as near and before it in code
point order. -/
def Precedes (name x y : String) : Prop :=
  editDistance name x < editDistance name y ∨
    editDistance name x = editDistance name y ∧ x < y

/-- The available names that are near `name`, each once, in the order of suggestions. -/
structure Ranking (name : String) (available names : List String) : Prop where
  ordered : names.Pairwise (Precedes name)
  mem_iff (x : String) : x ∈ names ↔ x ∈ available ∧ x ≠ name ∧ editDistance name x ≤ 2

theorem Precedes.asymm (h : Precedes name x y) : ¬ Precedes name y x := by
  rintro (h' | ⟨h', hyx⟩)
  · rcases h with h | ⟨h, -⟩ <;> omega
  · rcases h with h | ⟨-, hxy⟩
    · omega
    · exact String.lt_asymm hxy hyx

theorem Precedes.ne (h : Precedes name x y) : x ≠ y := by
  rintro rfl
  exact h.asymm h

/-- There is one ranking of the names at most. -/
theorem Ranking.unique (h : Ranking name available names) (h' : Ranking name available names') :
    names = names' := by
  have hperm : names.Perm names' := by
    refine (List.perm_ext_iff_of_nodup (h.ordered.imp Precedes.ne) (h'.ordered.imp Precedes.ne)).2
      fun x => ?_
    rw [h.mem_iff, h'.mem_iff]
  exact hperm.eq_of_pairwise (fun x y _ _ hxy hyx => absurd hyx hxy.asymm) h.ordered h'.ordered

/-! ## Sorting -/

/-- Elements with one key stay in the order in which they were. -/
theorem pairwise_mergeSort_key {α : Type} (key : α → Nat) {r : α → α → Prop} {l : List α}
    (h : l.Pairwise r) :
    (l.mergeSort fun x y => decide (key x ≤ key y)).Pairwise fun x y =>
      key x < key y ∨ key x = key y ∧ r x y := by
  have htrans (x y z : α) : decide (key x ≤ key y) → decide (key y ≤ key z) →
      decide (key x ≤ key z) := by
    simp only [decide_eq_true_eq]
    exact Nat.le_trans
  have htotal (x y : α) : decide (key x ≤ key y) || decide (key y ≤ key x) := by
    simpa using Nat.le_total (key x) (key y)
  induction l with
  | nil => simp
  | cons a l ih =>
    obtain ⟨ha, hl⟩ := List.pairwise_cons.1 h
    -- `a` is put behind the elements with smaller keys, and in front of all others
    obtain ⟨l₁, l₂, hcons, hrest, hsmaller⟩ := List.mergeSort_cons htrans htotal a l
    have hsorted := List.pairwise_mergeSort htrans htotal (a :: l)
    rw [hcons] at hsorted ⊢
    have hih := List.pairwise_append.1 (hrest ▸ ih hl)
    have hlater := (List.pairwise_cons.1 (List.pairwise_append.1 hsorted).2.1).1
    refine List.pairwise_append.2 ⟨hih.1, List.pairwise_cons.2 ⟨fun y hy => ?_, hih.2.1⟩, ?_⟩
    · have hle : key a ≤ key y := by simpa using hlater y hy
      have hmem : y ∈ l := by
        rw [← List.mem_mergeSort, hrest]
        exact List.mem_append_right l₁ hy
      exact (Nat.lt_or_eq_of_le hle).imp_right fun heq => ⟨heq, ha y hmem⟩
    · intro x hx y hy
      rcases List.mem_cons.1 hy with rfl | hy
      · have hlt : ¬ key y ≤ key x := by simpa using hsmaller x hx
        omega
      · exact hih.2.2 x hx y hy

theorem nodup_eraseDups (xs : List String) : xs.eraseDups.Nodup := by
  induction hn : xs.length using Nat.strongRecOn generalizing xs with
  | ind n ih =>
    subst hn
    cases xs with
    | nil => simp
    | cons x xs =>
      rw [List.eraseDups_cons]
      have hless := List.length_filter_le (fun y => !y == x) xs
      refine List.nodup_cons.2 ⟨?_, ih _ (by simp only [List.length_cons]; omega) _ rfl⟩
      simp [List.mem_eraseDups]

theorem mem_sortedTexts : x ∈ sortedTexts available ↔ x ∈ available := by
  rw [sortedTexts, List.mem_mergeSort, List.mem_eraseDups]

theorem not_decide_lt {a b : String} : !decide (b < a) ↔ a ≤ b := by
  rw [Bool.not_eq_true', decide_eq_false_iff_not, String.not_lt]

/-- Sorted texts have no duplicates. -/
theorem pairwise_sortedTexts (xs : List String) : (sortedTexts xs).Pairwise (· < ·) := by
  have htrans (a b c : String) (hab : !decide (b < a)) (hbc : !decide (c < b)) :
      !decide (c < a) :=
    not_decide_lt.2 (String.le_trans (not_decide_lt.1 hab) (not_decide_lt.1 hbc))
  have htotal (a b : String) : !decide (b < a) || !decide (a < b) := by
    rw [Bool.or_eq_true, not_decide_lt, not_decide_lt]
    exact String.le_total a b
  have hsorted := List.pairwise_mergeSort htrans htotal xs.eraseDups
  have hnodup : (sortedTexts xs).Nodup :=
    (List.mergeSort_perm xs.eraseDups _).nodup_iff.2 (nodup_eraseDups xs)
  refine (hsorted.and hnodup).imp fun {a b} h => ?_
  exact Std.lt_of_le_of_ne (not_decide_lt.1 h.1) h.2

/-! ## Suggestions -/

/-- The names to suggest, in code point order. -/
def nearNames (name : String) (available : List String) : List String :=
  (sortedTexts available).filter fun x => decide (x ≠ name) && decide (editDistance name x ≤ 2)

/-- The names to suggest, in the order of suggestions. -/
def rankedNames (name : String) (available : List String) : List String :=
  (nearNames name available).mergeSort fun x y => decide (editDistance name x ≤ editDistance name y)

theorem filterMap_near (name : String) (xs : List String) :
    ((xs.filter (· ≠ name)).filterMap fun x =>
      let d := editDistance name x
      if d ≤ 2 then some (d, x) else none) =
    (xs.filter fun x => decide (x ≠ name) && decide (editDistance name x ≤ 2)).map fun x =>
      (editDistance name x, x) := by
  induction xs with
  | nil => rfl
  | cons x xs ih =>
    by_cases hx : x = name
    · simpa [hx] using ih
    · by_cases hd : editDistance name x ≤ 2
      · simpa [hx, hd] using ih
      · simpa [hx, hd] using ih

theorem map_takeInt {α β : Type} (f : α → β) (n : Int) (xs : List α) :
    (takeInt n xs).map f = takeInt n (xs.map f) := by
  unfold takeInt
  rw [apply_ite (List.map f), List.map_take, List.map_take, List.length_map]

theorem similarNames_eq (name : String) (available : List String) (limit : Int) :
    similarNames name available limit = takeInt limit (rankedNames name available) := by
  let withDistance (x : String) : Nat × String := (editDistance name x, x)
  have hsort : ((nearNames name available).map withDistance).mergeSort
      (fun p q => decide (p.1 ≤ q.1)) = (rankedNames name available).map withDistance := by
    rw [rankedNames, List.map_mergeSort]
    exact fun x _ y _ => rfl
  calc similarNames name available limit
      = (takeInt limit (((nearNames name available).map withDistance).mergeSort
          fun p q => decide (p.1 ≤ q.1))).map (·.2) := by
        rw [similarNames, filterMap_near]
        rfl
    _ = takeInt limit ((rankedNames name available).map fun x => (withDistance x).2) := by
        rw [hsort, map_takeInt, List.map_map]
        rfl
    _ = takeInt limit (rankedNames name available) := congrArg _ (List.map_id _)

/-- The names that are near enough, in the order of their distances and then of their texts. -/
theorem rankedNames_ranking (name : String) (available : List String) :
    Ranking name available (rankedNames name available) where
  ordered := pairwise_mergeSort_key (editDistance name) ((pairwise_sortedTexts available).filter _)
  mem_iff x := by
    rw [rankedNames, List.mem_mergeSort, nearNames, List.mem_filter, mem_sortedTexts]
    simp

theorem takeInt_natCast {α : Type} (m : Nat) (xs : List α) : takeInt m xs = xs.take m := by
  simp [takeInt]

theorem takeInt_neg {α : Type} (m : Nat) (xs : List α) :
    takeInt (-(m + 1 : Nat)) xs = xs.take (xs.length - (m + 1)) := by
  rw [takeInt, if_neg (by omega)]
  simp

/-- The edit distance is the least number of edits, and so a metric; and the names suggested for a
name are the first ones of its ranking, or with a negative limit all but the last ones. -/
theorem similarNames_nearest :
    (∀ a b, IsLeast {n | Edits n a.toList b.toList} (editDistance a b)) ∧
    (∀ a b, editDistance a b = editDistance b a) ∧
    (∀ a b, editDistance a b = 0 ↔ a = b) ∧
    (∀ a b c, editDistance a c ≤ editDistance a b + editDistance b c) ∧
    ∀ name available, ∃ ranked, (∀ names, Ranking name available names ↔ names = ranked) ∧
      ∀ m : Nat, similarNames name available m = ranked.take m ∧
        similarNames name available (-(m + 1 : Nat)) = ranked.take (ranked.length - (m + 1)) := by
  refine ⟨editDistance_isLeast, editDistance_comm, fun _ _ => editDistance_eq_zero_iff,
    editDistance_triangle, fun name available => ⟨rankedNames name available, fun names => ?_,
      fun m => ⟨?_, ?_⟩⟩⟩
  · have hranking := rankedNames_ranking name available
    exact ⟨fun h => h.unique hranking, fun h => h ▸ hranking⟩
  · rw [similarNames_eq, takeInt_natCast]
  · rw [similarNames_eq, takeInt_neg]

end SystemFOmega
