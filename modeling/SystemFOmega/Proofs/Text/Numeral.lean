import Mathlib.Data.List.Induction
import Mathlib.Data.List.TakeWhile
import Mathlib.Data.Nat.Digits.Defs
import SystemFOmega.Text.Numeral

/-!
# Numerals and their numbers

A numeral that can be read is a row of decimal digits, of any script and not too many, and its
number is their value (`Numeral.read_ok_iff`). That number, written out again, is a numeral of no
more digits (`Numeral.length_toDigits_value`) that is read as the same number (`Numeral.read_repr`).
-/

namespace SystemFOmega.Numeral

variable {c : Char} {n : Nat}

/-- A numeral is read just if it has digits and nothing else, and not too many of them. -/
theorem read_ok_iff {text : String} :
    read text = .ok n ↔ text.toList ≠ [] ∧ (∀ c ∈ text.toList, isDecimal c = true) ∧
      text.toList.length ≤ maxDigits ∧ value text.toList = n := by
  unfold read
  dsimp only
  generalize text.toList = cs
  constructor
  · intro h
    split at h
    · cases h
    rename_i hlen
    split at h
    · rename_i hd
      rw [Bool.and_eq_true, decide_eq_true_eq] at hd
      obtain ⟨hself, hne⟩ := hd
      rw [hself] at hlen hne h
      cases h
      exact ⟨by simpa using hne, List.takeWhile_eq_self_iff.1 hself, Nat.not_lt.1 hlen, rfl⟩
    · cases h
  · rintro ⟨hne, hd, hlen, rfl⟩
    rw [List.takeWhile_eq_self_iff.2 hd, if_neg (Nat.not_lt.2 hlen), if_pos]
    simpa using hne

theorem value_of_read {text : String} (h : read text = .ok n) : value text.toList = n :=
  (read_ok_iff.1 h).2.2.2

/-! ## Values -/

theorem decimalValue?_lt {v : Nat} (h : Text.decimalValue? c = some v) : v < 10 := by
  obtain ⟨z, hz, rfl⟩ := Option.map_eq_some_iff.1 h
  have := List.find?_some hz
  simp only [Bool.and_eq_true, decide_eq_true_eq] at this
  omega

theorem value_append (cs : List Char) (c : Char) :
    value (cs ++ [c]) = 10 * value cs + (Text.decimalValue? c).getD 0 := by
  simp [value, List.foldl_append]

/-- A numeral of `n` digits is below the power `10 ^ n`. -/
theorem value_lt (cs : List Char) : value cs < 10 ^ cs.length := by
  induction cs using List.reverseRecOn with
  | nil => decide
  | append_singleton cs c ih =>
    have hc : (Text.decimalValue? c).getD 0 < 10 := by
      cases h : Text.decimalValue? c with
      | none => decide
      | some v => exact decimalValue?_lt h
    rw [value_append, List.length_append, List.length_singleton, Nat.pow_succ]
    omega

theorem decimalValue?_digitChar : ∀ n < 10, Text.decimalValue? n.digitChar = some n := by
  decide +kernel

/-- The digits of a number have its value. -/
theorem value_toDigits (n : Nat) : value (Nat.toDigits 10 n) = n := by
  induction n using Nat.strongRecOn with
  | ind n ih =>
    rw [Nat.toDigits_eq_if (by decide)]
    split
    · rename_i h
      simp [value, decimalValue?_digitChar n h]
    · rename_i h
      have hmod := decimalValue?_digitChar (n % 10) (Nat.mod_lt n (by decide))
      rw [value_append, ih (n / 10) (by omega), hmod, Option.getD_some]
      omega

/-! ## Writing a number -/

theorem isDigit_digitChar : ∀ n < 10, Text.isDigit n.digitChar = true := by
  decide +kernel

/-- The digits of a number are digits for the reader. -/
theorem isDigit_of_mem (h : c ∈ Nat.toDigits 10 n) :
    Text.isDigit c = true ∧ isDecimal c = true := by
  have hdigit {d : Nat} (hd : d < 10) (hc : c = d.digitChar) :
      Text.isDigit c = true ∧ isDecimal c = true := by
    subst hc
    exact ⟨isDigit_digitChar d hd, by rw [isDecimal, decimalValue?_digitChar d hd]; rfl⟩
  induction n using Nat.strongRecOn with
  | ind n ih =>
    rw [Nat.toDigits_eq_if (by decide)] at h
    split at h
    · rename_i hn
      exact hdigit hn (List.mem_singleton.1 h)
    · rcases List.mem_append.1 h with h | h
      · exact ih (n / 10) (by omega) h
      · exact hdigit (Nat.mod_lt n (by decide)) (List.mem_singleton.1 h)

/-- A number has no more digits than any numeral for it. -/
theorem length_toDigits_value {cs : List Char} (h : cs ≠ []) :
    (Nat.toDigits 10 (value cs)).length ≤ cs.length :=
  (Nat.length_toDigits_le_iff (by decide) (List.length_pos_iff.2 h)).2 (value_lt cs)

/-- A number that is not too long is read back from its digits. -/
theorem read_repr (h : (Nat.toDigits 10 n).length ≤ maxDigits) : read n.repr = .ok n := by
  rw [read_ok_iff, Nat.toList_repr]
  exact ⟨Nat.toDigits_ne_nil, fun c hc => (isDigit_of_mem hc).2, h, value_toDigits n⟩

end SystemFOmega.Numeral
