/-!
# Similar names

The edit distance of two texts counts the single-character insertions, deletions and replacements
that lead from one to the other. It is computed row by row: `distanceRow` holds the distances from
one text to the beginnings of the other. Names at distance at most two are suggested for a
name that is not there, the nearest first.
-/

namespace SystemFOmega

/-- Extends a row of distances by the character `c`. The arguments that follow are the entry to the
left in the new row, the characters that remain, and the old row from the entry above-left on. -/
def rowFrom (c : Char) : Nat → List Char → List Nat → List Nat
  | left, d :: ds, diagonal :: above :: row =>
    let entry := min (min (above + 1) (left + 1)) (diagonal + if c = d then 0 else 1)
    entry :: rowFrom c entry ds (above :: row)
  | _, _, _ => []

/-- The distances from `s`, read from its end, to every beginning of `t`. -/
def distanceRow (t : List Char) : List Char → List Nat
  | [] => List.range (t.length + 1)
  | c :: s => (s.length + 1) :: rowFrom c (s.length + 1) t (distanceRow t s)

/-- The edit distance of `s` and `t`, of which `t` is not the longer one. -/
def rowDistance (s t : List Char) : Nat :=
  if t.isEmpty then s.length else (distanceRow t s.reverse).getLast?.getD 0

/-- The edit distance of two texts. The rows are as long as the shorter text. -/
def editDistance (a b : String) : Nat :=
  if a.length < b.length then rowDistance b.toList a.toList else rowDistance a.toList b.toList

/-- The first `n` elements, or all but the last `-n` if `n` is negative. -/
def takeInt {α : Type} (n : Int) (xs : List α) : List α :=
  if 0 ≤ n then xs.take n.toNat else xs.take (xs.length - (-n).toNat)

/-- The texts `xs` in code point order, each once. -/
def sortedTexts (xs : List String) : List String :=
  xs.eraseDups.mergeSort fun a b => !decide (b < a)

/-- The available names other than `name` at distance at most two from it: the nearest first, names
at one distance in code point order, cut to `limit`. -/
def similarNames (name : String) (available : List String) (limit : Int := 3) : List String :=
  let near := ((sortedTexts available).filter (· ≠ name)).filterMap fun x =>
    let d := editDistance name x
    if d ≤ 2 then some (d, x) else none
  (takeInt limit (near.mergeSort fun x y => decide (x.1 ≤ y.1))).map (·.2)

end SystemFOmega
