/-!
# Insertion-ordered tables

A table holds at most one value for a key and lists its keys in the order in which they came. A
key that is inserted again keeps its place and gets the new value.
-/

namespace SystemFOmega

/-- A finite map, as a list of entries in the order in which they were put in. -/
structure Table (α β : Type) where
  entries : List (α × β) := []
deriving DecidableEq

namespace Table

variable {α β : Type}

/-- The table without entries. -/
def empty : Table α β := ⟨[]⟩

/-- What the table has entries for. -/
def keys (t : Table α β) : List α := t.entries.map (·.1)

/-- The sum of a measure over all values. -/
def total (f : β → Nat) (t : Table α β) : Nat := t.entries.foldr (fun e n => f e.2 + n) 0

variable [DecidableEq α]

/-- The value of the first entry with key `a`. -/
def lookup (a : α) : List (α × β) → Option β
  | [] => none
  | (x, v) :: rest => if x = a then some v else lookup a rest

/-- Changes the first entry with key `a`, or adds one at the end. -/
def update (a : α) (b : β) : List (α × β) → List (α × β)
  | [] => [(a, b)]
  | (x, v) :: rest => if x = a then (x, b) :: rest else (x, v) :: update a b rest

/-- The entry for `a`, if there is one. -/
def get? (t : Table α β) (a : α) : Option β := lookup a t.entries

/-- An entry is put at the end, unless there is one for `a`, which is then changed where it is. -/
def insert (t : Table α β) (a : α) (b : β) : Table α β := ⟨update a b t.entries⟩

theorem lookup_update (a c : α) (b : β) (es : List (α × β)) :
    lookup c (update a b es) = if a = c then some b else lookup c es := by
  induction es with
  | nil => rfl
  | cons e rest ih =>
    obtain ⟨x, v⟩ := e
    by_cases hx : x = a <;> by_cases hc : x = c <;> simp_all [lookup, update]
    all_goals grind

@[simp] theorem get?_empty (a : α) : (empty : Table α β).get? a = none := rfl

@[simp] theorem get?_insert (t : Table α β) (a c : α) (b : β) :
    (t.insert a b).get? c = if a = c then some b else t.get? c :=
  lookup_update a c b t.entries

end Table

end SystemFOmega
