/-!
# Tables

Insertion-ordered tables with text keys. Inserting under a key that is present replaces its value
and keeps its place; a new key goes to the end. The view of a table is `get?`.
-/

namespace ProtoSdl

structure Table (α : Type) where
  entries : List (String × α) := []
  deriving Repr

namespace Table

variable {α : Type}

/-- Replaces the value under a key in place, or appends the entry. -/
def insertEntry (key : String) (value : α) : List (String × α) → List (String × α)
  | [] => [(key, value)]
  | (k, v) :: rest => if k = key then (key, value) :: rest else (k, v) :: insertEntry key value rest

/-- The value of the first entry under a key. -/
def getEntry? (key : String) : List (String × α) → Option α
  | [] => none
  | (k, v) :: rest => if k = key then some v else getEntry? key rest

def empty : Table α := {}

def insert (table : Table α) (key : String) (value : α) : Table α :=
  { entries := insertEntry key value table.entries }

def get? (table : Table α) (key : String) : Option α :=
  getEntry? key table.entries

def contains (table : Table α) (key : String) : Bool :=
  (table.get? key).isSome

def keys (table : Table α) : List String :=
  table.entries.map (·.1)

def values (table : Table α) : List α :=
  table.entries.map (·.2)

/-- The table of a list of entries; a later entry wins over an earlier one of its key. -/
def ofList (entries : List (String × α)) : Table α :=
  entries.foldl (fun table entry => table.insert entry.1 entry.2) empty

private theorem getEntry?_insertEntry (entries : List (String × α)) (key other : String)
    (value : α) : getEntry? other (insertEntry key value entries) =
      if other = key then some value else getEntry? other entries := by
  induction entries with
  | nil => grind [insertEntry, getEntry?]
  | cons entry entries ih => grind [insertEntry, getEntry?]

@[simp] theorem get?_insert (table : Table α) (key other : String) (value : α) :
    (table.insert key value).get? other = if other = key then some value else table.get? other :=
  getEntry?_insertEntry table.entries key other value

private theorem keys_insertEntry (entries : List (String × α)) (key : String) (value : α) :
    (insertEntry key value entries).map (·.1) =
      if key ∈ entries.map (·.1) then entries.map (·.1) else entries.map (·.1) ++ [key] := by
  induction entries with
  | nil => simp [insertEntry]
  | cons entry entries ih =>
    obtain ⟨k, v⟩ := entry
    by_cases hk : k = key
    · simp [insertEntry, hk]
    · have hne : key ≠ k := Ne.symm hk
      by_cases hm : key ∈ entries.map (·.1)
      · simp only [insertEntry, hk, if_false, List.map_cons, ih, if_pos hm]
        rw [if_pos (List.mem_cons_of_mem k hm)]
      · simp only [insertEntry, hk, if_false, List.map_cons, ih, if_neg hm]
        rw [if_neg (by simp [hne, hm])]
        rfl

/-- A present key keeps its place, a new one goes to the end. -/
theorem keys_insert (table : Table α) (key : String) (value : α) :
    (table.insert key value).keys = if key ∈ table.keys then table.keys else table.keys ++ [key] :=
  keys_insertEntry table.entries key value

end Table

end ProtoSdl
