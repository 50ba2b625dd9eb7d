/-!
# Tables in order of first insertion

A `Table` maps keys to values and lists them in the order in which the keys were first inserted.
Inserting under a key that is present replaces the value in place and keeps the first key.

* `Table.find?`, `Table.insert`, `Table.contains`, `Table.keys`, `Table.size`.
-/

namespace PulseSequencer

universe u v

structure Table (κ : Type u) (α : Type v) where
  entries : List (κ × α)

namespace Table

variable {κ : Type u} {α : Type v}

def empty : Table κ α := ⟨[]⟩

def keys (t : Table κ α) : List κ := t.entries.map (·.1)

def size (t : Table κ α) : Nat := t.entries.length

variable [BEq κ]

def find? (t : Table κ α) (k : κ) : Option α := (t.entries.find? (·.1 == k)).map (·.2)

def contains (t : Table κ α) (k : κ) : Bool := t.entries.any (·.1 == k)

/-- Puts a value under a key of an entry list. -/
def insertEntry (k : κ) (a : α) : List (κ × α) → List (κ × α)
  | [] => [(k, a)]
  | e :: es => if e.1 == k then (e.1, a) :: es else e :: insertEntry k a es

def insert (t : Table κ α) (k : κ) (a : α) : Table κ α := ⟨insertEntry k a t.entries⟩

/-- The table of a list of pairs; a later pair replaces the value of an earlier one. -/
def ofList (pairs : List (κ × α)) : Table κ α := pairs.foldl (fun t p => t.insert p.1 p.2) empty

theorem find?_insert_self [LawfulBEq κ] (t : Table κ α) (k : κ) (a : α) :
    (t.insert k a).find? k = some a := by
  obtain ⟨es⟩ := t
  simp only [insert, find?]
  induction es with
  | nil => simp [insertEntry]
  | cons e es ih =>
    simp only [insertEntry]
    split
    · simp_all
    · simp_all

theorem find?_insert_of_ne [LawfulBEq κ] (t : Table κ α) {k k' : κ} (h : k ≠ k') (a : α) :
    (t.insert k a).find? k' = t.find? k' := by
  obtain ⟨es⟩ := t
  simp only [insert, find?]
  induction es with
  | nil => simp [insertEntry, h]
  | cons e es ih =>
    simp only [insertEntry]
    split
    · simp_all
    · by_cases he : e.1 = k' <;> simp_all

end Table

end PulseSequencer
