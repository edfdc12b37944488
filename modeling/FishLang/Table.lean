namespace FishLang

structure Table (κ : Type) (α : Type) where
  entries : List (κ × α)
deriving Repr

namespace Table

variable {κ α : Type} [DecidableEq κ]

def empty : Table κ α := ⟨[]⟩

-- The two helpers work on the bare rows; everything else goes through the table.
def findRow (key : κ) : List (κ × α) → Option α
  | [] => none
  | row :: rest => if row.1 = key then some row.2 else findRow key rest

def insertRow (key : κ) (entry : α) : List (κ × α) → List (κ × α)
  | [] => [(key, entry)]
  | row :: rest => if row.1 = key then (key, entry) :: rest else row :: insertRow key entry rest

def find? (table : Table κ α) (key : κ) : Option α := findRow key table.entries

def contains (table : Table κ α) (key : κ) : Bool := (table.find? key).isSome

def insert (table : Table κ α) (key : κ) (entry : α) : Table κ α := ⟨insertRow key entry table.entries⟩

-- The rows in order; of two with one key the later wins.
def ofList (rows : List (κ × α)) : Table κ α :=
  rows.foldl (fun table row => table.insert row.1 row.2) empty

def size (table : Table κ α) : Nat := table.entries.length

@[simp] theorem find?_empty (key : κ) : (empty : Table κ α).find? key = none := rfl

theorem findRow_insertRow (rows : List (κ × α)) (key other : κ) (entry : α) :
    findRow other (insertRow key entry rows) = if key = other then some entry else findRow other rows := by
  induction rows with
  | nil => simp [insertRow, findRow]
  | cons row rest ih =>
    unfold insertRow
    split
    · next same =>
      unfold findRow
      split <;> simp_all
    · next apart =>
      unfold findRow
      rw [ih]
      split
      · next here => rw [if_neg (by rintro rfl; exact apart here)]
      · rfl

theorem mem_of_findRow (rows : List (κ × α)) (key : κ) (entry : α) (found : findRow key rows = some entry) :
    (key, entry) ∈ rows := by
  induction rows with
  | nil => cases found
  | cons row rest ih =>
    unfold findRow at found
    split at found
    · next here =>
      cases found
      rw [← here]
      exact List.mem_cons_self ..
    · exact List.mem_cons_of_mem _ (ih found)

theorem mem_of_find? {table : Table κ α} {key : κ} {entry : α} (found : table.find? key = some entry) :
    (key, entry) ∈ table.entries :=
  mem_of_findRow table.entries key entry found

theorem find?_insert (table : Table κ α) (key other : κ) (entry : α) :
    (table.insert key entry).find? other = if key = other then some entry else table.find? other :=
  findRow_insertRow table.entries key other entry

@[simp] theorem find?_insert_self (table : Table κ α) (key : κ) (entry : α) :
    (table.insert key entry).find? key = some entry := by
  simp [find?_insert]

theorem find?_insert_of_ne (table : Table κ α) {key other : κ} (entry : α) (apart : key ≠ other) :
    (table.insert key entry).find? other = table.find? other := by
  simp [find?_insert, apart]

end Table

end FishLang
