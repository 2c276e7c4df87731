/-!
# Fields of an object

An object is a list of fields in order of insertion. Setting a field that exists keeps its place,
and removing one leaves the order of the others alone.
-/

namespace ConfigRecovery

abbrev Fields (α : Type) := List (String × α)

namespace Fields

variable {α : Type}

/-- The value of the first field with the key. -/
def get? (fields : Fields α) (key : String) : Option α :=
  match fields with
  | [] => none
  | (k, v) :: rest => if k = key then some v else get? rest key

def contains (fields : Fields α) (key : String) : Bool := (fields.get? key).isSome

/-- Sets a field: one that exists keeps its place, a new one goes to the end. -/
def insert (fields : Fields α) (key : String) (value : α) : Fields α :=
  match fields with
  | [] => [(key, value)]
  | (k, v) :: rest => if k = key then (k, value) :: rest else (k, v) :: insert rest key value

/-- Removes a field; the others keep their order. -/
def erase (fields : Fields α) (key : String) : Fields α :=
  match fields with
  | [] => []
  | (k, v) :: rest => if k = key then rest else (k, v) :: erase rest key

/-- Sets every field of the second list in the first, in order. -/
def extend (fields more : Fields α) : Fields α :=
  more.foldl (fun fields (key, value) => fields.insert key value) fields

def keys (fields : Fields α) : List String := fields.map (·.1)

@[simp]
theorem get?_insert_self (fields : Fields α) (key : String) (value : α) :
    get? (insert fields key value) key = some value := by
  induction fields with
  | nil => simp [insert, get?]
  | cons field fields ih =>
    obtain ⟨k, v⟩ := field
    by_cases h : k = key <;> simp [insert, get?, h, ih]

theorem get?_insert_of_ne {fields : Fields α} {key other : String} {value : α} (h : other ≠ key) :
    get? (insert fields key value) other = get? fields other := by
  induction fields with
  | nil => simp [insert, get?, h.symm]
  | cons field fields ih =>
    obtain ⟨k, v⟩ := field
    by_cases hk : k = key
    · simp [insert, get?, hk, h.symm]
    · simp [insert, get?, hk, ih]

end Fields

end ConfigRecovery
