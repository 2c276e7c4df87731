import Mathlib
import ConfigRecovery.Json.Fields

/-!
# Order and value of fields

Setting fields never moves one that is there. So the keys behind a series of changes are the old
keys in their order and then the new ones, whatever becomes of the values.
-/

namespace ConfigRecovery.Fields

variable {α : Type}

@[simp]
theorem keys_nil : keys ([] : Fields α) = [] := rfl

@[simp]
theorem keys_cons (field : String × α) (fields : Fields α) :
    keys (field :: fields) = field.1 :: keys fields := rfl

theorem get?_eq_none_iff {fields : Fields α} {key : String} :
    get? fields key = none ↔ key ∉ keys fields := by
  induction fields with
  | nil => simp [get?]
  | cons field fields ih =>
    obtain ⟨k, v⟩ := field
    by_cases h : k = key
    · simp [get?, h]
    · simp [get?, h, ih, Ne.symm h]

theorem mem_of_get? {fields : Fields α} {key : String} {value : α}
    (h : get? fields key = some value) : (key, value) ∈ fields := by
  induction fields with
  | nil => cases h
  | cons field fields ih =>
    obtain ⟨k, v⟩ := field
    by_cases hk : k = key
    · simp only [get?, if_pos hk, Option.some.injEq] at h
      rw [hk, h]
      exact List.mem_cons_self
    · simp only [get?, if_neg hk] at h
      exact List.mem_cons_of_mem _ (ih h)

theorem get?_insert (fields : Fields α) (key other : String) (value : α) :
    get? (insert fields key value) other = if other = key then some value else get? fields other := by
  by_cases h : other = key
  · rw [if_pos h, h, get?_insert_self]
  · rw [if_neg h, get?_insert_of_ne h]

theorem keys_insert (fields : Fields α) (key : String) (value : α) :
    keys (insert fields key value) =
      if key ∈ keys fields then keys fields else keys fields ++ [key] := by
  induction fields with
  | nil => rfl
  | cons field fields ih =>
    obtain ⟨k, v⟩ := field
    by_cases h : k = key
    · simp [insert, h]
    · rw [insert, if_neg h, keys_cons, keys_cons, ih]
      by_cases hm : key ∈ keys fields
      · simp [hm]
      · simp [hm, Ne.symm h]

theorem nodup_keys_insert {fields : Fields α} (h : (keys fields).Nodup) (key : String) (value : α) :
    (keys (insert fields key value)).Nodup := by
  rw [keys_insert]
  split
  · exact h
  · rename_i absent
    rw [List.nodup_append]
    refine ⟨h, List.nodup_singleton key, ?_⟩
    intro a member b hb equal
    rw [List.mem_singleton.mp hb] at equal
    exact absent (equal ▸ member)

theorem insert_place (fields : Fields α) (key : String) (value : α) :
    (∃ front old back, fields = front ++ (key, old) :: back ∧ key ∉ keys front ∧
      insert fields key value = front ++ (key, value) :: back) ∨
    (key ∉ keys fields ∧ insert fields key value = fields ++ [(key, value)]) := by
  induction fields with
  | nil => exact Or.inr ⟨List.not_mem_nil, rfl⟩
  | cons field fields ih =>
    obtain ⟨k, v⟩ := field
    by_cases here : k = key
    · subst here
      exact Or.inl ⟨[], v, fields, rfl, List.not_mem_nil, by simp [insert]⟩
    · rcases ih with ⟨front, old, back, rfl, first, placed⟩ | ⟨absent, appended⟩
      · refine Or.inl ⟨(k, v) :: front, old, back, rfl, ?_, ?_⟩
        · simp [first, Ne.symm here]
        · rw [insert, if_neg here, placed]
          rfl
      · refine Or.inr ⟨?_, ?_⟩
        · simp [absent, Ne.symm here]
        · rw [insert, if_neg here, appended]
          rfl

theorem absent_of_nodup {front back : Fields α} {key : String} {value : α}
    (distinct : (keys (front ++ (key, value) :: back)).Nodup) : key ∉ keys front := by
  rw [keys, List.map_append, List.nodup_append] at distinct
  exact fun member => distinct.2.2 key member key List.mem_cons_self rfl

/-- A field with a new key goes to the end. -/
theorem insert_of_absent {fields : Fields α} {key : String} (absent : key ∉ keys fields)
    (value : α) : insert fields key value = fields ++ [(key, value)] := by
  rcases insert_place fields key value with ⟨front, old, back, rfl, -, -⟩ | ⟨-, appended⟩
  · exact absurd (by simp [keys]) absent
  · exact appended

theorem erase_insert (fields : Fields α) (key : String) (value : α) :
    erase (insert fields key value) key = erase fields key := by
  induction fields with
  | nil => simp [insert, erase]
  | cons field fields ih =>
    obtain ⟨k, v⟩ := field
    by_cases here : k = key
    · simp [insert, erase, here]
    · simp [insert, erase, here, ih]

theorem mem_insert {fields : Fields α} {key : String} {value : α} {field : String × α}
    (h : field ∈ insert fields key value) : field = (key, value) ∨ field ∈ fields := by
  induction fields with
  | nil => exact Or.inl (List.mem_singleton.mp h)
  | cons first fields ih =>
    obtain ⟨k, v⟩ := first
    by_cases hk : k = key
    · rw [insert, if_pos hk, hk] at h
      rcases List.mem_cons.mp h with rfl | h
      · exact Or.inl rfl
      · exact Or.inr (List.mem_cons_of_mem _ h)
    · rw [insert, if_neg hk] at h
      rcases List.mem_cons.mp h with rfl | h
      · exact Or.inr List.mem_cons_self
      · exact (ih h).imp_right (List.mem_cons_of_mem _)

/-! ## Fields left over -/

/-- The fields with none of the keys. -/
def without (fields : Fields α) (taken : List String) : Fields α :=
  fields.filter fun field => field.1 ∉ taken

@[simp]
theorem without_nil (fields : Fields α) : without fields [] = fields := by
  simp [without]

theorem keys_without (fields : Fields α) (taken : List String) :
    keys (without fields taken) = (keys fields).filter (· ∉ taken) := by
  simp [keys, without, List.filter_map, Function.comp_def]

theorem get?_without (fields : Fields α) (taken : List String) (key : String) :
    get? (without fields taken) key = if key ∈ taken then none else get? fields key := by
  induction fields with
  | nil => simp [without, get?]
  | cons field fields ih =>
    obtain ⟨k, v⟩ := field
    rw [without] at ih ⊢
    by_cases hk : k ∈ taken
    · rw [List.filter_cons_of_neg (by simpa using hk), ih]
      by_cases h : k = key
      · rw [if_pos (h ▸ hk), if_pos (h ▸ hk)]
      · simp [get?, h]
    · rw [List.filter_cons_of_pos (by simpa using hk)]
      by_cases h : k = key
      · rw [if_neg (h ▸ hk), get?, get?, if_pos h, if_pos h]
      · simp only [get?, if_neg h, ih]

/-- With distinct keys, removing the first field of a key removes all of them. -/
theorem erase_eq_without {fields : Fields α} (h : (keys fields).Nodup) (key : String) :
    erase fields key = without fields [key] := by
  induction fields with
  | nil => rfl
  | cons field fields ih =>
    obtain ⟨k, v⟩ := field
    obtain ⟨hk, hd⟩ := List.nodup_cons.mp h
    rw [without] at ih ⊢
    by_cases he : k = key
    · rw [erase, if_pos he, List.filter_cons_of_neg (by simpa using he)]
      refine (List.filter_eq_self.mpr ?_).symm
      intro other member
      have listed : other.1 ∈ keys fields := List.mem_map_of_mem member
      have different : other.1 ≠ k := fun equal => hk (equal ▸ listed)
      simpa [he] using different
    · rw [erase, if_neg he, List.filter_cons_of_pos (by simpa using he), ih hd]

theorem nodup_keys_erase {fields : Fields α} (distinct : (keys fields).Nodup)
    (key : String) : (keys (erase fields key)).Nodup := by
  rw [erase_eq_without distinct, keys_without]
  exact distinct.filter _

theorem get?_erase {fields : Fields α} (distinct : (keys fields).Nodup)
    (key other : String) :
    get? (erase fields key) other = if other = key then none else get? fields other := by
  rw [erase_eq_without distinct, get?_without]
  simp only [List.mem_singleton]

theorem erase_without {fields : Fields α} (h : (keys fields).Nodup) (taken : List String)
    (key : String) : erase (without fields taken) key = without fields (taken ++ [key]) := by
  have distinct : (keys (without fields taken)).Nodup := by
    rw [keys_without]
    exact h.filter _
  rw [erase_eq_without distinct]
  simp only [without, List.filter_filter, List.mem_append]
  refine List.filter_congr fun field _ => ?_
  simp [and_comm]

/-! ## Spreading one list of fields over another -/

theorem extend_cons (fields : Fields α) (field : String × α) (more : Fields α) :
    extend fields (field :: more) = extend (insert fields field.1 field.2) more := rfl

theorem nodup_keys_extend {fields : Fields α} (h : (keys fields).Nodup) (more : Fields α) :
    (keys (extend fields more)).Nodup := by
  induction more generalizing fields with
  | nil => exact h
  | cons field more ih => exact ih (nodup_keys_insert h field.1 field.2)

theorem keys_extend (fields : Fields α) {more : Fields α} (h : (keys more).Nodup) :
    keys (extend fields more) = keys fields ++ (keys more).filter (· ∉ keys fields) := by
  induction more generalizing fields with
  | nil => simp [extend]
  | cons field more ih =>
    obtain ⟨k, v⟩ := field
    obtain ⟨hk, hd⟩ := List.nodup_cons.mp h
    rw [extend_cons, ih _ hd, keys_insert, keys_cons]
    by_cases hm : k ∈ keys fields
    · rw [if_pos hm, List.filter_cons_of_neg (by simpa using hm)]
    · rw [if_neg hm, List.filter_cons_of_pos (by simpa using hm), List.append_assoc,
        List.singleton_append]
      congr 2
      refine List.filter_congr fun other member => ?_
      have : other ≠ k := fun eq => hk (eq ▸ member)
      simp [this]

theorem get?_extend (fields : Fields α) {more : Fields α} (h : (keys more).Nodup) (key : String) :
    get? (extend fields more) key = (get? more key).or (get? fields key) := by
  induction more generalizing fields with
  | nil => rfl
  | cons field more ih =>
    obtain ⟨k, v⟩ := field
    obtain ⟨hk, hd⟩ := List.nodup_cons.mp h
    rw [extend_cons, ih _ hd, get?_insert]
    by_cases he : key = k
    · subst he
      rw [get?_eq_none_iff.mpr hk]
      simp [get?]
    · simp [get?, he, Ne.symm he]

end ConfigRecovery.Fields
