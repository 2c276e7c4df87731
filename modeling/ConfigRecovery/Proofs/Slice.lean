import Mathlib
import ConfigRecovery.Text.Slice

/-!
# What a slice is

A slice of a text is a middle piece of it, and the places of its ends are the sizes of the pieces
before them. So a start and a stop give a slice just when both stand between characters in this
order.
-/

namespace ConfigRecovery.Text

@[simp]
theorem utf8ByteSize_ofList_cons (c : Char) (cs : List Char) :
    (String.ofList (c :: cs)).utf8ByteSize = c.utf8Size + (String.ofList cs).utf8ByteSize := by
  rw [← List.singleton_append, String.ofList_append, String.utf8ByteSize_append,
    ← String.singleton_eq_ofList, String.utf8ByteSize_singleton]

theorem dropBytes_append (front rest : List Char) :
    dropBytes (String.ofList front).utf8ByteSize (front ++ rest) = some rest := by
  induction front with
  | nil => cases rest <;> simp [dropBytes]
  | cons c front ih =>
    have positive := c.utf8Size_pos
    rw [utf8ByteSize_ofList_cons, List.cons_append, dropBytes, if_neg (by omega), if_neg (by omega),
      Nat.add_sub_cancel_left, ih]

theorem takeBytes_append (front rest : List Char) :
    takeBytes (String.ofList front).utf8ByteSize (front ++ rest) = some front := by
  induction front with
  | nil => cases rest <;> simp [takeBytes]
  | cons c front ih =>
    have positive := c.utf8Size_pos
    rw [utf8ByteSize_ofList_cons, List.cons_append, takeBytes, if_neg (by omega), if_neg (by omega),
      Nat.add_sub_cancel_left, ih, Option.map_some]

theorem exists_front_of_dropBytes {bytes : Nat} {text rest : List Char}
    (h : dropBytes bytes text = some rest) :
    ∃ front, text = front ++ rest ∧ (String.ofList front).utf8ByteSize = bytes := by
  fun_induction dropBytes bytes text with
  | case1 =>
    cases h
    exact ⟨[], rfl, rfl⟩
  | case2 => cases h
  | case3 c text =>
    cases h
    exact ⟨[], rfl, rfl⟩
  | case4 => cases h
  | case5 bytes c text nonzero fits ih =>
    obtain ⟨front, rfl, size⟩ := ih h
    refine ⟨c :: front, rfl, ?_⟩
    rw [utf8ByteSize_ofList_cons, size]
    omega

theorem exists_rest_of_takeBytes {bytes : Nat} {text front : List Char}
    (h : takeBytes bytes text = some front) :
    ∃ rest, text = front ++ rest ∧ (String.ofList front).utf8ByteSize = bytes := by
  fun_induction takeBytes bytes text generalizing front with
  | case1 =>
    cases h
    exact ⟨[], rfl, rfl⟩
  | case2 => cases h
  | case3 c text =>
    cases h
    exact ⟨c :: text, rfl, rfl⟩
  | case4 => cases h
  | case5 bytes c text nonzero fits ih =>
    obtain ⟨front, taken, rfl⟩ := Option.map_eq_some_iff.mp h
    obtain ⟨rest, rfl, size⟩ := ih taken
    refine ⟨rest, rfl, ?_⟩
    rw [utf8ByteSize_ofList_cons, size]
    omega

theorem slice?_eq_some {text slice : String} {start stop : Nat} :
    slice? text start stop = some slice ↔
      start ≤ stop ∧ ∃ rest, dropBytes start text.toList = some rest ∧
        takeBytes (stop - start) rest = some slice.toList := by
  by_cases order : start ≤ stop
  · have same (front : List Char) : String.ofList front = slice ↔ front = slice.toList := by
      rw [← String.toList_inj, String.toList_ofList]
    simp [slice?, guard, order, Option.bind_eq_some_iff, same]
  · simp [slice?, guard, order]

/-- A slice is what stands between its ends. -/
theorem slice?_eq_some_iff {text slice : String} {start stop : Nat} :
    slice? text start stop = some slice ↔
      ∃ before after, text = before ++ slice ++ after ∧ before.utf8ByteSize = start ∧
        (before ++ slice).utf8ByteSize = stop := by
  rw [slice?_eq_some]
  constructor
  · rintro ⟨order, rest, dropped, taken⟩
    obtain ⟨front, cut, size⟩ := exists_front_of_dropBytes dropped
    obtain ⟨back, rfl, width⟩ := exists_rest_of_takeBytes taken
    refine ⟨String.ofList front, String.ofList back, ?_, size, ?_⟩
    · rw [← String.toList_inj, cut]
      simp
    · rw [String.ofList_toList] at width
      rw [String.utf8ByteSize_append, size, width]
      omega
  · rintro ⟨before, after, rfl, rfl, rfl⟩
    have dropped := dropBytes_append before.toList (slice.toList ++ after.toList)
    have taken := takeBytes_append slice.toList after.toList
    rw [String.ofList_toList] at dropped taken
    refine ⟨by simp, slice.toList ++ after.toList, ?_, ?_⟩
    · simpa using dropped
    · simpa using taken

/-- There is a slice just when both ends stand between characters, the start not behind the stop. -/
theorem isSome_slice?_iff {text : String} {start stop : Nat} :
    (slice? text start stop).isSome ↔
      start ≤ stop ∧ (⟨start⟩ : String.Pos.Raw).IsValid text ∧
        (⟨stop⟩ : String.Pos.Raw).IsValid text := by
  rw [Option.isSome_iff_exists]
  simp only [slice?_eq_some_iff, String.Pos.Raw.isValid_iff_exists_append]
  constructor
  · rintro ⟨slice, before, after, rfl, rfl, rfl⟩
    refine ⟨by simp, ⟨before, slice ++ after, by rw [String.append_assoc], rfl⟩,
      before ++ slice, after, rfl, rfl⟩
  · rintro ⟨order, ⟨before, behind, rfl, start_eq⟩, front, after, cut, stop_eq⟩
    have sizes : before.utf8ByteSize = start ∧ front.utf8ByteSize = stop :=
      ⟨(congrArg (·.byteIdx) start_eq).symm, (congrArg (·.byteIdx) stop_eq).symm⟩
    have lists := congrArg String.toList cut
    simp only [String.toList_append] at lists
    rcases List.append_eq_append_iff.mp lists with ⟨slice, longer, -⟩ | ⟨slice, longer, -⟩
    · refine ⟨String.ofList slice, before, after, ?_, sizes.1, ?_⟩
      · rw [cut, ← String.toList_inj]
        simp [longer]
      · rw [← sizes.2, ← String.ofList_toList (s := front), longer]
        simp [String.ofList_append]
    · have width := congrArg (fun cs => (String.ofList cs).utf8ByteSize) longer
      simp only [String.ofList_append, String.ofList_toList, String.utf8ByteSize_append] at width
      refine ⟨"", before, behind, by simp, sizes.1, ?_⟩
      rw [String.append_empty]
      omega

end ConfigRecovery.Text
