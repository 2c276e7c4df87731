import Mathlib
import ConfigRecovery.Package.ContentIndex

/-!
# Files by content

What the index finds is told by the files alone: of those that hold the bytes in question it is the
one whose path is the smallest, byte by byte. That takes a digest which tells these bytes from those
of the other files, and nothing else of the digest.
-/

namespace ConfigRecovery

/-! ## The order of texts -/

def utf8 (text : String) : List UInt8 := text.toUTF8.data.toList

theorem utf8_eq_flatMap (text : String) :
    utf8 text = text.toList.flatMap String.utf8EncodeChar := by
  rw [utf8, String.toUTF8_eq_toByteArray, ← String.utf8Encode_toList, List.utf8Encode,
    List.data_toByteArray]

/-- Two lists differ at a place that both have, and there the first is smaller. -/
def Below : List UInt8 → List UInt8 → Prop
  | a :: l, b :: m => a < b ∨ a = b ∧ Below l m
  | _, _ => False

theorem Below.append {l m : List UInt8} (h : Below l m) (s t : List UInt8) : l ++ s < m ++ t := by
  induction l generalizing m with
  | nil => cases h
  | cons a l ih =>
    cases m with
    | nil => cases h
    | cons b m =>
      rw [List.cons_append, List.cons_append, List.cons_lt_cons_iff]
      exact h.imp_right fun ⟨same, rest⟩ => ⟨same, ih rest⟩

/-- No code begins another one, so characters compare as their codes do. -/
theorem below_utf8EncodeChar {c d : Char} (h : c < d) :
    Below (String.utf8EncodeChar c) (String.utf8EncodeChar d) := by
  have less : c.val.toNat < d.val.toNat := h
  have bound : d.val.toNat < 0x110000 := by
    have := d.valid
    rcases this with small | ⟨_, large⟩ <;> omega
  -- each division is written as one of the next, so that the digits of a code are linked
  have twice (n : Nat) : n / 4096 = n / 64 / 64 := (Nat.div_div_eq_div_mul n 64 64).symm
  have thrice (n : Nat) : n / 262144 = n / 64 / 64 / 64 := by
    rw [← twice, Nat.div_div_eq_div_mul]
  unfold String.utf8EncodeChar
  simp only [twice, thrice]
  split_ifs <;>
    simp only [Below, UInt8.lt_iff_toNat_lt, ← UInt8.toNat_inj, UInt8.toNat_ofNat', and_false,
      or_false] <;>
    omega

theorem flatMap_utf8EncodeChar_lt {cs ds : List Char} (h : cs < ds) :
    cs.flatMap String.utf8EncodeChar < ds.flatMap String.utf8EncodeChar := by
  induction h with
  | @nil d ds =>
    obtain ⟨first, rest, code⟩ := List.exists_cons_of_ne_nil (String.utf8EncodeChar_ne_nil (c := d))
    rw [List.flatMap_cons, code]
    exact List.nil_lt_cons _ _
  | rel less => exact (below_utf8EncodeChar less).append _ _
  | cons _ ih => exact List.append_left_lt ih

/-- Texts compare as their bytes do. -/
theorem utf8_lt_iff {s t : String} : utf8 s < utf8 t ↔ s < t := by
  rw [utf8_eq_flatMap, utf8_eq_flatMap]
  constructor
  · intro less
    rcases lt_trichotomy s t with h | rfl | h
    · exact h
    · exact (List.lt_irrefl _ less).elim
    · exact (List.lt_asymm less (flatMap_utf8EncodeChar_lt h)).elim
  · intro less
    exact flatMap_utf8EncodeChar_lt less

theorem utf8_le_iff {s t : String} : utf8 s ≤ utf8 t ↔ s ≤ t :=
  not_congr utf8_lt_iff

namespace ContentIndex

/-! ## Insertions -/

theorem find?_insert (index : ContentIndex) (path : String) (bytes : List UInt8) (digest : Digest) :
    (index.insert path bytes).find? digest =
      (index.find? digest).or
        (if Digest.of bytes = digest then some (Path.canonical path) else none) := by
  unfold insert
  cases held : index.find? (.of bytes) with
  | some other =>
    by_cases same : Digest.of bytes = digest
    · rw [← same, held]
      rfl
    · rw [if_neg same, Option.or_none]
  | none =>
    simp only [find?, List.lookup_append]
    by_cases same : Digest.of bytes = digest
    · simp [List.lookup, same]
    · simp [List.lookup, same, beq_eq_false_iff_ne.mpr (Ne.symm same)]

theorem find?_foldl_insert (files : List File) (index : ContentIndex) (digest : Digest) :
    (files.foldl (fun index file => index.insert file.1 file.2.toList) index).find? digest =
      (index.find? digest).or ((files.find? fun file => Digest.of file.2.toList = digest).map
        fun file => Path.canonical file.1) := by
  induction files generalizing index with
  | nil => simp
  | cons file files ih =>
    rw [List.foldl_cons, ih, find?_insert, Option.or_assoc]
    by_cases same : Digest.of file.2.toList = digest
    · rw [if_pos same, List.find?_cons_of_pos (by simpa using same)]
      rfl
    · rw [if_neg same, List.find?_cons_of_neg (by simpa using same), Option.none_or]

/-! ## Files in order -/

theorem mem_inOrder {files : List File} {file : File} : file ∈ inOrder files ↔ file ∈ files :=
  List.mem_mergeSort

theorem pairwise_inOrder (files : List File) :
    (inOrder files).Pairwise fun a b => utf8 a.1 ≤ utf8 b.1 := by
  have isLE (a b : String) : (compare a b).isLE = true ↔ a ≤ b :=
    isLE_compareOfLessAndEq String.le_antisymm String.not_le String.le_total
  have trans (a b c : File) (first : (compare a.1 b.1).isLE = true)
      (second : (compare b.1 c.1).isLE = true) : (compare a.1 c.1).isLE = true :=
    Std.TransOrd.isLE_trans first second
  have total (a b : File) : ((compare a.1 b.1).isLE || (compare b.1 a.1).isLE) = true := by
    rw [Bool.or_eq_true, isLE, isLE]
    exact String.le_total a.1 b.1
  have sorted : (inOrder files).Pairwise fun a b => (compare a.1 b.1).isLE = true :=
    List.pairwise_mergeSort trans total files
  exact sorted.imp fun {a b} h => utf8_le_iff.mpr ((isLE a.1 b.1).mp h)

/-- The files that may be icons and hold some bytes. -/
def holders (settings : Settings) (files : List File) (bytes : List UInt8) : List File :=
  files.filter fun file => isEligible settings file && file.2.toList = bytes

theorem mem_holders {settings : Settings} {files : List File} {bytes : List UInt8} {file : File} :
    file ∈ holders settings files bytes ↔
      file ∈ files ∧ isEligible settings file = true ∧ file.2.toList = bytes := by
  simp [holders]

section

variable {settings : Settings} {files : List File} {bytes : List UInt8}
  (apart : ∀ file ∈ files, isEligible settings file = true →
    Digest.of file.2.toList = Digest.of bytes → file.2.toList = bytes)

include apart

theorem lookup_ofFiles :
    (ofFiles settings files).lookup bytes =
      (((inOrder files).filter (isEligible settings)).find? fun file => file.2.toList = bytes).map
        fun file => Path.canonical file.1 := by
  have same : ((inOrder files).filter (isEligible settings)).find?
        (fun file => Digest.of file.2.toList = Digest.of bytes) =
      ((inOrder files).filter (isEligible settings)).find? fun file => file.2.toList = bytes := by
    apply List.find?_congr
    intro file member
    obtain ⟨listed, eligible⟩ := List.mem_filter.mp member
    have alike := apart file (mem_inOrder.mp listed) eligible
    exact decide_eq_decide.mpr ⟨alike, congrArg Digest.of⟩
  rw [lookup, ofFiles, find?_foldl_insert, same]
  rfl

theorem lookup_ofFiles_eq_none (unheld : holders settings files bytes = []) :
    (ofFiles settings files).lookup bytes = none := by
  rw [lookup_ofFiles apart, Option.map_eq_none_iff, List.find?_eq_none]
  intro file member holds
  obtain ⟨listed, eligible⟩ := List.mem_filter.mp member
  have held : file ∈ holders settings files bytes :=
    mem_holders.mpr ⟨mem_inOrder.mp listed, eligible, by simpa using holds⟩
  rw [unheld] at held
  cases held

/-- Of the files with some bytes the index knows the one with the smallest path. -/
theorem lookup_ofFiles_eq_some (nonempty : holders settings files bytes ≠ []) :
    ∃ file ∈ holders settings files bytes,
      (∀ other ∈ holders settings files bytes, utf8 file.1 ≤ utf8 other.1) ∧
      (ofFiles settings files).lookup bytes = some (Path.canonical file.1) := by
  have candidate {file : File} : file ∈ holders settings files bytes ↔
      file ∈ (inOrder files).filter (isEligible settings) ∧ file.2.toList = bytes := by
    rw [mem_holders, List.mem_filter, mem_inOrder, and_assoc]
  have sorted : ((inOrder files).filter (isEligible settings)).Pairwise
      fun a b => utf8 a.1 ≤ utf8 b.1 := (pairwise_inOrder files).filter _
  rw [lookup_ofFiles apart]
  cases found : ((inOrder files).filter (isEligible settings)).find?
      fun file => file.2.toList = bytes with
  | none =>
    obtain ⟨file, held⟩ := List.exists_mem_of_ne_nil _ nonempty
    obtain ⟨member, holds⟩ := candidate.mp held
    have missed := List.find?_eq_none.mp found file member
    simp [holds] at missed
  | some file =>
    obtain ⟨holds, before, behind, split, missed⟩ := List.find?_eq_some_iff_append.mp found
    have member := List.mem_of_find?_eq_some found
    refine ⟨file, candidate.mpr ⟨member, by simpa using holds⟩, ?_, rfl⟩
    intro other held
    obtain ⟨listed, equal⟩ := candidate.mp held
    rw [split] at listed sorted
    rcases List.mem_append.mp listed with early | late
    · have passed := missed other early
      simp [equal] at passed
    · rcases List.mem_cons.mp late with rfl | late
      · exact List.le_refl _
      · exact (List.pairwise_cons.mp (List.pairwise_append.mp sorted).2.1).1 other late

end

end ContentIndex

end ConfigRecovery
