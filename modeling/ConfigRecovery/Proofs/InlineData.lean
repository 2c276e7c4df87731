import ConfigRecovery.Proofs.ContentIndex
import ConfigRecovery.Proofs.Sextets

/-!
# Inline data

Inline data finds a file just when it is the padded text of the file's bytes, broken up by blanks
wherever one likes.
-/

namespace ConfigRecovery.ContentIndex

def blanks : List Char := [' ', '\t', '\n', '\x0c', '\r']

theorem isBlank_iff {c : Char} : isBlank c = true ↔ c ∈ blanks := by
  simp [isBlank, blanks, or_assoc]

/-- The data is the text with blanks put in. -/
inductive Wrapped : List Char → List Char → Prop where
  | nil : Wrapped [] []
  | blank {c : Char} {text data : List Char} (blank : c ∈ blanks) (rest : Wrapped text data) :
      Wrapped text (c :: data)
  | char (c : Char) {text data : List Char} (rest : Wrapped text data) :
      Wrapped (c :: text) (c :: data)

theorem Wrapped.filter_eq {text data : List Char} (wrapped : Wrapped text data)
    (plain : ∀ c ∈ text, c ∉ blanks) : data.filter (· ∉ blanks) = text := by
  induction wrapped with
  | nil => rfl
  | blank blank rest ih => simpa [blank] using ih plain
  | char c rest ih =>
    obtain ⟨here, behind⟩ := List.forall_mem_cons.mp plain
    simpa [here] using ih behind

theorem not_blank_of_standard {bytes : List UInt8} {text : List Char}
    (standard : Base64.Standard bytes text) : ∀ c ∈ text, c ∉ blanks := by
  obtain ⟨digits, zeros, fills, -, -, rfl, -, -⟩ := standard
  have letters : ∀ digit : Fin Base64.alphabet.length, Base64.alphabet.get digit ∉ blanks := by
    decide
  intro c member
  rcases List.mem_append.mp member with letter | fill
  · obtain ⟨digit, -, rfl⟩ := List.mem_map.mp letter
    exact letters digit
  · rw [List.eq_of_mem_replicate fill]
    decide

variable (index : ContentIndex)

theorem lookupInline_eq (data : String) :
    index.lookupInline data =
      (Base64.decode (data.toList.filter (· ∉ blanks))).bind index.lookup := by
  have same : (fun c => !isBlank c) = fun c => decide (c ∉ blanks) := by
    funext c
    rw [Bool.eq_iff_iff, Bool.not_eq_true', ← Bool.not_eq_true, isBlank_iff, decide_eq_true_eq]
  rw [lookupInline, same]
  rfl

/--
Inline data is looked up as the bytes whose padded text it is when its blanks are left out, and
what is no such text finds nothing. Every list of bytes has one such text.
-/
theorem lookupInline_wrapped :
    (∀ bytes, ∃! text, Base64.Standard bytes text) ∧
    (∀ bytes text (data : String), Base64.Standard bytes text → Wrapped text data.toList →
      index.lookupInline data = index.lookup bytes) ∧
    ∀ (data path : String), index.lookupInline data = some path →
      ∃ bytes, Base64.Standard bytes (data.toList.filter (· ∉ blanks)) ∧
        index.lookup bytes = some path := by
  refine ⟨?_, ?_, ?_⟩
  · intro bytes
    refine ⟨Base64.encode bytes, Base64.encode_standard bytes, ?_⟩
    exact fun text standard => Base64.standard_iff.mp standard
  · intro bytes text data standard wrapped
    rw [lookupInline_eq, wrapped.filter_eq (not_blank_of_standard standard),
      Base64.standard_iff.mp standard, Base64.decode_encode, Option.bind_some]
  · intro data path found
    rw [lookupInline_eq, Option.bind_eq_some_iff] at found
    obtain ⟨bytes, read, held⟩ := found
    rw [Base64.decode_eq_some_iff] at read
    exact ⟨bytes, Base64.standard_iff.mpr read, held⟩

/-- Blanks between the characters of a group and within its fill. -/
theorem lookupInline_wrapped_fill :
    (empty.insert "./img/a.png" [104]).lookupInline " a\tA\r\n=\x0c= " = some "img/a.png" := by
  have text : Base64.Standard [104] ['a', 'A', '=', '='] := Base64.encode_standard [104]
  have wrapped : Wrapped ['a', 'A', '=', '='] " a\tA\r\n=\x0c= ".toList :=
    .blank (by decide) (.char _ (.blank (by decide) (.char _ (.blank (by decide) (.blank (by decide)
      (.char _ (.blank (by decide) (.char _ (.blank (by decide) .nil)))))))))
  rw [(lookupInline_wrapped _).2.1 _ _ _ text wrapped, lookup, find?_insert, if_pos rfl]
  decide

end ConfigRecovery.ContentIndex
