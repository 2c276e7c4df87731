import ConfigRecovery.Proofs.PageFiles
import ConfigRecovery.Proofs.Slice

/-!
# Extensions

An extension is cut off at the last dot of the final segment, unless that is where the segment
starts. So the directory part of a path stays, and so does something of the final segment. The cut
can be made by bytes: it always falls between two characters.
-/

namespace ConfigRecovery

namespace Text

/-- How many bytes are in front of the last occurrence of a character. -/
def lastOffset? (c : Char) : List Char → Option Nat
  | [] => none
  | d :: rest =>
    match lastOffset? c rest with
    | some offset => some (d.utf8Size + offset)
    | none => if d = c then some 0 else none

theorem lastOffset?_cases (c : Char) (text : List Char) :
    (c ∉ text ∧ lastOffset? c text = none) ∨
    ∃ front back, text = front ++ c :: back ∧ c ∉ back ∧
      lastOffset? c text = some (String.ofList front).utf8ByteSize := by
  induction text with
  | nil => exact .inl ⟨List.not_mem_nil, rfl⟩
  | cons d rest ih =>
    rcases ih with ⟨absent, unfound⟩ | ⟨front, back, rfl, last, offset⟩
    · by_cases here : d = c
      · refine .inr ⟨[], rest, by rw [here]; rfl, absent, ?_⟩
        rw [lastOffset?, unfound, if_pos here]
        rfl
      · refine .inl ⟨by simp [absent, Ne.symm here], ?_⟩
        rw [lastOffset?, unfound, if_neg here]
    · refine .inr ⟨d :: front, back, rfl, last, ?_⟩
      rw [lastOffset?, offset, utf8ByteSize_ofList_cons]

end Text

namespace Path

/-! ## The final segment -/

/-- A path up to its last slash, with the slash. -/
def folder (path : String) : String := String.ofList (path.toList.rdropWhile (· ≠ '/'))

/-- What stands behind the last slash of a path. -/
def finalSegment (path : String) : String := String.ofList (path.toList.rtakeWhile (· ≠ '/'))

theorem folder_append_finalSegment (path : String) : folder path ++ finalSegment path = path := by
  rw [folder, finalSegment, ← String.ofList_append, List.rdropWhile_append_rtakeWhile,
    String.ofList_toList]

theorem not_mem_finalSegment (path : String) : '/' ∉ (finalSegment path).toList := by
  rw [finalSegment, String.toList_ofList]
  intro member
  simpa using List.mem_rtakeWhile_imp member

theorem not_slash {text : List Char} (slash : '/' ∉ text) :
    ∀ c ∈ text.reverse, decide (c ≠ '/') = true := by
  intro c member
  exact decide_eq_true fun equal => slash (equal ▸ List.mem_reverse.mp member)

theorem folder_append {front back : String} (slash : '/' ∉ back.toList) :
    folder (front ++ back) = folder front := by
  rw [folder, folder, String.toList_append, List.rdropWhile, List.reverse_append,
    List.dropWhile_append_of_pos (not_slash slash)]
  rfl

theorem finalSegment_append {front back : String} (slash : '/' ∉ back.toList) :
    finalSegment (front ++ back) = finalSegment front ++ back := by
  rw [finalSegment, finalSegment, String.toList_append, List.rtakeWhile, List.reverse_append,
    List.takeWhile_append_of_pos (not_slash slash), List.reverse_append, List.reverse_reverse,
    String.ofList_append, String.ofList_toList]
  rfl

theorem folder_folder (path : String) : folder (folder path) = folder path := by
  rw [folder, folder, String.toList_ofList, List.rdropWhile_idempotent]

theorem finalSegment_folder (path : String) : finalSegment (folder path) = "" := by
  rw [finalSegment, folder, String.toList_ofList, ← String.toList_inj, String.toList_ofList]
  exact List.rtakeWhile_eq_nil_iff.mpr fun nonempty => List.rdropWhile_last_not _ _ nonempty

theorem ends_of_finalSegment_eq {path : String} (empty : finalSegment path = "") :
    path = "" ∨ path.toList.getLast? = some '/' := by
  rw [← String.toList_inj, finalSegment, String.toList_ofList] at empty
  by_cases blank : path = ""
  · exact .inl blank
  · have nonempty : path.toList ≠ [] := by rwa [Ne, String.toList_eq_nil_iff]
    have slash := List.rtakeWhile_eq_nil_iff.mp empty nonempty
    rw [List.getLast?_eq_some_getLast nonempty]
    exact .inr (congrArg _ (by simpa using slash))

/-! ## Cuts -/

/-- The final segment of a path has an extension behind a name. -/
structure Cut (path name extension : String) : Prop where
  finalSegment_eq : finalSegment path = name ++ "." ++ extension
  name_ne : name ≠ ""
  no_dot : '.' ∉ extension.toList

namespace Cut

variable {path name extension : String}

theorem no_slash (cut : Cut path name extension) :
    '/' ∉ name.toList ∧ '/' ∉ extension.toList := by
  have slash := not_mem_finalSegment path
  rw [cut.finalSegment_eq] at slash
  simpa using slash

theorem split (cut : Cut path name extension) :
    path = folder path ++ name ++ "." ++ extension := by
  conv_lhs => rw [← folder_append_finalSegment path, cut.finalSegment_eq]
  simp only [String.append_assoc]

theorem getLast?_ne (cut : Cut path name extension) :
    (folder path ++ name).toList.getLast? ≠ some '/' := by
  have nonempty : name.toList ≠ [] := by
    rw [Ne, String.toList_eq_nil_iff]
    exact cut.name_ne
  rw [String.toList_append, List.getLast?_append_of_ne_nil _ nonempty]
  exact fun slash => cut.no_slash.1 (List.mem_of_getLast? slash)

theorem front_ne (cut : Cut path name extension) : folder path ++ name ≠ "" := by
  rw [Ne, String.append_eq_empty_iff]
  exact fun empty => cut.name_ne empty.2

theorem cutExtension_eq (cut : Cut path name extension) :
    cutExtension path.toList = some ((folder path ++ name).toList, extension.toList) := by
  refine cutExtension_eq_some_iff.mpr ⟨?_, cut.no_dot, cut.no_slash.2, ?_, cut.getLast?_ne⟩
  · conv_lhs => rw [cut.split]
    simp
  · exact mt String.toList_eq_nil_iff.mp cut.front_ne

theorem extension?_eq (cut : Cut path name extension) : extension? path = some extension := by
  rw [extension?, cut.cutExtension_eq, Option.map_some, String.ofList_toList]

theorem stem_eq (cut : Cut path name extension) : stem path = folder path ++ name := by
  rw [← String.toList_inj, toList_stem, bare_of_cut cut.cutExtension_eq]

theorem whole (cut : Cut path name extension) : path = stem path ++ "." ++ extension := by
  rw [cut.stem_eq, ← cut.split]

theorem utf8ByteSize_eq (cut : Cut path name extension) :
    path.utf8ByteSize = (stem path).utf8ByteSize + (extension.utf8ByteSize + 1) := by
  have dot : ".".utf8ByteSize = 1 := by decide
  conv_lhs => rw [cut.whole, String.utf8ByteSize_append, String.utf8ByteSize_append, dot]
  omega

theorem folder_stem (cut : Cut path name extension) : folder (stem path) = folder path := by
  rw [cut.stem_eq, folder_append cut.no_slash.1, folder_folder]

theorem finalSegment_stem (cut : Cut path name extension) : finalSegment (stem path) = name := by
  rw [cut.stem_eq, finalSegment_append cut.no_slash.1, finalSegment_folder, String.empty_append]

theorem mem_tail (cut : Cut path name extension) : '.' ∈ (finalSegment path).toList.tail := by
  obtain ⟨c, rest, named⟩ := List.exists_cons_of_ne_nil
    (mt String.toList_eq_nil_iff.mp cut.name_ne)
  rw [cut.finalSegment_eq, String.toList_append, String.toList_append, named]
  simp

end Cut

theorem exists_cut {path extension : String} (held : extension? path = some extension) :
    ∃ name, Cut path name extension := by
  obtain ⟨⟨front, back⟩, cut, rfl⟩ := Option.map_eq_some_iff.mp held
  obtain ⟨whole, noDot, noSlash, nonempty, ends⟩ := cutExtension_eq_some_iff.mp cut
  have split : path = String.ofList front ++ String.ofList ('.' :: back) := by
    rw [← String.ofList_append, ← whole, String.ofList_toList]
  refine ⟨finalSegment (String.ofList front), ?_, ?_, by simpa using noDot⟩
  · rw [split, finalSegment_append (by simpa using noSlash), String.append_assoc]
    congr 1
    rw [← String.toList_inj]
    simp
  · intro empty
    rcases ends_of_finalSegment_eq empty with nothing | slash
    · exact nonempty (by simpa using nothing)
    · exact ends (by simpa using slash)

/-! ## Cuts by bytes -/

/-- The extension as a slice of the final segment; the outer option says if the slice exists. -/
def sliceExtension (path : String) : Option (Option String) :=
  match Text.lastOffset? '.' (finalSegment path).toList with
  | none => some none
  | some offset =>
    if offset = 0 then some none
    else (Text.slice? (finalSegment path) (offset + 1) (finalSegment path).utf8ByteSize).map some

/-- The path without the bytes of the extension and of the dot. -/
def sliceStem (path : String) : Option String :=
  (sliceExtension path).bind fun
    | none => some path
    | some extension => Text.slice? path 0 (path.utf8ByteSize - (extension.utf8ByteSize + 1))

theorem Cut.slice?_stem {path name extension : String} (cut : Cut path name extension) :
    Text.slice? path 0 (path.utf8ByteSize - (extension.utf8ByteSize + 1)) = some (stem path) := by
  rw [Text.slice?_eq_some_iff, cut.utf8ByteSize_eq, Nat.add_sub_cancel_right]
  refine ⟨"", "." ++ extension, ?_, rfl, by rw [String.empty_append]⟩
  conv_lhs => rw [cut.whole]
  simp only [String.append_assoc, String.empty_append]

/-- A path has a cut, which is found by bytes, or no dot behind the start of its final segment. -/
theorem no_dot_or_cut (path : String) :
    ('.' ∉ (finalSegment path).toList.tail ∧ sliceExtension path = some none) ∨
    ∃ name extension, Cut path name extension ∧ sliceExtension path = some (some extension) := by
  rcases Text.lastOffset?_cases '.' (finalSegment path).toList with
    ⟨absent, offset⟩ | ⟨front, back, split, noDot, offset⟩
  · exact .inl ⟨fun member => absent (List.mem_of_mem_tail member), by rw [sliceExtension, offset]⟩
  · -- at the start of the segment a dot hides the file, and no name is in front of it
    cases front with
    | nil =>
      refine .inl ⟨by rwa [split], ?_⟩
      simp [sliceExtension, offset]
    | cons c front =>
      have named : finalSegment path = String.ofList (c :: front) ++ "." ++ String.ofList back := by
        rw [← String.toList_inj, split]
        simp
      have behind : Text.slice? (finalSegment path) ((String.ofList (c :: front)).utf8ByteSize + 1)
          (finalSegment path).utf8ByteSize = some (String.ofList back) := by
        refine Text.slice?_eq_some_iff.mpr ⟨String.ofList (c :: front) ++ ".", "", ?_, ?_, ?_⟩
        · rw [named, String.append_empty]
        · rw [String.utf8ByteSize_append]
          rfl
        · rw [named]
      have positive : (String.ofList (c :: front)).utf8ByteSize ≠ 0 := by
        have one := c.utf8Size_pos
        rw [Text.utf8ByteSize_ofList_cons]
        omega
      refine .inr ⟨_, _, ⟨named, by simp, by simpa using noDot⟩, ?_⟩
      simp only [sliceExtension, offset, if_neg positive, behind, Option.map_some]

theorem stem_eq_self_iff {path : String} : stem path = path ↔ extension? path = none := by
  rw [← String.toList_inj, toList_stem, bare_eq_self_iff, extension?, Option.map_eq_none_iff]

theorem sliceExtension_eq (path : String) : sliceExtension path = some (extension? path) := by
  rcases no_dot_or_cut path with ⟨noDot, sliced⟩ | ⟨name, extension, cut, sliced⟩
  · cases held : extension? path with
    | none => exact sliced
    | some extension =>
      obtain ⟨name, cut⟩ := exists_cut held
      exact (noDot cut.mem_tail).elim
  · rw [sliced, cut.extension?_eq]

theorem sliceStem_eq (path : String) : sliceStem path = some (stem path) := by
  rw [sliceStem, sliceExtension_eq, Option.bind_some]
  cases held : extension? path with
  | none => exact congrArg some (stem_eq_self_iff.mpr held).symm
  | some extension =>
    obtain ⟨name, cut⟩ := exists_cut held
    exact cut.slice?_stem

/--
An extension is what stands behind the last dot of the final segment, with a name in front of the
dot. The stem keeps the name and the folder, and is the path itself if there is no extension, which
is when a dot stands nowhere but at the start of the final segment. Both are found by bytes as well,
by slices that always exist. The configuration file of a path ends as such a file does, and is its
own configuration file.
-/
theorem stem_cuts_name (path : String) :
    (∀ extension, extension? path = some extension →
      '.' ∉ extension.toList ∧ '/' ∉ extension.toList ∧ path = stem path ++ "." ++ extension ∧
      stem path ≠ "" ∧ (stem path).toList.getLast? ≠ some '/' ∧ folder (stem path) = folder path ∧
      finalSegment path = finalSegment (stem path) ++ "." ++ extension ∧
      finalSegment (stem path) ≠ "" ∧ extension.utf8ByteSize + 1 ≤ path.utf8ByteSize) ∧
    (extension? path = none → stem path = path ∧ '.' ∉ (finalSegment path).toList.tail) ∧
    sliceExtension path = some (extension? path) ∧ sliceStem path = some (stem path) ∧
    configFile path ≠ "" ∧ (∃ front, configFile path = front ++ ".json") ∧
    configFile (configFile path) = configFile path := by
  refine ⟨?_, ?_, sliceExtension_eq path, sliceStem_eq path, configFile_ne_empty path,
    isConfigFile_iff.mp (isConfigFile_configFile path), configFile_configFile path⟩
  · intro extension held
    obtain ⟨name, cut⟩ := exists_cut held
    refine ⟨cut.no_dot, cut.no_slash.2, cut.whole, ?_, ?_, cut.folder_stem, ?_, ?_, ?_⟩
    · rw [cut.stem_eq]
      exact cut.front_ne
    · rw [cut.stem_eq]
      exact cut.getLast?_ne
    · rw [cut.finalSegment_stem]
      exact cut.finalSegment_eq
    · rw [cut.finalSegment_stem]
      exact cut.name_ne
    · rw [cut.utf8ByteSize_eq]
      exact Nat.le_add_left _ _
  · intro uncut
    refine ⟨stem_eq_self_iff.mpr uncut, ?_⟩
    rcases no_dot_or_cut path with ⟨noDot, -⟩ | ⟨name, extension, cut, -⟩
    · exact noDot
    · cases uncut.symm.trans cut.extension?_eq

/-- Characters of several bytes, dots in the folder, a dot at the end and a hidden file. -/
theorem stem_cuts_name_hidden :
    let path := "v1.2/é.ü.ß"
    let hidden := "v1.2/.é"
    (extension? path = some "ß" ∧ path = stem path ++ "." ++ "ß" ∧ sliceStem path = some "v1.2/é.ü" ∧
      folder (stem path) = "v1.2/") ∧
    extension? "a." = some "" ∧ finalSegment (stem "a.") ≠ "" ∧
    (extension? hidden = none ∧ stem hidden = hidden) := by
  intro path hidden
  have long : extension? path = some "ß" := by decide
  have bare : extension? "a." = some "" := by decide
  have uncut : extension? hidden = none := by decide
  obtain ⟨cut, -, -, stemmed, -⟩ := stem_cuts_name path
  obtain ⟨-, -, whole, -, -, same, -⟩ := cut "ß" long
  obtain ⟨-, -, -, -, -, -, -, named, -⟩ := (stem_cuts_name "a.").1 "" bare
  refine ⟨⟨long, whole, stemmed.trans (by decide), same.trans (by decide)⟩, bare, named, uncut, ?_⟩
  exact ((stem_cuts_name hidden).2.1 uncut).1

end Path

end ConfigRecovery
