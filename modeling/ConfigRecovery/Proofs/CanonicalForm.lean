import ConfigRecovery.Proofs.Segments

/-!
# The canonical form of a path

A path is canonical if it is written with slashes only and is empty or has nothing but names between
them. `canonical` finds the one canonical path that names the same segments. It may run on a
directory first: a path below the directory means the same in either spelling of it.
-/

namespace ConfigRecovery.Path

/-- A path without backslashes that is empty or has only names between its slashes. -/
structure IsCanonical (path : String) : Prop where
  no_backslash : '\\' ∉ path.toList
  named : path = "" ∨ ∀ segment ∈ Text.splitOn '/' path.toList,
    segment ≠ [] ∧ segment ≠ ['.'] ∧ segment ≠ ['.', '.']

theorem isCanonical_iff {path : String} : IsCanonical path ↔
    ∃ written, (∀ segment ∈ written, Ordinary segment) ∧ path.toList = render written := by
  constructor
  · rintro ⟨backslash, rfl | named⟩
    · exact ⟨[], by simp, rfl⟩
    · refine ⟨Text.splitOn '/' path.toList, fun segment listed => ?_, ?_⟩
      · obtain ⟨nonempty, dot, parent⟩ := named segment listed
        refine ⟨nonempty, dot, parent, ?_, ?_⟩
        · exact fun slash => (Text.of_mem_splitOn listed slash).2 rfl
        · exact fun inside => backslash (Text.of_mem_splitOn listed inside).1
      · rw [render, Text.join_eq, Text.splitOn_eq, List.intercalate_splitOn]
  · rintro ⟨written, ordinary, whole⟩
    have backslash : '\\' ∉ path.toList := by
      rw [whole]
      exact no_backslash_render fun segment listed => (ordinary segment listed).no_backslash
    refine ⟨backslash, ?_⟩
    by_cases empty : written = []
    · left
      rw [← String.toList_inj, whole, empty]
      rfl
    · right
      have read : parts path.toList = written := by
        rw [whole]
        exact parts_render empty fun segment listed =>
          ⟨(ordinary segment listed).no_slash, (ordinary segment listed).no_backslash⟩
      rw [parts, map_unifySeparator backslash] at read
      rw [read]
      exact fun segment listed =>
        ⟨(ordinary segment listed).ne_nil, (ordinary segment listed).ne_dot,
          (ordinary segment listed).ne_parent⟩

theorem canonical_eq_self_iff_isCanonical {raw : String} : canonical raw = raw ↔ IsCanonical raw := by
  rw [canonical_eq_self_iff, isCanonical_iff]

theorem isCanonical_canonical (raw : String) : IsCanonical (canonical raw) :=
  canonical_eq_self_iff_isCanonical.mp (canonical_canonical raw)

/-! ## Paths below a directory -/

/-- A slash separates the parts of a directory from those of a path below it. -/
theorem parts_slash (directory path : List Char) :
    parts (directory ++ '/' :: path) = parts directory ++ parts path := by
  have kept : unifySeparator '/' = '/' := rfl
  rw [parts, List.map_append, List.map_cons, kept, Text.splitOn_eq, List.splitOn_append_cons_self,
    ← Text.splitOn_eq, ← Text.splitOn_eq, ← parts, ← parts]

/-- The parts of a path below a directory go on from the segments of the directory. -/
theorem segments_slash (directory path : List Char) :
    segments (directory ++ '/' :: path) =
      ((parts path).foldl push (segments directory).reverse).reverse := by
  rw [segments, parts_slash, List.foldl_append, segments, List.reverse_reverse]

theorem canonical_slash (directory path : String) :
    canonical (directory ++ "/" ++ path) = canonical (canonical directory ++ "/" ++ path) := by
  rw [canonical_eq_iff, Text.toList_slash, Text.toList_slash, segments_slash, segments_slash,
    segments_canonical]

/--
The canonical path of a raw one is canonical, and is the only one that names the same segments. So
canonical paths are just the paths that stay as they are, and just those that come out, and a
directory can be made canonical before a path below it is.
-/
theorem canonical_unique_form (raw path : String) :
    IsCanonical (canonical raw) ∧
    (canonical raw = raw ↔ IsCanonical raw) ∧
    canonical (canonical raw) = canonical raw ∧
    (IsCanonical path ↔ ∃ spelling, canonical spelling = path) ∧
    (canonical raw = path ↔ IsCanonical path ∧ segments path.toList = segments raw.toList) ∧
    canonical (raw ++ "/" ++ path) = canonical (canonical raw ++ "/" ++ path) := by
  refine ⟨isCanonical_canonical raw, canonical_eq_self_iff_isCanonical, canonical_canonical raw,
    ?_, ?_, canonical_slash raw path⟩
  · constructor
    · exact fun form => ⟨path, canonical_eq_self_iff_isCanonical.mpr form⟩
    · rintro ⟨spelling, rfl⟩
      exact isCanonical_canonical spelling
  · constructor
    · rintro rfl
      exact ⟨isCanonical_canonical raw, segments_canonical raw⟩
    · rintro ⟨form, same⟩
      rw [← canonical_eq_self_iff_isCanonical.mpr form, canonical_eq_iff, same]

/-- A parent above the top is dropped before the path goes down again. -/
example : canonical "..\\..//a/./b/../c" = "a/c" ∧ canonical "a/.." = "" := by
  decide

end ConfigRecovery.Path
