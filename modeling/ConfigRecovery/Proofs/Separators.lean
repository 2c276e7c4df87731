import ConfigRecovery.Proofs.Specifiers

/-!
# Separators in specifiers

With slashes in place of its backslashes a path names the same segments, and so does a specifier
that does not start with a backslash. A backslash at the start leads nowhere, where a slash would
lead to the top; so there the two spellings name one component only from pages whose directory the path
climbs out of anyway.
-/

namespace ConfigRecovery

namespace Path

/-- A path with slashes in place of backslashes. -/
def slashed (path : String) : String := String.ofList (path.toList.map unifySeparator)

theorem toList_slashed (path : String) : (slashed path).toList = path.toList.map unifySeparator :=
  String.toList_ofList

theorem slashed_append (front back : String) :
    slashed (front ++ back) = slashed front ++ slashed back := by
  rw [slashed, String.toList_append, List.map_append, String.ofList_append, slashed, slashed]

theorem parts_slashed (path : String) : parts (slashed path).toList = parts path.toList := by
  rw [parts, toList_slashed, map_unifySeparator (not_mem_map_unifySeparator _), parts]

theorem segments_slashed (path : String) :
    segments (slashed path).toList = segments path.toList := by
  rw [segments, parts_slashed, segments]

theorem exists_rest {text front : String} {c : Char} (single : front.toList = [c])
    (head : text.toList.head? = some c) : ∃ rest, text = front ++ rest := by
  obtain ⟨rest, split⟩ := List.head?_eq_some_iff.mp head
  refine ⟨String.ofList rest, ?_⟩
  rw [← String.toList_inj, split, String.toList_append, single, String.toList_ofList]
  rfl

/-- A part that is read leaves the stack below the open segments alone, or goes up from it. -/
theorem exists_climbed (read : List Segment) : ∃ climbed ≤ read.length, ∀ stack,
    read.foldl push stack = read.foldl push [] ++ stack.drop climbed := by
  -- on the parts from the first to the last: one more stays, goes up or opens a segment
  induction read using List.reverseRecOn with
  | nil => exact ⟨0, Nat.le_refl 0, fun stack => rfl⟩
  | append_singleton read part ih =>
    obtain ⟨climbed, few, open_eq⟩ := ih
    simp only [List.foldl_append, List.foldl_cons, List.foldl_nil, List.length_append,
      List.length_singleton]
    by_cases still : part = [] ∨ part = ['.']
    · refine ⟨climbed, Nat.le_succ_of_le few, fun stack => ?_⟩
      rw [push, if_pos still, push, if_pos still, open_eq]
    · by_cases up : part = ['.', '.']
      · cases opened : read.foldl push [] with
        | nil =>
          refine ⟨climbed + 1, Nat.succ_le_succ few, fun stack => ?_⟩
          rw [push, if_neg still, if_pos up, push, if_neg still, if_pos up, open_eq, opened,
            List.nil_append, List.tail_drop]
          rfl
        | cons segment rest =>
          refine ⟨climbed, Nat.le_succ_of_le few, fun stack => ?_⟩
          rw [push, if_neg still, if_pos up, push, if_neg still, if_pos up, open_eq, opened]
          rfl
      · refine ⟨climbed, Nat.le_succ_of_le few, fun stack => ?_⟩
        rw [push, if_neg still, if_neg up, push, if_neg still, if_neg up, open_eq]
        rfl

/-- Below a directory a path names its own segments, behind what it leaves of the directory. -/
theorem exists_segments_slash (path : List Char) : ∃ climbed ≤ (parts path).length, ∀ directory,
    segments (directory ++ '/' :: path) = (segments directory).rdrop climbed ++ segments path := by
  obtain ⟨climbed, few, open_eq⟩ := exists_climbed (parts path)
  refine ⟨climbed, few, fun directory => ?_⟩
  rw [segments_slash, open_eq, List.reverse_append, ← List.rdrop_eq_reverse_drop_reverse]
  rfl

end Path

namespace PageKey

theorem ofPath_congr {a b : String} (same : Path.segments a.toList = Path.segments b.toList) :
    ofPath a = ofPath b := by
  rw [ofPath, Path.canonical_eq_iff.mpr same, ofPath]

theorem length_segments_of_ofPath_eq {a b : String} (same : ofPath a = ofPath b) :
    (Path.segments a.toList).length = (Path.segments b.toList).length := by
  rcases written_ofPath a with ⟨nothing, empty⟩ | ⟨front, last, cut, w⟩ <;>
    rcases written_ofPath b with ⟨nothing', empty'⟩ | ⟨front', last', cut', w'⟩
  · rw [nothing, nothing']
  · rw [← same] at w'
    exact (w'.name_ne_nil (by rw [empty]; rfl)).elim
  · rw [same] at w
    exact (w.name_ne_nil (by rw [empty']; rfl)).elim
  · have parts := w.parts_eq
    rw [same, w'.parts_eq] at parts
    have length := congrArg List.length parts
    rw [cut, cut']
    simpa using length.symm

/-! ## Relative paths -/

theorem relative_slashed (page : PageKey) (path : String) :
    page.relative (Path.slashed path) = page.relative path := by
  apply ofPath_congr
  rw [Text.toList_slash, Text.toList_slash, Path.segments_slash, Path.segments_slash,
    Path.parts_slashed]

theorem relative_backslash (page : PageKey) (path : String) :
    page.relative ("\\" ++ path) = page.relative path := by
  -- the separator in front makes an empty part, which is skipped
  have cut : Path.parts ("\\" ++ path).toList = [] :: Path.parts path.toList := by
    rw [String.toList_append]
    exact Path.parts_slash [] path.toList
  apply ofPath_congr
  rw [Text.toList_slash, Text.toList_slash, Path.segments_slash, Path.segments_slash, cut,
    List.foldl_cons]
  rfl

/-- A relative path leads where it would from the top just when it climbs out of the directory. -/
theorem relative_eq_ofPath_iff {page : PageKey} {path : String} :
    page.relative path = ofPath path ↔
      Path.segments (page.directory ++ "/" ++ path).toList = Path.segments path.toList := by
  constructor
  · intro same
    have length := length_segments_of_ofPath_eq same
    obtain ⟨climbed, -, below⟩ := Path.exists_segments_slash path.toList
    rw [Text.toList_slash, below, List.length_append] at length
    rw [Text.toList_slash, below, List.length_eq_zero_iff.mp (Nat.add_eq_right.mp length),
      List.nil_append]
  · exact fun same => ofPath_congr same

/-! ## Specifiers without a scheme -/

section

variable {specifier : String} (plain : ¬"plugin:".toList <:+: specifier.toList)

include plain

theorem expanded_of_plain : expanded specifier = specifier.toList := by
  have absent : ¬pluginScheme.toList <:+: specifier.toList := by
    intro found
    have scheme : "plugin:".toList <:+: pluginScheme.toList := ⟨[], "//".toList, by decide⟩
    exact plain (scheme.trans found)
  have split := Text.replaceFirst_split pluginScheme.toList pluginRoot.toList specifier.toList
  rcases split with ⟨before, after, whole, -⟩ | ⟨-, same⟩
  · exact (absent ⟨before, after, whole.symm⟩).elim
  · exact same

theorem plain_slashed : ¬"plugin:".toList <:+: (Path.slashed specifier).toList := by
  rintro ⟨before, after, whole⟩
  rw [Path.toList_slashed, List.append_assoc, eq_comm, List.map_eq_append_iff] at whole
  obtain ⟨front, rest, split, -, whole⟩ := whole
  obtain ⟨scheme, back, rfl, here, -⟩ := List.map_eq_append_iff.mp whole
  -- no slash has come into the scheme, so it stands there before
  have backslash : '\\' ∉ scheme := by
    intro member
    have slash : '/' ∈ "plugin:".toList :=
      here ▸ List.mem_map_of_mem (f := Path.unifySeparator) member
    simp at slash
  rw [Path.map_unifySeparator backslash] at here
  exact plain ⟨front, back, by rw [split, here, List.append_assoc]⟩

theorem component_of_down (down : specifier.toList.head? ≠ some '/') (page : PageKey) :
    page.component specifier = page.relative specifier := by
  rw [component_eq, expanded_of_plain plain, Path.follow_of_head down, ← Text.toList_slash]
  rfl

theorem component_of_top {rest : String} (top : specifier = "/" ++ rest) (page : PageKey) :
    page.component specifier = ofPath rest := by
  have start : specifier.toList = '/' :: rest.toList := by simp [top]
  rw [component_eq, expanded_of_plain plain, start, Path.follow_slash]
  rfl

/-- A backslash at the start is a part of its own, and the slash in its place leads to the top. -/
theorem component_backslash {rest : String} (start : specifier = "\\" ++ rest) (page : PageKey) :
    page.component specifier = page.relative rest ∧
      page.component (Path.slashed specifier) = ofPath rest := by
  have down : specifier.toList.head? ≠ some '/' := by simp [start]
  have top : Path.slashed specifier = "/" ++ Path.slashed rest := by
    rw [start, Path.slashed_append]
    rfl
  constructor
  · rw [component_of_down plain down, start, relative_backslash]
  · rw [component_of_top (plain_slashed plain) top]
    exact ofPath_congr (Path.segments_slashed rest)

theorem component_slashed_of_head (start : specifier.toList.head? ≠ some '\\') (page : PageKey) :
    page.component (Path.slashed specifier) = page.component specifier := by
  by_cases top : specifier.toList.head? = some '/'
  · obtain ⟨rest, here⟩ : ∃ rest, specifier = "/" ++ rest := Path.exists_rest (by decide) top
    have there : Path.slashed specifier = "/" ++ Path.slashed rest := by
      rw [here, Path.slashed_append]
      rfl
    rw [component_of_top (plain_slashed plain) there, component_of_top plain here]
    exact ofPath_congr (Path.segments_slashed _)
  · have down : (Path.slashed specifier).toList.head? ≠ some '/' := by
      rw [Path.toList_slashed, List.head?_map, Ne, Option.map_eq_some_iff]
      rintro ⟨c, first, unified⟩
      unfold Path.unifySeparator at unified
      split at unified
      · rename_i backslash
        exact start (backslash ▸ first)
      · exact top (unified ▸ first)
    rw [component_of_down (plain_slashed plain) down, component_of_down plain top, relative_slashed]

theorem component_slashed_of_backslash {rest : String} (start : specifier = "\\" ++ rest)
    (page : PageKey) : page.component (Path.slashed specifier) = page.component specifier ↔
      Path.segments (page.directory ++ "/" ++ rest).toList = Path.segments rest.toList := by
  obtain ⟨below, top⟩ := component_backslash plain start page
  rw [below, top, eq_comm, relative_eq_ofPath_iff]

end

theorem exists_deep (depth : Nat) :
    ∃ raw, depth < (Path.segments (ofPath raw).directory.toList).length := by
  let written : List Path.Segment := List.replicate (depth + 2) ['d']
  have ordinary : ∀ segment ∈ written, Path.Ordinary segment := by
    intro segment member
    rw [List.eq_of_mem_replicate member]
    constructor <;> decide
  refine ⟨String.ofList (Path.render written), ?_⟩
  rw [segments_directory, String.toList_ofList, Path.segments_render ordinary]
  simp [written]

/--
A specifier without a scheme names the same component with slashes in place of its backslashes,
from every page just when it does not start with a backslash. One that does is read in the directory
of the page, and from the top with the slash instead. So the two components are one just from the
pages whose directory the rest of the specifier climbs out of, and from all pages at the top.
-/
theorem component_slashed_iff {specifier : String}
    (plain : ¬"plugin:".toList <:+: specifier.toList) :
    (∀ page : PageKey, page.component (Path.slashed specifier) = page.component specifier ↔
      ∀ rest, specifier = "\\" ++ rest →
        Path.segments (page.directory ++ "/" ++ rest).toList = Path.segments rest.toList) ∧
    ((∀ raw, (ofPath raw).component (Path.slashed specifier) = (ofPath raw).component specifier) ↔
      specifier.toList.head? ≠ some '\\') ∧
    (∀ page : PageKey, page.directory = "" →
      page.component (Path.slashed specifier) = page.component specifier) ∧
    ∀ (page : PageKey) rest, specifier = "\\" ++ rest →
      page.component specifier = page.relative rest ∧
        page.component (Path.slashed specifier) = ofPath rest := by
  have cases_head : specifier.toList.head? ≠ some '\\' ∨ ∃ rest, specifier = "\\" ++ rest := by
    by_cases start : specifier.toList.head? = some '\\'
    · exact .inr (Path.exists_rest (by decide) start)
    · exact .inl start
  have same_iff (page : PageKey) :
      page.component (Path.slashed specifier) = page.component specifier ↔
        ∀ rest, specifier = "\\" ++ rest →
          Path.segments (page.directory ++ "/" ++ rest).toList = Path.segments rest.toList := by
    constructor
    · exact fun same rest start => (component_slashed_of_backslash plain start page).mp same
    · intro climbs
      rcases cases_head with other | ⟨rest, start⟩
      · exact component_slashed_of_head plain other page
      · exact (component_slashed_of_backslash plain start page).mpr (climbs rest start)
  refine ⟨same_iff, ?_, ?_, fun page rest start => component_backslash plain start page⟩
  · constructor
    · intro same
      rcases cases_head with other | ⟨rest, start⟩
      · exact other
      · -- a directory that is deeper than the specifier is long is not climbed out of
        obtain ⟨climbed, few, below⟩ := Path.exists_segments_slash rest.toList
        obtain ⟨raw, deep⟩ := exists_deep (Path.parts rest.toList).length
        have climbs := (same_iff (ofPath raw)).mp (same raw) rest start
        have length := congrArg List.length climbs
        rw [Text.toList_slash, below, List.length_append, List.rdrop, List.length_take] at length
        omega
    · exact fun other raw => component_slashed_of_head plain other (ofPath raw)
  · intro page top
    refine (same_iff page).mpr fun rest start => ?_
    rw [top, Text.toList_slash, Path.segments_slash]
    rfl

/-- A backslash inside a specifier, and one in front of a parent that leaves the directory. -/
theorem component_slashed_parent :
    ¬"plugin:".toList <:+: "..\\c\\d".toList ∧ ¬"plugin:".toList <:+: "\\..\\x".toList ∧
      (∀ raw, (ofPath raw).component "../c/d" = (ofPath raw).component "..\\c\\d") ∧
      (ofPath "a/b").component "/../x" = (ofPath "a/b").component "\\..\\x" ∧
      (ofPath "a/b/c").component "\\..\\x" = ⟨"a/x"⟩ := by
  have inside : ¬"plugin:".toList <:+: "..\\c\\d".toList := by decide
  have front : ¬"plugin:".toList <:+: "\\..\\x".toList := by decide
  have start : "\\..\\x" = "\\" ++ "..\\x" := by decide
  obtain ⟨-, everywhere, -⟩ := component_slashed_iff inside
  obtain ⟨there, -, -, below⟩ := component_slashed_iff front
  refine ⟨inside, front, everywhere.mpr (by decide), (there (ofPath "a/b")).mpr ?_, ?_⟩
  · intro rest split
    obtain rfl := (String.append_right_inj "\\").mp (split.symm.trans start)
    decide
  · exact (below (ofPath "a/b/c") "..\\x" start).1.trans (by decide)

/-- Below a directory a backslash at the start names another component than a slash. -/
theorem component_leading_backslash :
    let page := ofPath "pages/index"
    ¬"plugin:".toList <:+: "\\comp\\x".toList ∧ Path.slashed "\\comp\\x" = "/comp/x" ∧
      page.component "\\comp\\x" = ⟨"pages/comp/x"⟩ ∧ page.component "/comp/x" = ⟨"comp/x"⟩ ∧
      page.component "\\comp\\x" ≠ page.component (Path.slashed "\\comp\\x") := by
  decide

end PageKey

end ConfigRecovery
