import ConfigRecovery.Package.EntryPage
import ConfigRecovery.Proofs.Icons
import ConfigRecovery.Proofs.Partition
import ConfigRecovery.Proofs.Segments

/-!
# Names of pages

A page key is a canonical path whose last segment lost its extension. What is left of that segment
may have an extension still, or be `.` or `..`; then the key reads as another path. All other keys
are read as themselves wherever a page is named.
-/

namespace ConfigRecovery

namespace Path

/-! ## Extensions -/

/-- A path is cut at the last dot of its last segment, which must not be the start of it. -/
theorem cutExtension_eq_some_iff {path front extension : List Char} :
    cutExtension path = some (front, extension) ↔
      path = front ++ '.' :: extension ∧ '.' ∉ extension ∧ '/' ∉ extension ∧ front ≠ [] ∧
        front.getLast? ≠ some '/' := by
  have name_iff {c : Char} : isNameChar c = true ↔ c ≠ '.' ∧ c ≠ '/' := by simp [isNameChar]
  constructor
  · intro cut
    have whole := List.takeWhile_append_dropWhile (p := isNameChar) (l := path.reverse)
    have names : ∀ c ∈ path.reverse.takeWhile isNameChar, isNameChar c = true :=
      fun c => List.mem_takeWhile_imp
    unfold cutExtension at cut
    split at cut
    · rename_i c rest dropped
      split at cut
      · cases cut
      · rename_i inside
        cases cut
        rw [dropped, ← List.reverse_eq_iff, List.reverse_append] at whole
        refine ⟨?_, ?_, ?_, by simp, by simpa using inside⟩
        · refine whole.symm.trans ?_
          rw [List.reverse_cons, List.append_assoc]
          rfl
        · exact fun dot => (name_iff.mp (names _ (List.mem_reverse.mp dot))).1 rfl
        · exact fun slash => (name_iff.mp (names _ (List.mem_reverse.mp slash))).2 rfl
    · cases cut
  · rintro ⟨rfl, noDot, noSlash, nonempty, inside⟩
    obtain ⟨init, c, rfl⟩ := (List.eq_nil_or_concat' front).resolve_left nonempty
    have names : ∀ d ∈ extension.reverse, isNameChar d = true := by
      intro d member
      rw [List.mem_reverse] at member
      exact name_iff.mpr ⟨fun dot => noDot (dot ▸ member), fun slash => noSlash (slash ▸ member)⟩
    have other : c ≠ '/' := by simpa using inside
    have turned : (init ++ [c] ++ '.' :: extension).reverse =
        extension.reverse ++ '.' :: c :: init.reverse := by simp
    rw [cutExtension, turned, List.dropWhile_append_of_pos names,
      List.takeWhile_append_of_pos names]
    simp [isNameChar, other]

theorem getLast?_directories {front : List Segment} {ending : List Char} (nonempty : ending ≠ [])
    (found : ending <:+ front.flatMap (· ++ ['/'])) : ending.getLast? = some '/' := by
  obtain ⟨before, cut⟩ := found
  obtain ⟨init, segment, rfl⟩ := (List.eq_nil_or_concat' front).resolve_left
    (by rintro rfl; exact nonempty (List.append_eq_nil_iff.mp cut).2)
  rw [← List.getLast?_append_of_ne_nil before nonempty, cut]
  simp

theorem cutExtension_append (front : List Segment) {last : Segment} (slash : '/' ∉ last) :
    cutExtension (front.flatMap (· ++ ['/']) ++ last) =
      (cutExtension last).map fun cut => (front.flatMap (· ++ ['/']) ++ cut.1, cut.2) := by
  ext ⟨stem, extension⟩
  rw [cutExtension_eq_some_iff, Option.map_eq_some_iff]
  constructor
  · rintro ⟨whole, noDot, noSlash, nonempty, inside⟩
    rcases List.append_eq_append_iff.mp whole with ⟨rest, rfl, rfl⟩ | ⟨rest, based, tail⟩
    · refine ⟨(rest, extension), cutExtension_eq_some_iff.mpr ⟨rfl, noDot, noSlash, ?_, ?_⟩, rfl⟩
      · rintro rfl
        rw [List.append_nil] at nonempty inside
        exact inside (getLast?_directories nonempty (List.suffix_refl _))
      · exact fun last => slash (List.mem_append_left _ (List.mem_of_getLast? last))
    · by_cases empty : rest = []
      · rw [empty, List.append_nil] at based
        exact (inside (getLast?_directories nonempty ⟨[], based.symm⟩)).elim
      · have last := getLast?_directories empty ⟨stem, based.symm⟩
        have listed : '/' ∈ '.' :: extension :=
          tail ▸ List.mem_append_left _ (List.mem_of_getLast? last)
        rcases List.mem_cons.mp listed with equal | listed
        · cases equal
        · exact (noSlash listed).elim
  · rintro ⟨⟨behind, own⟩, cut, equal⟩
    cases equal
    obtain ⟨rfl, noDot, noSlash, nonempty, inside⟩ := cutExtension_eq_some_iff.mp cut
    refine ⟨by rw [List.append_assoc], noDot, noSlash, by simp [nonempty], ?_⟩
    rwa [List.getLast?_append_of_ne_nil _ nonempty]

/-- A path without its extension. -/
def bare (path : List Char) : List Char := ((cutExtension path).map Prod.fst).getD path

theorem toList_stem (path : String) : (stem path).toList = bare path.toList := by
  unfold stem bare
  cases cutExtension path.toList with
  | none => rfl
  | some cut => exact String.toList_ofList

theorem bare_of_cut {path front extension : List Char}
    (cut : cutExtension path = some (front, extension)) : bare path = front := by
  rw [bare, cut]
  rfl

theorem bare_eq_self_iff {path : List Char} : bare path = path ↔ cutExtension path = none := by
  constructor
  · intro same
    cases cut : cutExtension path with
    | none => rfl
    | some pair =>
      obtain ⟨front, extension⟩ := pair
      rw [bare_of_cut cut] at same
      obtain ⟨whole, -⟩ := cutExtension_eq_some_iff.mp cut
      have length := congrArg List.length whole
      rw [← same, List.length_append, List.length_cons] at length
      omega
  · intro cut
    rw [bare, cut]
    rfl

theorem bare_prefix (path : List Char) : bare path <+: path := by
  cases cut : cutExtension path with
  | none => rw [bare_eq_self_iff.mpr cut]
  | some pair =>
    rw [bare_of_cut cut]
    exact ⟨_, (cutExtension_eq_some_iff.mp cut).1.symm⟩

theorem bare_ne_nil {path : List Char} (nonempty : path ≠ []) : bare path ≠ [] := by
  cases cut : cutExtension path with
  | none => rwa [bare_eq_self_iff.mpr cut]
  | some pair =>
    rw [bare_of_cut cut]
    exact (cutExtension_eq_some_iff.mp cut).2.2.2.1

theorem bare_render (front : List Segment) {last : Segment} (slash : '/' ∉ last) :
    bare (render (front ++ [last])) = render (front ++ [bare last]) := by
  rw [bare, render_concat, cutExtension_append front slash, render_concat, bare]
  cases cutExtension last <;> rfl

/-- Without empty parts there are no two slashes in a row. -/
theorem not_infix_of_parts {text : List Char} (nonempty : ∀ part ∈ parts text, part ≠ []) :
    ¬['/', '/'] <:+: text := by
  rintro ⟨before, after, rfl⟩
  refine nonempty [] ?_ rfl
  have turned : (before ++ ['/', '/'] ++ after).map unifySeparator =
      before.map unifySeparator ++ '/' :: '/' :: after.map unifySeparator := by
    simp [unifySeparator]
  rw [parts, turned, Text.splitOn_eq, List.splitOn_append_cons_self]
  simp [List.splitOn_cons_eq_if_modifyHead]

/-- The part of a path behind its last separator. -/
def last (raw : String) : Segment := (parts raw.toList).getLast (parts_ne_nil _)

theorem exists_parts (raw : String) : ∃ front, parts raw.toList = front ++ [last raw] :=
  ⟨_, (List.dropLast_append_getLast _).symm⟩

theorem last_eq {raw : String} {front : List Segment} {segment : Segment}
    (cut : parts raw.toList = front ++ [segment]) : last raw = segment := by
  simp [last, cut]

end Path

namespace PageKey

/-! ## Keys by their segments -/

theorem name_inj {a b : PageKey} : a.name = b.name ↔ a = b := by
  cases a
  cases b
  rw [mk.injEq]

/-- A key is written from ordinary segments and a last one, of which less is known. -/
structure Written (key : PageKey) (front : List Path.Segment) (last : Path.Segment) : Prop where
  name : key.name.toList = Path.render (front ++ [last])
  ordinary : ∀ segment ∈ front, Path.Ordinary segment
  ne_nil : last ≠ []
  no_slash : '/' ∉ last
  no_backslash : '\\' ∉ last

theorem written_ofPath (raw : String) :
    (Path.segments raw.toList = [] ∧ (ofPath raw).name = "") ∨
    ∃ front last, Path.segments raw.toList = front ++ [last] ∧
      (ofPath raw).Written front (Path.bare last) := by
  have ordinary := Path.segments_ordinary raw.toList
  have name : (ofPath raw).name.toList = Path.bare (Path.render (Path.segments raw.toList)) := by
    rw [ofPath, Path.toList_stem, Path.toList_canonical]
  rcases List.eq_nil_or_concat' (Path.segments raw.toList) with empty | ⟨front, last, cut⟩
  · left
    rw [empty] at name
    exact ⟨empty, String.toList_inj.mp name⟩
  · right
    rw [cut] at ordinary name
    have own := ordinary last (by simp)
    have inside := (Path.bare_prefix last).subset
    rw [Path.bare_render front own.no_slash] at name
    exact ⟨front, last, cut, name, fun segment member => ordinary segment (by simp [member]),
      Path.bare_ne_nil own.ne_nil, fun slash => own.no_slash (inside slash),
      fun backslash => own.no_backslash (inside backslash)⟩

/-- A key that is read as itself: its last segment is no dot segment and has no extension. -/
def Stable (key : PageKey) : Prop :=
  Path.last key.name ≠ ['.'] ∧ Path.last key.name ≠ ['.', '.'] ∧ Path.extension? key.name = none

namespace Written

variable {key : PageKey} {front : List Path.Segment} {last : Path.Segment}

theorem plain (w : key.Written front last) :
    ∀ segment ∈ front ++ [last], segment ≠ [] ∧ '/' ∉ segment ∧ '\\' ∉ segment := by
  intro segment member
  rcases List.mem_append.mp member with member | member
  · have own := w.ordinary segment member
    exact ⟨own.ne_nil, own.no_slash, own.no_backslash⟩
  · rw [List.mem_singleton.mp member]
    exact ⟨w.ne_nil, w.no_slash, w.no_backslash⟩

theorem parts_eq (w : key.Written front last) : Path.parts key.name.toList = front ++ [last] := by
  rw [w.name]
  exact Path.parts_render (by simp) fun segment member => (w.plain segment member).2

theorem last_eq (w : key.Written front last) : Path.last key.name = last :=
  Path.last_eq w.parts_eq

theorem name_ne_nil (w : key.Written front last) : key.name.toList ≠ [] := by
  rw [w.name, Path.render_concat]
  simp [w.ne_nil]

theorem segments_eq (w : key.Written front last) :
    Path.segments key.name.toList = (Path.push front.reverse last).reverse := by
  rw [Path.segments, w.parts_eq, List.foldl_append, Path.foldl_push_of_ordinary w.ordinary,
    List.append_nil]
  rfl

theorem ordinary_last (w : key.Written front last) (dot : last ≠ ['.'])
    (parent : last ≠ ['.', '.']) : ∀ segment ∈ front ++ [last], Path.Ordinary segment := by
  intro segment member
  rcases List.mem_append.mp member with member | member
  · exact w.ordinary segment member
  · rw [List.mem_singleton.mp member]
    exact ⟨w.ne_nil, dot, parent, w.no_slash, w.no_backslash⟩

theorem canonical_name_iff (w : key.Written front last) :
    Path.canonical key.name = key.name ↔ last ≠ ['.'] ∧ last ≠ ['.', '.'] := by
  constructor
  · intro same
    obtain ⟨written, ordinary, whole⟩ := Path.canonical_eq_self_iff.mp same
    have nonempty : written ≠ [] := by
      rintro rfl
      exact w.name_ne_nil whole
    have read := Path.parts_render nonempty fun segment member =>
      ⟨(ordinary segment member).no_slash, (ordinary segment member).no_backslash⟩
    rw [← whole, w.parts_eq] at read
    have own := ordinary last (by simp [← read])
    exact ⟨own.ne_dot, own.ne_parent⟩
  · rintro ⟨dot, parent⟩
    exact Path.canonical_eq_self_iff.mpr ⟨_, w.ordinary_last dot parent, w.name⟩

theorem extension_iff (w : key.Written front last) :
    Path.extension? key.name = none ↔ Path.bare last = last := by
  rw [Path.extension?, Option.map_eq_none_iff, ← Path.bare_eq_self_iff, w.name,
    Path.bare_render front w.no_slash, Path.render_concat, Path.render_concat,
    List.append_cancel_left_eq]

theorem stable_iff (w : key.Written front last) :
    key.Stable ↔ last ≠ ['.'] ∧ last ≠ ['.', '.'] ∧ Path.bare last = last := by
  rw [Stable, w.last_eq, w.extension_iff]

theorem ofPath_name_iff (w : key.Written front last) : ofPath key.name = key ↔ key.Stable := by
  rw [w.stable_iff]
  constructor
  · intro same
    rcases written_ofPath key.name with ⟨-, empty⟩ | ⟨front', last', read, again⟩
    · rw [same] at empty
      exact (w.name_ne_nil (by rw [empty]; rfl)).elim
    · rw [same] at again
      obtain ⟨rfl, bared⟩ := List.append_inj' (w.parts_eq.symm.trans again.parts_eq) rfl
      rw [List.singleton_inj] at bared
      -- a dot segment would leave fewer segments than the key is written from
      rw [w.segments_eq] at read
      have count := congrArg List.length read
      rw [List.length_reverse, List.length_append, List.length_singleton] at count
      have dot : last ≠ ['.'] := by
        rintro rfl
        simp [Path.push] at count
      have parent : last ≠ ['.', '.'] := by
        rintro rfl
        simp [Path.push] at count
      have own := w.ordinary_last dot parent last (by simp)
      rw [Path.push_of_ordinary own, List.reverse_cons, List.reverse_reverse] at read
      obtain ⟨-, equal⟩ := List.append_inj' read rfl
      rw [List.singleton_inj] at equal
      exact ⟨dot, parent, (congrArg Path.bare equal).trans bared.symm⟩
  · rintro ⟨dot, parent, bared⟩
    rw [← name_inj, ← String.toList_inj, ofPath, Path.toList_stem,
      w.canonical_name_iff.mpr ⟨dot, parent⟩, w.name, Path.bare_render front w.no_slash, bared]

end Written

theorem canonical_name_iff (raw : String) :
    Path.canonical (ofPath raw).name = (ofPath raw).name ↔
      Path.last (ofPath raw).name ≠ ['.'] ∧ Path.last (ofPath raw).name ≠ ['.', '.'] := by
  rcases written_ofPath raw with ⟨-, empty⟩ | ⟨front, last, -, w⟩
  · rw [empty]
    decide
  · rw [w.canonical_name_iff, w.last_eq]

theorem ofPath_name_iff (raw : String) :
    ofPath (ofPath raw).name = ofPath raw ↔ (ofPath raw).Stable := by
  rcases written_ofPath raw with ⟨-, empty⟩ | ⟨front, last, -, w⟩
  · rw [← name_inj, Stable, empty]
    decide
  · exact w.ofPath_name_iff

theorem stable_iff (raw : String) : (ofPath raw).Stable ↔
    ∀ segment, (Path.segments raw.toList).getLast? = some segment →
      Path.bare segment ≠ ['.'] ∧ Path.bare segment ≠ ['.', '.'] ∧
        Path.bare (Path.bare segment) = Path.bare segment := by
  rcases written_ofPath raw with ⟨nothing, empty⟩ | ⟨front, last, read, w⟩
  · rw [Stable, empty, nothing]
    exact iff_of_true (by decide) nofun
  · rw [w.stable_iff, read, List.getLast?_concat]
    simp

/-! ## Where pages are named -/

theorem not_infix_name (raw : String) : ¬['/', '/'] <:+: (ofPath raw).name.toList := by
  rcases written_ofPath raw with ⟨-, empty⟩ | ⟨front, last, -, w⟩
  · rw [empty]
    exact fun found => absurd found.length_le (by decide)
  · apply Path.not_infix_of_parts
    rw [w.parts_eq]
    exact fun segment member => (w.plain segment member).1

theorem component_name (page : PageKey) (raw : String) :
    page.component ("/" ++ (ofPath raw).name) = ofPath (ofPath raw).name := by
  -- the scheme of plugins has two slashes in a row, which no key has
  have absent : ¬pluginScheme.toList <:+: ("/" ++ (ofPath raw).name).toList := by
    intro found
    rw [String.toList_append] at found
    rcases List.infix_cons_iff.mp found with start | inside
    · exact absurd (List.cons_prefix_cons.mp start).1 (by decide)
    · have slashes : ['/', '/'] <:+: pluginScheme.toList := ⟨"plugin:".toList, [], by decide⟩
      exact not_infix_name raw (slashes.trans inside)
  have kept := ((Text.replaceFirst_split pluginScheme.toList pluginRoot.toList
    ("/" ++ (ofPath raw).name).toList).resolve_left (by
      rintro ⟨before, after, whole, -⟩
      exact absent ⟨before, after, whole.symm⟩)).2
  rw [component, kept, String.toList_append]
  exact congrArg ofPath String.ofList_toList

end PageKey

theorem TabBar.page_linkItem (index : ContentIndex) (item : Fields Json.Value)
    (distinct : item.keys.Nodup) :
    ∃ linked counts, linkItem index (.object item) = (.object linked, counts) ∧
      Fields.get? linked pageField = pageValue (Fields.get? item pageField) := by
  have paged : (linkPage item).keys.Nodup := by rwa [keys_linkPage]
  have linked : Relinked index slots (linkPage item) _ := linkSlots_relinked slots_separate paged
  refine ⟨_, _, linkItem_object index item, ?_⟩
  rw [linked.others pageField pageField_not_mem, get?_linkPage, if_pos rfl]

namespace PageKey

theorem linkItem_name_iff (key : PageKey) :
    (∀ index (item : Fields Json.Value), item.keys.Nodup →
      Fields.get? item TabBar.pageField = some (.string key.name) →
      ∃ linked counts, TabBar.linkItem index (.object item) = (.object linked, counts) ∧
        Fields.get? linked TabBar.pageField = some (.string key.name)) ↔
      ofPath key.name = key := by
  constructor
  · intro kept
    let item : Fields Json.Value := [(TabBar.pageField, .string key.name)]
    have distinct : item.keys.Nodup := by simp [item, Fields.keys]
    obtain ⟨linked, counts, whole, page⟩ :=
      kept ContentIndex.empty item distinct (by simp [item, Fields.get?])
    obtain ⟨linked', counts', whole', page'⟩ := TabBar.page_linkItem ContentIndex.empty item distinct
    cases whole.symm.trans whole'
    have same := page.symm.trans page'
    simp only [item, Fields.get?, if_pos, TabBar.pageValue, Option.some.injEq,
      Json.Value.string.injEq] at same
    exact name_inj.mp same.symm
  · intro same index item distinct held
    obtain ⟨linked, counts, whole, page⟩ := TabBar.page_linkItem index item distinct
    refine ⟨linked, counts, whole, ?_⟩
    rw [page, held, TabBar.pageValue, same]

theorem moveEntryFirst_name_iff (key : PageKey) :
    (∀ pages : List String, key.name ∈ pages →
      moveEntryFirst pages key.name = (true, key.name :: pages.erase key.name)) ↔
      ofPath key.name = key := by
  constructor
  · intro found
    have moved := found [key.name] List.mem_cons_self
    by_contra other
    have absent : (ofPath key.name).name ∉ [key.name] := by
      rw [List.mem_singleton, name_inj]
      exact other
    rw [moveEntryFirst, if_neg absent] at moved
    cases moved
  · intro same pages listed
    rw [moveEntryFirst, same, if_pos listed]

/--
A key is read as itself just when it is stable, and so is a page that is named by its key: as a
component from the top, in the tab bar, or as the entry page.
-/
theorem ofPath_name_eq_iff (raw : String) :
    ((ofPath raw).Stable ↔ ∀ segment, (Path.segments raw.toList).getLast? = some segment →
      Path.bare segment ≠ ['.'] ∧ Path.bare segment ≠ ['.', '.'] ∧
        Path.bare (Path.bare segment) = Path.bare segment) ∧
    let key := ofPath raw
    (Path.canonical key.name = key.name ↔
      Path.last key.name ≠ ['.'] ∧ Path.last key.name ≠ ['.', '.']) ∧
    (Path.canonical key.name = key.name ↔ ∃ written,
      (∀ segment ∈ written, Path.Ordinary segment) ∧ key.name.toList = Path.render written) ∧
    (ofPath key.name = key ↔ key.Stable) ∧
    (∀ page : PageKey, page.component ("/" ++ key.name) = key ↔ key.Stable) ∧
    ((∀ index (item : Fields Json.Value), item.keys.Nodup →
      Fields.get? item TabBar.pageField = some (.string key.name) →
      ∃ linked counts, TabBar.linkItem index (.object item) = (.object linked, counts) ∧
        Fields.get? linked TabBar.pageField = some (.string key.name)) ↔ key.Stable) ∧
    ((∀ pages : List String, key.name ∈ pages →
      moveEntryFirst pages key.name = (true, key.name :: pages.erase key.name)) ↔ key.Stable) := by
  refine ⟨stable_iff raw, ?_⟩
  intro key
  have fixed : ofPath key.name = key ↔ key.Stable := ofPath_name_iff raw
  refine ⟨canonical_name_iff raw, Path.canonical_eq_self_iff, fixed, ?_, ?_, ?_⟩
  · intro page
    rw [component_name]
    exact fixed
  · exact (linkItem_name_iff key).trans fixed
  · exact (moveEntryFirst_name_iff key).trans fixed

/-- Keys that keep an extension, or lose all but a dot, are read as other keys. -/
theorem ofPath_name_not_fixed :
    let dotted := ofPath "a.b.js"
    let hidden := ofPath "a/..js"
    (ofPath dotted.name ≠ dotted ∧ (ofPath "x").component ("/" ++ dotted.name) = ofPath "a" ∧
      moveEntryFirst ["x", dotted.name] dotted.name = (false, ["x", dotted.name])) ∧
    (Path.canonical hidden.name ≠ hidden.name ∧ ofPath hidden.name = ofPath "a") := by
  decide

end PageKey

end ConfigRecovery
