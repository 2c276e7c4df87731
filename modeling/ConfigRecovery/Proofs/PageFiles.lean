import ConfigRecovery.Proofs.Output
import ConfigRecovery.Proofs.PageEntries
import ConfigRecovery.Proofs.PageNames
import ConfigRecovery.Proofs.Search
import ConfigRecovery.Proofs.Usage

/-!
# Files of pages

A page and the literal that is registered for it have one configuration file in all their spellings,
so the literal is what the file holds. Two pages have one file if their keys, read as paths, differ
by the ending of configuration files at most; then only the first of their windows is written.
-/

namespace ConfigRecovery

namespace Path

/-! ## Endings -/

theorem suffix_append_iff {front : List Segment} {last ending : List Char} (slash : '/' ∉ ending) :
    ending <:+ front.flatMap (· ++ ['/']) ++ last ↔ ending <:+ last := by
  constructor
  · intro found
    have compared := List.suffix_or_suffix_of_suffix found (List.suffix_append _ last)
    rcases compared with inside | ⟨more, cut⟩
    · exact inside
    · rw [← cut, List.suffix_append_self_iff] at found
      -- an ending that is longer than the last segment takes in the slash before it
      by_cases empty : more = []
      · rw [← cut, empty]
        exact List.suffix_refl last
      · have listed := List.mem_of_getLast? (getLast?_directories empty found)
        exact (slash (cut ▸ List.mem_append_left last listed)).elim
  · intro found
    exact found.trans (List.suffix_append _ last)

theorem Ordinary.append_extension {segment extension : List Char} (own : Ordinary segment)
    (slash : '/' ∉ extension) (backslash : '\\' ∉ extension) :
    Ordinary (segment ++ '.' :: extension) where
  ne_nil := by simp
  ne_dot equal := by
    have length := congrArg List.length equal
    rw [List.length_append, List.length_cons, List.length_singleton] at length
    exact own.ne_nil (List.length_eq_zero_iff.mp (by omega))
  ne_parent equal := by
    obtain ⟨c, rfl⟩ : ∃ c, segment = [c] := by
      have length := congrArg List.length equal
      have positive := List.length_pos_of_ne_nil own.ne_nil
      rw [List.length_append, List.length_cons, List.length_cons, List.length_singleton] at length
      exact List.length_eq_one_iff.mp (by omega)
    cases equal
    exact own.ne_dot rfl
  no_slash := by simp [own.no_slash, slash]
  no_backslash := by simp [own.no_backslash, backslash]

theorem isConfigFile_iff_suffix {path : String} :
    isConfigFile path = true ↔ configSuffix.toList <:+ path.toList :=
  List.isSuffixOf_iff_suffix

theorem canonical_configFile (raw : String) : canonical (configFile raw) = configFile raw := by
  unfold configFile
  split
  · exact canonical_canonical raw
  · refine canonical_eq_self_iff.mpr ?_
    rw [String.toList_append, toList_canonical]
    have ordinary := segments_ordinary raw.toList
    -- the top has no segment that the ending could go to, and gets one of its own
    rcases List.eq_nil_or_concat' (segments raw.toList) with empty | ⟨front, last, cut⟩
    · refine ⟨[configSuffix.toList], ?_, by rw [empty]; rfl⟩
      rintro segment member
      rw [List.mem_singleton.mp member]
      constructor <;> decide
    · rw [cut] at ordinary
      refine ⟨front ++ [last ++ configSuffix.toList], ?_, ?_⟩
      · intro segment member
        rcases List.mem_append.mp member with member | member
        · exact ordinary segment (List.mem_append_left _ member)
        · rw [List.mem_singleton.mp member]
          exact (ordinary last (by simp)).append_extension (by decide) (by decide)
      · rw [cut, render_concat, render_concat, List.append_assoc]

theorem isConfigFile_configFile (raw : String) : isConfigFile (configFile raw) = true := by
  unfold configFile
  split
  · assumption
  · exact isConfigFile_iff.mpr ⟨_, rfl⟩

theorem configFile_ne_empty (raw : String) : configFile raw ≠ "" := by
  intro empty
  have named := isConfigFile_configFile raw
  rw [empty] at named
  cases named

theorem configFile_configFile (raw : String) : configFile (configFile raw) = configFile raw := by
  rw [configFile, canonical_configFile, if_pos (isConfigFile_configFile raw)]

/-- Two paths have one file if they differ by the ending of configuration files at most. -/
theorem configFile_eq_iff {a b : String} : configFile a = configFile b ↔
    canonical a = canonical b ∨
      isConfigFile (canonical b) = false ∧ canonical a = canonical b ++ ".json" ∨
      isConfigFile (canonical a) = false ∧ canonical b = canonical a ++ ".json" := by
  have ended (path : String) : isConfigFile (path ++ ".json") = true :=
    isConfigFile_iff.mpr ⟨path, rfl⟩
  have different {a b : String} (first : isConfigFile a = true) (second : isConfigFile b = false) :
      a ≠ b := by
    rintro rfl
    cases first.symm.trans second
  change (if _ then _ else canonical a ++ ".json") = (if _ then _ else canonical b ++ ".json") ↔ _
  generalize canonical a = a
  generalize canonical b = b
  cases here : isConfigFile a <;> cases there : isConfigFile b
  · have first : b ++ ".json" ≠ a := different (ended b) here
    have second : a ++ ".json" ≠ b := different (ended a) there
    simp [first.symm, second.symm]
  · simp [(different there here).symm, eq_comm]
  · simp [different here there]
  · simp

/-! ## Paths with an extension -/

theorem segments_concat {raw : List Char} {front : List Segment} {last : Segment}
    (cut : parts raw = front ++ [last]) (own : Ordinary last) :
    segments raw = (front.foldl push []).reverse ++ [last] := by
  rw [segments, cut, List.foldl_append, List.foldl_cons, List.foldl_nil, push_of_ordinary own,
    List.reverse_cons]

theorem separators_last (raw : String) : '/' ∉ last raw ∧ '\\' ∉ last raw :=
  no_separator_of_mem_parts (List.getLast_mem (parts_ne_nil _))

theorem toList_canonical_of_ordinary {raw : String} (own : Ordinary (last raw)) :
    ∃ front : List Segment,
      (canonical raw).toList = front.flatMap (· ++ ['/']) ++ last raw := by
  obtain ⟨front, cut⟩ := exists_parts raw
  refine ⟨(front.foldl push []).reverse, ?_⟩
  rw [toList_canonical, segments_concat cut own, render_concat]

/-- An extension stays where it is, whatever the parts before it come to. -/
theorem canonical_extension {raw extension : String} (own : Ordinary (last raw))
    (slash : '/' ∉ extension.toList) (backslash : '\\' ∉ extension.toList) :
    canonical (raw ++ "." ++ extension) = canonical raw ++ "." ++ extension := by
  obtain ⟨front, cut⟩ := exists_parts raw
  have whole (path : String) :
      (path ++ "." ++ extension).toList = path.toList ++ '.' :: extension.toList := by
    simp
  have more : parts (raw.toList ++ '.' :: extension.toList) =
      front ++ [last raw ++ '.' :: extension.toList] := by
    apply parts_append cut
    · simpa using slash
    · simpa using backslash
  rw [← String.toList_inj, whole, toList_canonical, toList_canonical, whole,
    segments_concat more (own.append_extension slash backslash), segments_concat cut own,
    render_concat, render_concat, List.append_assoc]

theorem stem_extension {raw extension : String} (own : Ordinary (last raw))
    (dot : '.' ∉ extension.toList) (slash : '/' ∉ extension.toList) :
    stem (canonical raw ++ "." ++ extension) = canonical raw := by
  obtain ⟨front, written⟩ := toList_canonical_of_ordinary own
  have cut : cutExtension (canonical raw ++ "." ++ extension).toList =
      some ((canonical raw).toList, extension.toList) := by
    refine cutExtension_eq_some_iff.mpr ⟨by simp, dot, slash, ?_, ?_⟩
    · rw [written]
      simp [own.ne_nil]
    · rw [written, List.getLast?_append_of_ne_nil _ own.ne_nil]
      exact fun ended => own.no_slash (List.mem_of_getLast? ended)
  rw [← String.toList_inj, toList_stem, bare_of_cut cut]

theorem isConfigFile_canonical_iff {raw : String} (own : Ordinary (last raw)) :
    isConfigFile (canonical raw) = true ↔ configSuffix.toList <:+ last raw := by
  obtain ⟨front, written⟩ := toList_canonical_of_ordinary own
  rw [isConfigFile_iff_suffix, written, suffix_append_iff (by decide)]

theorem configFile_extension {raw : String} (own : Ordinary (last raw)) :
    configFile (raw ++ ".json") = canonical raw ++ ".json" := by
  have still : canonical (raw ++ ".json") = canonical raw ++ ".json" := by
    have split (path : String) : path ++ ".json" = path ++ "." ++ "json" := by
      rw [String.append_assoc]
      rfl
    rw [split, canonical_extension own (by simp) (by simp), ← split]
  rw [configFile, still, if_pos (isConfigFile_iff.mpr ⟨_, rfl⟩)]

end Path

namespace PageKey

/-! ## The file of a key -/

/-- A key that is canonical and does not look like a configuration file itself. -/
def Plain (key : PageKey) : Prop :=
  Path.canonical key.name = key.name ∧ Path.isConfigFile key.name = false

theorem Plain.configFile_eq {key : PageKey} (plain : key.Plain) :
    key.configFile = key.name ++ ".json" := by
  rw [configFile, Path.configFile, plain.1, if_neg (by simp [plain.2])]
  rfl

theorem ofPath_extension {stem extension : String} (own : Path.Ordinary (Path.last stem))
    (simple : ∀ c ∈ extension.toList, c ≠ '.' ∧ c ≠ '/' ∧ c ≠ '\\') :
    ofPath (stem ++ "." ++ extension) = ⟨Path.canonical stem⟩ := by
  have dot : '.' ∉ extension.toList := fun member => (simple _ member).1 rfl
  have slash : '/' ∉ extension.toList := fun member => (simple _ member).2.1 rfl
  have backslash : '\\' ∉ extension.toList := fun member => (simple _ member).2.2 rfl
  rw [ofPath, Path.canonical_extension own slash backslash, Path.stem_extension own dot slash]

theorem configFile_of_extension {stem extension : String} (own : Path.Ordinary (Path.last stem))
    (bare : ¬Path.configSuffix.toList <:+ Path.last stem)
    (simple : ∀ c ∈ extension.toList, c ≠ '.' ∧ c ≠ '/' ∧ c ≠ '\\') :
    (ofPath (stem ++ "." ++ extension)).configFile = Path.configFile (stem ++ ".json") := by
  have plain : Plain ⟨Path.canonical stem⟩ := by
    refine ⟨Path.canonical_canonical stem, ?_⟩
    rw [← Bool.not_eq_true, Path.isConfigFile_canonical_iff own]
    exact bare
  rw [ofPath_extension own simple, plain.configFile_eq, Path.configFile_extension own]

end PageKey

/-! ## Tables of pages -/

theorem Path.name_configFile (raw : String) (content : Content) :
    Draft.name (configFile raw, content) = configFile raw := by
  rw [Draft.name, canonical_configFile]

theorem PageKey.name_draft (key : PageKey) (content : Content) :
    Draft.name (key.configFile, content) = key.configFile := by
  rw [configFile, Path.name_configFile]

namespace PageTable

variable {table : PageTable}

theorem map_windowDrafts (table : PageTable) :
    (windowDrafts table).map Draft.name = table.keys.map PageKey.configFile := by
  rw [windowDrafts, ← map_fst_toList, List.map_map, List.map_map]
  apply List.map_congr_left
  intro entry _
  rw [Function.comp_apply, Function.comp_apply, PageKey.name_draft]

theorem nodup_windowDrafts : ((windowDrafts table).map Draft.name).Nodup ↔
    ∀ a ∈ table.keys, ∀ b ∈ table.keys, a.configFile = b.configFile → a = b := by
  rw [map_windowDrafts, List.nodup_map_iff_inj_on (nodup_keys table)]

/-- The first window in a table with the file of a page is the one that is written there. -/
theorem find?_windowDrafts (table : PageTable) (path : String) :
    ((windowDrafts table).find? fun draft => draft.name = path) =
      (table.toList.find? fun entry => entry.1.configFile = path).map fun entry =>
        (entry.1.configFile, .json (.object entry.2)) := by
  have drafts : windowDrafts table = table.toList.map fun entry =>
      (entry.1.configFile, .json (.object entry.2)) := rfl
  rw [drafts, List.find?_map]
  refine congrArg (Option.map _) (List.find?_congr fun entry _ => ?_)
  rw [Function.comp_apply, PageKey.name_draft]

theorem exists_first {key : PageKey} (there : key ∈ table.keys) : ∃ first,
    (table.toList.find? fun entry => entry.1.configFile = key.configFile) = some first ∧
      first.1.configFile = key.configFile ∧ table.get? first.1 = some first.2 := by
  obtain ⟨window, held⟩ := mem_keys.mp there
  have listed := mem_toList.mpr held
  obtain ⟨first, found⟩ : ∃ first,
      (table.toList.find? fun entry => entry.1.configFile = key.configFile) = some first := by
    refine Option.isSome_iff_exists.mp (List.find?_isSome.mpr ⟨_, listed, ?_⟩)
    rw [decide_eq_true_eq]
  refine ⟨first, found, by simpa using List.find?_some found, ?_⟩
  exact mem_toList.mp (List.mem_of_find?_eq_some found)

theorem contains_markComponents {key : PageKey} (there : table.contains key = true) :
    table.markComponents.1.contains key = true := by
  rw [contains_iff] at there ⊢
  by_cases used : ∃ page, table.Uses page key
  · obtain ⟨page, uses⟩ := used
    rw [get?_markComponents_of_uses uses, Option.isSome_some]
  · rwa [get?_markComponents_of_not_uses fun page uses => used ⟨page, uses⟩]

theorem markComponents_of_unused (unused : ∀ page key, ¬table.Uses page key) :
    table.markComponents.1 = table :=
  ext fun key => get?_markComponents_of_not_uses fun page => unused page key

end PageTable

/-! ## Merging into a new sink -/

theorem find?_literalDrafts (literals : List Literal) (path : String) :
    ((literalDrafts literals).find? fun draft => draft.name = path) =
      (literals.find? fun literal => Path.configFile literal.path = path).map fun literal =>
        (Path.configFile literal.path, .text literal.source) := by
  rw [literalDrafts, List.find?_map]
  refine congrArg (Option.map _) (List.find?_congr fun literal _ => ?_)
  rw [Function.comp_apply, Path.name_configFile]

namespace Accepting

variable {τ : Type} [OutputTree τ] (accepting : Accepting τ)

theorem merge_fresh (tree : τ) (table : PageTable) (literals : List Literal) :
    let drafts := literalDrafts literals ++ windowDrafts table
    ∃ counts sink, merge table literals ⟨tree, []⟩ = .ok counts sink ∧
      sink.tree = (fresh [] drafts).foldl accepting.insert tree ∧
      (∀ path, accepting.get? sink.tree path =
        ((drafts.find? fun draft => draft.name = path).map fun draft => draft.2.encode).or
          (accepting.get? tree path)) ∧
      counts.streamed = (fresh [] (literalDrafts literals)).length ∧
      counts.fallback =
        (fresh ((literalDrafts literals).map Draft.name) (windowDrafts table)).length ∧
      counts.streamed + counts.fallback + counts.skipped = literals.length + table.size := by
  intro drafts
  obtain ⟨counts, merged, streamed, fallback, total⟩ :=
    accepting.merge_eq table literals ⟨tree, []⟩
  refine ⟨counts, _, merged, accepting.tree_foldl_put, ?_, streamed, ?_, total⟩
  · exact fun path => accepting.get?_foldl_put List.not_mem_nil
  · rw [fallback]
    congr 1
    apply fresh_congr
    intro name
    rw [mem_written_foldl_put, or_iff_left List.not_mem_nil]

/-- A file is written once, with the first literal for it; a window for it is skipped. -/
theorem merge_first_literal (tree : τ) (table : PageTable) {literals : List Literal}
    {file : String} {first : Literal}
    (found : (literals.find? fun literal => Path.configFile literal.path = file) = some first) :
    ∃ counts sink, merge table literals ⟨tree, []⟩ = .ok counts sink ∧
      accepting.get? sink.tree file = some first.source.toUTF8 ∧
      (∃ writes : List Draft, sink.tree = writes.foldl accepting.insert tree ∧
        writes.filter (fun draft => draft.1 = file) = [(file, .text first.source)]) ∧
      ∀ draft ∈ windowDrafts table, draft.name = file → 0 < counts.skipped := by
  have here : Path.configFile first.path = file := by simpa using List.find?_some found
  obtain ⟨counts, sink, merged, writes, files, streamed, fallback, total⟩ :=
    accepting.merge_fresh tree table literals
  have early : ((literalDrafts literals).find? fun draft => draft.name = file) =
      some (file, .text first.source) := by
    rw [find?_literalDrafts, found, Option.map_some, here]
  have draft : ((literalDrafts literals ++ windowDrafts table).find? fun draft =>
      draft.name = file) = some (file, .text first.source) := by
    rw [List.find?_append, early, Option.some_or]
  refine ⟨counts, sink, merged, ?_, ⟨_, writes, ?_⟩, ?_⟩
  · rw [files, draft]
    rfl
  · rw [filter_fresh, if_neg List.not_mem_nil, draft]
    rfl
  · intro window member named
    have seen : window.name ∈ (literalDrafts literals).map Draft.name := by
      have own : Draft.name (file, .text first.source) = file := by simpa using List.find?_some early
      rw [named, ← own]
      exact List.mem_map_of_mem (List.mem_of_find?_eq_some early)
    have late := length_fresh_lt member seen
    have few := length_fresh_le [] (literalDrafts literals)
    rw [← fallback, length_windowDrafts] at late
    rw [← streamed, length_literalDrafts] at few
    omega

/-- Without literals each file gets the first window for it, in the order of the keys. -/
theorem merge_windows (tree : τ) (table : PageTable) :
    ∃ counts sink, merge table [] ⟨tree, []⟩ = .ok counts sink ∧
      counts.streamed = 0 ∧ counts.fallback + counts.skipped = table.size ∧
      (counts.fallback = table.size ↔
        ∀ a ∈ table.keys, ∀ b ∈ table.keys, a.configFile = b.configFile → a = b) ∧
      ∀ path, accepting.get? sink.tree path =
        ((table.toList.find? fun entry => entry.1.configFile = path).map fun entry =>
          (Content.json (.object entry.2)).encode).or (accepting.get? tree path) := by
  obtain ⟨counts, sink, merged, -, files, streamed, fallback, total⟩ :=
    accepting.merge_fresh tree table []
  refine ⟨counts, sink, merged, streamed, ?_, ?_, ?_⟩
  · simpa [streamed, literalDrafts, fresh] using total
  · rw [← PageTable.nodup_windowDrafts, fallback, ← length_windowDrafts, length_fresh_eq_iff]
    simp [literalDrafts]
  · intro path
    rw [files, literalDrafts, List.map_nil, List.nil_append, PageTable.find?_windowDrafts,
      Option.map_map]
    rfl

end Accepting

/--
A page and the literal for it are one file, however they are spelled. If the literal is among those
that are merged with a table, this file is written once, with the first literal for it; the window
that the table may have for the page is skipped.
-/
theorem merge_prefers_literal {stem extension : String} (named : Path.last stem ≠ [])
    (dot : Path.last stem ≠ ['.']) (parent : Path.last stem ≠ ['.', '.'])
    (bare : ¬".json".toList <:+ Path.last stem)
    (simple : ∀ c ∈ extension.toList, c ≠ '.' ∧ c ≠ '/' ∧ c ≠ '\\') :
    let page := stem ++ "." ++ extension
    let file := Path.configFile (stem ++ ".json")
    (PageKey.ofPath page).configFile = file ∧
    (∀ (pages : Fields Json.Value) table, PageTable.ofValue (.object pages) = .ok table →
      page ∈ pages.keys →
      table.contains (PageKey.ofPath page) = true ∧
      table.markComponents.1.contains (PageKey.ofPath page) = true) ∧
    ∀ {τ : Type} [OutputTree τ] (accepting : Accepting τ) (tree : τ) (table : PageTable)
      (literals : List Literal), stem ++ ".json" ∈ literals.map Literal.path →
      ∃ first counts sink,
        (literals.find? fun literal => Path.configFile literal.path = file) = some first ∧
        merge table literals ⟨tree, []⟩ = .ok counts sink ∧
        accepting.get? sink.tree file = some first.source.toUTF8 ∧
        (∃ writes : List Draft, sink.tree = writes.foldl accepting.insert tree ∧
          writes.filter (fun draft => draft.1 = file) = [(file, .text first.source)]) ∧
        ∀ window, table.get? (PageKey.ofPath page) = some window →
          (file, .json (.object window)) ∈ windowDrafts table ∧ 0 < counts.skipped := by
  intro page file
  have separators := Path.separators_last stem
  have same : (PageKey.ofPath page).configFile = file :=
    PageKey.configFile_of_extension ⟨named, dot, parent, separators.1, separators.2⟩ bare simple
  refine ⟨same, ?_, ?_⟩
  · intro pages table built listed
    have there := (PageTable.contains_addPages built).mpr (Or.inl ⟨page, listed, rfl⟩)
    exact ⟨there, PageTable.contains_markComponents there⟩
  · intro τ _ accepting tree table literals listed
    obtain ⟨literal, member, path⟩ := List.mem_map.mp listed
    obtain ⟨first, found⟩ : ∃ first,
        (literals.find? fun literal => Path.configFile literal.path = file) = some first := by
      refine Option.isSome_iff_exists.mp (List.find?_isSome.mpr ⟨literal, member, ?_⟩)
      rw [path, decide_eq_true_eq]
    obtain ⟨counts, sink, merged, content, writes, late⟩ :=
      accepting.merge_first_literal tree table found
    refine ⟨first, counts, sink, found, merged, content, writes, ?_⟩
    intro window held
    have own : (file, Content.json (.object window)) ∈ windowDrafts table := by
      rw [← same]
      exact List.mem_map.mpr ⟨(_, window), PageTable.mem_toList.mpr held, rfl⟩
    exact ⟨own, late _ own (Path.name_configFile _ _)⟩

/-- A page and a literal in one spelling, and before the literal one in another spelling. -/
theorem merge_prefers_literal_spellings :
    let stem := "/pages\\./index"
    let page := PageKey.ofPath (stem ++ "." ++ "html")
    let table := PageTable.empty.insert page [("x", .null)]
    let literals : List Literal :=
      [⟨"other.json", "o"⟩, ⟨"pages//index", "one"⟩, ⟨stem ++ ".json", "two"⟩]
    Path.last stem ≠ [] ∧ Path.last stem ≠ ['.'] ∧ Path.last stem ≠ ['.', '.'] ∧
    ¬".json".toList <:+ Path.last stem ∧
    (∀ c ∈ "html".toList, c ≠ '.' ∧ c ≠ '/' ∧ c ≠ '\\') ∧
    ∃ counts sink, merge table literals (⟨.empty, []⟩ : Sink MemoryTree) = .ok counts sink ∧
      sink.tree.get? "pages/index.json" = some "one".toUTF8 ∧ 0 < counts.skipped := by
  intro stem page table literals
  have named : Path.last stem ≠ [] := by decide
  have dot : Path.last stem ≠ ['.'] := by decide
  have parent : Path.last stem ≠ ['.', '.'] := by decide
  have bare : ¬".json".toList <:+ Path.last stem := by decide
  have simple : ∀ c ∈ "html".toList, c ≠ '.' ∧ c ≠ '/' ∧ c ≠ '\\' := by simp
  refine ⟨named, dot, parent, bare, simple, ?_⟩
  obtain ⟨-, -, merges⟩ := merge_prefers_literal named dot parent bare simple
  obtain ⟨first, counts, sink, found, merged, content, -, late⟩ :=
    merges Accepting.memory MemoryTree.empty table literals (by decide)
  have file : Path.configFile (stem ++ ".json") = "pages/index.json" := by decide
  have earliest : (literals.find? fun literal =>
      Path.configFile literal.path = "pages/index.json") = some ⟨"pages//index", "one"⟩ := by
    rfl
  rw [file] at found content
  cases earliest.symm.trans found
  have held : table.get? page = some [("x", .null)] := by simp [table]
  exact ⟨counts, sink, merged, content, (late _ held).2⟩

/--
Two keys have one file if their canonical paths differ by the ending of configuration files at
most, which never happens to plain keys. A merge without literals writes the window of every page
to the file of the page just when no two pages of the table have one file; otherwise the first
of these pages is the one that is written.
-/
theorem merge_keeps_windows_iff {τ : Type} [OutputTree τ] (accepting : Accepting τ) (tree : τ) :
    (∀ a b : PageKey, a.configFile = b.configFile ↔
      Path.canonical a.name = Path.canonical b.name ∨
        Path.isConfigFile (Path.canonical b.name) = false ∧
          Path.canonical a.name = Path.canonical b.name ++ ".json" ∨
        Path.isConfigFile (Path.canonical a.name) = false ∧
          Path.canonical b.name = Path.canonical a.name ++ ".json") ∧
    (∀ a b : PageKey, a.Plain → b.Plain → a.configFile = b.configFile → a = b) ∧
    ∀ table : PageTable, ∃ counts sink, merge table [] ⟨tree, []⟩ = .ok counts sink ∧
      counts.streamed = 0 ∧ counts.fallback + counts.skipped = table.size ∧
      (∀ key ∈ table.keys, ∃ first,
        (table.toList.find? fun entry => entry.1.configFile = key.configFile) = some first ∧
        accepting.get? sink.tree key.configFile =
          some (Content.json (.object first.2)).encode) ∧
      (counts.fallback = table.size ∧ counts.skipped = 0 ∧
          (∀ key window, table.get? key = some window →
            accepting.get? sink.tree key.configFile = some (Content.json (.object window)).encode) ↔
        ∀ a ∈ table.keys, ∀ b ∈ table.keys, a.configFile = b.configFile → a = b) := by
  refine ⟨fun a b => Path.configFile_eq_iff, ?_, ?_⟩
  · intro a b here there same
    rw [here.configFile_eq, there.configFile_eq, String.append_left_inj] at same
    exact PageKey.name_inj.mp same
  · intro table
    obtain ⟨counts, sink, merged, streamed, total, all, files⟩ :=
      accepting.merge_windows tree table
    refine ⟨counts, sink, merged, streamed, total, ?_, ?_⟩
    · intro key there
      obtain ⟨first, found, -, -⟩ := PageTable.exists_first there
      refine ⟨first, found, ?_⟩
      rw [files, found, Option.map_some, Option.some_or]
    · rw [← all]
      constructor
      · exact fun kept => kept.1
      · intro complete
        refine ⟨complete, Nat.add_left_cancel (total.trans complete.symm), ?_⟩
        intro key window held
        have there := PageTable.mem_keys.mpr ⟨window, held⟩
        obtain ⟨⟨other, own⟩, found, same, listed⟩ := PageTable.exists_first there
        obtain rfl := all.mp complete other (PageTable.mem_keys.mpr ⟨own, listed⟩) key there same
        cases listed.symm.trans held
        rw [files, found, Option.map_some, Option.some_or]

/-- Of two pages whose keys differ by the ending of configuration files one loses its window. -/
theorem merge_drops_window :
    let first := PageKey.ofPath "a"
    let second := PageKey.ofPath "a.json.js"
    let pages : Fields Json.Value := [("a", .object [("window", .object [("y", .null)])]),
      ("a.json.js", .object [("window", .object [("x", .null)])])]
    first ≠ second ∧ first.configFile = second.configFile ∧
    ∃ table counts sink, PageTable.ofValue (.object pages) = .ok table ∧
      merge table.markComponents.1 [] (⟨.empty, []⟩ : Sink MemoryTree) = .ok counts sink ∧
      table.markComponents.1.size = 2 ∧ counts.fallback = 1 ∧ counts.skipped = 1 ∧
      table.markComponents.1.get? second = some [("x", .null)] ∧
      sink.tree.get? second.configFile ≠ some (Content.json (.object [("x", .null)])).encode := by
  intro first second pages
  have same : first.configFile = second.configFile := by decide
  obtain ⟨table, built, listed⟩ : ∃ table, PageTable.ofValue (.object pages) = .ok table ∧
      table.toList = [(first, [("y", .null)]), (second, [("x", .null)])] := ⟨_, rfl, by rfl⟩
  have unused : ∀ page key, ¬table.Uses page key := by
    rintro page key ⟨window, usage, -, -, held, uses, -⟩
    have member := PageTable.mem_toList.mpr held
    rw [listed, List.mem_cons, List.mem_singleton] at member
    rcases member with entry | entry <;> cases entry <;> simp [Fields.get?] at uses
  have size : table.size = 2 := by rw [← length_windowDrafts, windowDrafts, listed]; rfl
  obtain ⟨counts, sink, merged, -, files, streamed, fallback, total⟩ :=
    Accepting.memory.merge_fresh .empty table []
  have written : counts.fallback = 1 := by
    rw [fallback, windowDrafts, listed]
    simp [fresh, literalDrafts, PageKey.name_draft, same]
  have skipped : counts.skipped = 1 := by
    rw [streamed, written, size] at total
    exact Nat.add_left_cancel (total.trans rfl)
  refine ⟨by decide, same, table, counts, sink, built, ?_⟩
  rw [PageTable.markComponents_of_unused unused]
  refine ⟨merged, size, written, skipped, ?_, ?_⟩
  · exact PageTable.mem_toList.mp (by simp [listed])
  · have content : sink.tree.get? second.configFile =
        some (Content.json (.object [("y", .null)])).encode := by
      refine (files second.configFile).trans ?_
      rw [literalDrafts, List.map_nil, List.nil_append, PageTable.find?_windowDrafts, listed,
        List.find?_cons_of_pos (by simpa using same)]
      rfl
    rw [content, Ne, Option.some.injEq]
    decide

end ConfigRecovery
