import ConfigRecovery.Proofs.Application
import ConfigRecovery.Proofs.Literals
import ConfigRecovery.Proofs.Save

/-!
# What a run leaves behind

A run over a tree in memory tries to write four kinds of files, one after the other: that of the
extension platform, that of the application, the literals of the bundle and the windows. Which of
them meet in one path depends on the package, but the first of a path is always the one that stays.
-/

namespace ConfigRecovery

/-- The files that a recovery writes before it looks at the bundle. -/
def applicationDrafts (settings : Settings) (extension : Option Json.Value)
    (app : Fields Json.Value) : List Draft :=
  extension.toList.map (fun body => (settings.extFile, .json body)) ++
    [(settings.appFile, .json (.object app))]

theorem length_literalDrafts (literals : List Literal) :
    (literalDrafts literals).length = literals.length :=
  List.length_map _

theorem length_windowDrafts (table : PageTable) : (windowDrafts table).length = table.size := by
  rw [windowDrafts, List.length_map]
  exact Std.ExtTreeMap.length_toList

theorem writeExtension_memory {settings : Settings} {extension : Option Json.Value}
    {sink behind : Sink MemoryTree} {isNew : Bool}
    (ok : writeExtension settings extension sink = .ok isNew behind) :
    behind = (extension.toList.map fun body => (settings.extFile, .json body)).foldl Sink.put sink ∧
      (sink.written = [] → isNew = extension.isSome) := by
  cases extension with
  | none =>
    obtain ⟨rfl, rfl⟩ := step_pure_ok.mp ok
    exact ⟨rfl, fun _ => rfl⟩
  | some body =>
    have saved := Sink.save_memory (settings.extFile, .json body) sink
    have equal := saved.symm.trans ok
    cases equal
    exact ⟨rfl, fun empty => by simp [empty]⟩

/-- The first two kinds of files, as they are saved from the manifest. -/
theorem writeApp_memory {settings : Settings} {manifest : String} {sink behind : Sink MemoryTree}
    {table : PageTable} {summary : Summary}
    (ok : writeApp settings manifest sink = .ok (table, summary) behind) :
    ∃ m tabled assembly mid, Manifest.ofSource manifest settings.policy = .ok m ∧
      pageTable (m.take "page").1 = .ok tabled ∧ table = tabled.markComponents.1 ∧
      assemble settings manifest sink = .ok assembly mid ∧
      assembly.extension = extensionBody (m.take "extAppid").1 (m.take "ext").1 ∧
      (sink.written = [] → summary.extensionWritten = assembly.extension.isSome) ∧
      behind = (applicationDrafts settings assembly.extension assembly.app).foldl Sink.put sink := by
  obtain ⟨assembly, mid, isNew, assembled, saved, rfl, rfl⟩ := writeApp_ok ok
  obtain ⟨m, outline, new, tabBar, icons, tabled, read, outlined, written, linked, built, rfl⟩ :=
    assemble_ok assembled
  have distinct := (Manifest.ofSource_distinct read).keys_nodup
  obtain ⟨_, _, -, -, -, -, extension, -⟩ := Outline.ofManifest_ok distinct outlined
  obtain ⟨rfl, isNew⟩ := writeExtension_memory written
  have last := (Sink.save_memory (settings.appFile, .json (.object _)) _).symm.trans saved
  cases last
  refine ⟨m, tabled, _, _, read, built, rfl, assembled, extension, isNew, ?_⟩
  rw [applicationDrafts, List.foldl_append]
  rfl

/-- The other two kinds, with the number of those written and of those that came too late. -/
theorem Accepting.merge_eq {τ : Type} [OutputTree τ] (accepting : Accepting τ) (table : PageTable)
    (literals : List Literal) (sink : Sink τ) :
    ∃ counts, merge table literals sink =
        .ok counts ((literalDrafts literals ++ windowDrafts table).foldl accepting.put sink) ∧
      counts.streamed = (fresh sink.written (literalDrafts literals)).length ∧
      counts.fallback = (fresh ((literalDrafts literals).foldl accepting.put sink).written
        (windowDrafts table)).length ∧
      counts.streamed + counts.fallback + counts.skipped = literals.length + table.size := by
  obtain ⟨late, streamed, first⟩ := accepting.saveAll_eq (literalDrafts literals) sink
  obtain ⟨covered, flushed, second⟩ :=
    accepting.saveAll_eq (windowDrafts table) ((literalDrafts literals).foldl accepting.put sink)
  rw [length_literalDrafts] at first
  rw [length_windowDrafts] at second
  refine ⟨⟨_, _, late + covered⟩, ?_, rfl, rfl, ?_⟩
  · rw [List.foldl_append]
    exact (bind_of_ok streamed).trans ((bind_of_ok flushed).trans rfl)
  · dsimp only
    omega

theorem merge_memory (table : PageTable) (literals : List Literal) (sink : Sink MemoryTree) :
    ∃ counts, merge table literals sink =
        .ok counts ((literalDrafts literals ++ windowDrafts table).foldl Sink.put sink) ∧
      counts.streamed = (fresh sink.written (literalDrafts literals)).length ∧
      counts.fallback = (fresh ((literalDrafts literals).foldl Sink.put sink).written
        (windowDrafts table)).length ∧
      counts.streamed + counts.fallback + counts.skipped = literals.length + table.size :=
  Accepting.memory.merge_eq table literals sink

/-! ## A whole run -/

/-- The windows are in the order of their keys' names, each key once. -/
theorem PageTable.toList_sorted (table : PageTable) :
    (table.toList.map fun entry => entry.1.name).Pairwise (· < ·) := by
  rw [List.pairwise_map]
  refine Std.ExtTreeMap.ordered_keys_toList.imp fun {a b} before => ?_
  exact compareOfLessAndEq_eq_lt.mp before

/-- A run succeeds with what its three parts give. -/
theorem Recovery.run_of_merge {τ : Type} [OutputTree τ] {settings : Settings}
    {manifest service : String} {source : LiteralSource} {literals : List Literal}
    {table : PageTable} {early : Summary} {counts : MergeCounts} {sink mid behind : Sink τ}
    (present : service ≠ "") (given : source.Gives settings.registry service literals)
    (accepted : writeApp settings manifest sink = .ok (table, early) mid)
    (merged : merge table literals mid = .ok counts behind) :
    let recovery : Recovery := { settings, manifest := some manifest, service := some service }
    recovery.run source sink =
      ⟨.ok { early with merge := counts }, { recovery with stage := .done }, behind⟩ := by
  intro recovery
  have required : Recovery.requireService (some service) = .ok service := if_neg present
  have worked : recovery.work source sink = .ok { early with merge := counts } behind := by
    refine (bind_of_ok accepted).trans ?_
    refine (bind_of_ok (ofResult_ok.mpr ⟨required, rfl⟩)).trans ?_
    refine (bind_of_ok (ofResult_ok.mpr ⟨given.literals_eq, rfl⟩)).trans ?_
    exact (bind_of_ok merged).trans rfl
  rw [Recovery.run, worked]
  rfl

/-! ## Drafts as files -/

/-- A draft with the bytes that it comes to; its path is still the one that it was given. -/
def Draft.file (draft : Draft) : File := (draft.1, draft.2.encode)

theorem file_text (path text : String) : Draft.file (path, .text text) = (path, text.toUTF8) := rfl

theorem file_json (path : String) (value : Json.Value) :
    Draft.file (path, .json value) = (path, value.pretty.toUTF8) := rfl

theorem map_canonical_file (drafts : List Draft) :
    (drafts.map Draft.file).map (fun file => Path.canonical file.1) = drafts.map Draft.name := by
  rw [List.map_map]
  rfl

theorem find?_file (drafts : List Draft) (path : String) :
    ((drafts.map Draft.file).find? fun file => Path.canonical file.1 = path).map (·.2) =
      (drafts.find? fun draft => draft.name = path).map fun draft => draft.2.encode := by
  have same : (fun file : File => decide (Path.canonical file.1 = path)) ∘ Draft.file =
      fun draft => decide (draft.name = path) := by
    funext draft
    rw [Function.comp_apply, Draft.file, Draft.name]
  rw [List.find?_map, same, Option.map_map]
  rfl

theorem map_file_literalDrafts (literals : List Literal) :
    (literalDrafts literals).map Draft.file =
      literals.map fun literal => (Path.configFile literal.path, literal.source.toUTF8) := by
  rw [literalDrafts, List.map_map]
  exact List.map_congr_left fun literal _ => file_text _ literal.source

theorem map_file_windowDrafts (table : PageTable) :
    (windowDrafts table).map Draft.file = table.toList.map fun entry =>
      (entry.1.configFile, (Json.Value.object entry.2).pretty.toUTF8) := by
  rw [windowDrafts, List.map_map]
  exact List.map_congr_left fun entry _ => file_json _ (.object entry.2)

theorem extensionBody_of_absent {id extension : Option Json.Value}
    (absent : id = none ∨ extension = none) : extensionBody id extension = none := by
  cases id with
  | none => rfl
  | some id =>
    cases extension with
    | none => rfl
    | some extension => simp at absent

theorem pageTable_ok {pages : Option Json.Value} {table : PageTable} :
    pageTable pages = .ok table ↔ (pages = none → table = .empty) ∧
      ∀ value, pages = some value → PageTable.ofValue value = .ok table := by
  cases pages with
  | none => simp [pageTable, eq_comm]
  | some value => simp [pageTable]

/--
A run succeeds when its manifest is taken and its bundle is there. It means to write, in this order:
the file of the extension platform if the id and the configuration of an extension are both there,
the file of the application, the literals of the bundle, and the windows of the resolved page table
in the order of its keys. In the tree behind it, a path that some file was meant for holds the first
of these files, and all other paths are as before. The counts of literals and windows are those of
the files that are the first with their path.
-/
theorem Recovery.run_keeps_first {settings : Settings} {manifest service : String}
    {source : LiteralSource} {literals : List Literal} {seed : MemoryTree} {table : PageTable}
    {early : Summary} {mid : Sink MemoryTree} (present : service ≠ "")
    (given : source.Gives settings.registry service literals)
    (accepted : writeApp settings manifest ⟨seed, []⟩ = .ok (table, early) mid) :
    ∃ m tabled assembly start counts sink, ∃ front : List File,
      Manifest.ofSource manifest settings.policy = .ok m ∧
      ((m.take "page").1 = none → tabled = .empty) ∧
      (∀ pages, (m.take "page").1 = some pages → PageTable.ofValue pages = .ok tabled) ∧
      table = tabled.markComponents.1 ∧
      (table.toList.map fun entry => entry.1.name).Pairwise (· < ·) ∧
      assemble settings manifest (⟨seed, []⟩ : Sink MemoryTree) = .ok assembly start ∧
      let app : File := (settings.appFile, (Json.Value.object assembly.app).pretty.toUTF8)
      (∀ id extension, (m.take "extAppid").1 = some id → (m.take "ext").1 = some extension →
        let body := Json.Value.object
          [("extEnable", .bool true), ("extAppid", id), ("ext", extension)]
        front = [(settings.extFile, body.pretty.toUTF8), app] ∧ early.extensionWritten = true) ∧
      ((m.take "extAppid").1 = none ∨ (m.take "ext").1 = none →
        front = [app] ∧ early.extensionWritten = false) ∧
      let files := front ++
        literals.map (fun literal => (Path.configFile literal.path, literal.source.toUTF8)) ++
        table.toList.map fun entry =>
          (entry.1.configFile, (Json.Value.object entry.2).pretty.toUTF8)
      let names := files.map fun file => Path.canonical file.1
      let recovery : Recovery := { settings, manifest := some manifest, service := some service }
      recovery.run source ⟨seed, []⟩ =
        ⟨.ok { early with merge := counts }, { recovery with stage := .done }, sink⟩ ∧
      (∀ path, sink.tree.get? path =
        ((files.find? fun file => Path.canonical file.1 = path).map (·.2)).or (seed.get? path)) ∧
      counts.streamed = firstCount names front.length literals.length ∧
      counts.fallback = firstCount names (front.length + literals.length) table.size ∧
      counts.streamed + counts.fallback + counts.skipped = literals.length + table.size := by
  obtain ⟨m, tabled, assembly, start, read, built, resolved, assembled, extension, isNew, rfl⟩ :=
    writeApp_memory accepted
  obtain ⟨unlisted, listed⟩ := pageTable_ok.mp built
  rw [extension] at accepted isNew
  let front := applicationDrafts settings
    (extensionBody (m.take "extAppid").1 (m.take "ext").1) assembly.app
  let drafts := front ++ literalDrafts literals ++ windowDrafts table
  obtain ⟨counts, merged, streamed, fallback, total⟩ :=
    merge_memory table literals (front.foldl Sink.put ⟨seed, []⟩)
  rw [← List.foldl_append, ← List.append_assoc] at merged
  have names (drafts : List Draft) (name : String) :
      name ∈ (drafts.foldl Sink.put ⟨seed, []⟩).written ↔ name ∈ drafts.map Draft.name := by
    rw [Sink.mem_written_foldl_put]
    simp
  have files : drafts.map Draft.file = front.map Draft.file ++
      literals.map (fun literal => (Path.configFile literal.path, literal.source.toUTF8)) ++
      table.toList.map fun entry =>
        (entry.1.configFile, (Json.Value.object entry.2).pretty.toUTF8) := by
    rw [List.map_append, List.map_append, map_file_literalDrafts, map_file_windowDrafts]
  refine ⟨m, tabled, assembly, start, counts, drafts.foldl Sink.put ⟨seed, []⟩,
    front.map Draft.file, read, unlisted, listed, resolved, table.toList_sorted, assembled,
    ?_, ?_, ?_⟩
  · intro id body idTaken taken
    rw [idTaken, taken] at isNew
    simp only [front, idTaken, taken]
    exact ⟨rfl, isNew rfl⟩
  · intro absent
    rw [extensionBody_of_absent absent] at isNew
    simp only [front, extensionBody_of_absent absent]
    exact ⟨rfl, isNew rfl⟩
  · rw [← files]
    intro written canonical
    have same : canonical = drafts.map Draft.name := map_canonical_file drafts
    rw [same, List.length_map]
    refine ⟨run_of_merge present given accepted merged, ?_, ?_, ?_, total⟩
    · intro path
      rw [find?_file]
      exact Sink.get?_foldl_put List.not_mem_nil _
    · rw [streamed, fresh_congr (names front), ← firstCount_eq front _ (windowDrafts table),
        length_literalDrafts]
    · rw [fallback, ← List.foldl_append, fresh_congr (names _), ← length_windowDrafts,
        ← length_literalDrafts, ← List.length_append, ← firstCount_eq _ _ [], List.append_nil]

/-- An extension, two literals for one file, and two windows, of which the first comes too late. -/
theorem Recovery.run_two_literals_two_windows :
    let manifest : Json.Value := .object [("pages", .strings ["a"]), ("extAppid", .string "x"),
      ("ext", .object []), ("page", .object [("a", .object []),
        ("b", .object [("window", .object [("t", .string "B")])])])]
    let recovery : Recovery := { manifest := some manifest.compact, service := some "s" }
    let literals : List Literal := [⟨"/a", "one"⟩, ⟨"./a", "two"⟩]
    "s" ≠ "" ∧ (LiteralSource.stream literals).Gives recovery.settings.registry "s" literals ∧
      ∃ summary sink,
        recovery.run (.stream literals) ⟨MemoryTree.empty, []⟩ =
          ⟨.ok summary, { recovery with stage := .done }, sink⟩ ∧
        sink.tree.get? "ext.json" = some
          "\x7b\n  \"extEnable\": true,\n  \"extAppid\": \"x\",\n  \"ext\": \x7b\x7d\n\x7d".toUTF8 ∧
        sink.tree.get? "app.json" = some "\x7b\n  \"pages\": [\n    \"a\"\n  ]\n\x7d".toUTF8 ∧
        sink.tree.get? "a.json" = some "one".toUTF8 ∧
        sink.tree.get? "b.json" = some "\x7b\n  \"t\": \"B\"\n\x7d".toUTF8 ∧
        summary.extensionWritten = true ∧ summary.merge = ⟨1, 1, 2⟩ := by
  intro manifest recovery literals
  have distinct : manifest.Distinct := by simp [manifest, Json.Value.strings, Fields.keys]
  have integral : manifest.Integral := by simp [manifest, Json.Value.strings]
  have shallow : manifest.depth ≤ Json.Reader.maxDepth := by decide
  have parsed : Manifest.ofSource manifest.compact .truthy = .ok ⟨_, .truthy⟩ :=
    Manifest.ofSource_ok.mpr ⟨_, Json.Value.ofText_compact distinct integral shallow, rfl⟩
  have succeeds :
      succeeded (writeApp {} manifest.compact (⟨.empty, []⟩ : Sink MemoryTree)) = true := by
    simp only [writeApp, assemble, parsed]
    cbv
  obtain ⟨⟨table, early⟩, mid, accepted⟩ := ok_of_succeeded succeeds
  have present : "s" ≠ "" := by decide
  have given : (LiteralSource.stream literals).Gives recovery.settings.registry "s" literals :=
    .stream literals
  obtain ⟨m, tabled, assembly, start, counts, sink, front, read, -, tables, rfl, -, assembled,
    extended, -, ran, files, streamed, fallback, total⟩ := run_keeps_first present given accepted
  cases parsed.symm.trans read
  obtain ⟨entries, built, listed⟩ : ∃ table,
      PageTable.ofValue (.object [("a", .object []),
        ("b", .object [("window", .object [("t", .string "B")])])]) = .ok table ∧
      table.markComponents.1.toList = [(⟨"a"⟩, []), (⟨"b"⟩, [("t", .string "B")])] :=
    ⟨_, rfl, by cbv⟩
  cases built.symm.trans (tables _ rfl)
  have fields : assembly.app = [("pages", .array [.string "a"])] := by
    obtain ⟨_, outline, _, tabBar, _, _, read, outlined, -, linked, -, rfl⟩ := assemble_ok assembled
    cases parsed.symm.trans read
    cases outlined
    cases linked
    rfl
  obtain ⟨rfl, isNew⟩ := extended (.string "x") (.object []) rfl rfl
  rw [fields, listed] at files
  have ext : Path.canonical recovery.settings.extFile = "ext.json" := by decide
  have app : Path.canonical recovery.settings.appFile = "app.json" := by decide
  have one : Path.canonical (Path.configFile "/a") = "a.json" := by decide
  have two : Path.canonical (Path.configFile "./a") = "a.json" := by decide
  have first : Path.canonical (PageKey.configFile ⟨"a"⟩) = "a.json" := by decide
  have second : Path.canonical (PageKey.configFile ⟨"b"⟩) = "b.json" := by decide
  have extension : (Json.Value.object
      [("extEnable", .bool true), ("extAppid", .string "x"), ("ext", .object [])]).pretty =
      "\x7b\n  \"extEnable\": true,\n  \"extAppid\": \"x\",\n  \"ext\": \x7b\x7d\n\x7d" := by
    decide
  have application : (Json.Value.object [("pages", .array [.string "a"])]).pretty =
      "\x7b\n  \"pages\": [\n    \"a\"\n  ]\n\x7d" := by
    decide
  have window : (Json.Value.object [("t", .string "B")]).pretty =
      "\x7b\n  \"t\": \"B\"\n\x7d" := by
    decide
  refine ⟨present, given, _, sink, ran, ?_, ?_, ?_, ?_, isNew, ?_⟩
  · rw [files]
    simp [ext, extension]
  · rw [files]
    simp [ext, app, application]
  · rw [files]
    simp [ext, app, one, literals]
  · rw [files]
    simp [ext, app, one, two, first, second, window, literals]
  · have size : tabled.markComponents.1.size = 2 := by
      rw [← length_windowDrafts, windowDrafts, listed]
      rfl
    have literal : counts.streamed = 1 := by
      rw [streamed, listed]
      simp only [literals, List.map_append, List.map_cons, List.map_nil, List.length_cons,
        List.length_nil, ext, app, one, two, first, second]
      decide
    have late : counts.fallback = 1 := by
      rw [fallback, size, listed]
      simp only [literals, List.map_append, List.map_cons, List.map_nil, List.length_cons,
        List.length_nil, ext, app, one, two, first, second]
      decide
    have skipped : counts.skipped = 2 := by
      rw [literal, late, size] at total
      exact Nat.add_left_cancel (total.trans rfl)
    cases counts
    cases literal
    cases late
    cases skipped
    rfl

end ConfigRecovery
