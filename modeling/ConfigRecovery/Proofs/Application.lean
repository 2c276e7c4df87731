import ConfigRecovery.Proofs.Manifest
import ConfigRecovery.Proofs.RoundTrip
import ConfigRecovery.Recovery.Run
import ConfigRecovery.Store.Memory

/-!
# The application's file

Which fields the file has, in which order and with which values. Place and value go by different
rules: a field keeps the place where it came up first, and has the value that was set last.
-/

namespace ConfigRecovery

namespace AppFile

def spreadFields : Option Json.Value → Fields Json.Value
  | some (.object fields) => fields
  | _ => []

theorem spread_eq (fields : Fields Json.Value) (global : Option Json.Value) :
    spread fields global = fields.extend (spreadFields global) := by
  cases global with
  | none => rfl
  | some value => cases value <;> rfl

theorem keys_setOptional {fields : Fields Json.Value} {key : String} (absent : key ∉ fields.keys)
    (value : Option Json.Value) :
    (setOptional fields key value).keys = fields.keys ++ if value.isSome then [key] else [] := by
  cases value with
  | none => simp [setOptional]
  | some value => simp [setOptional, Fields.keys_insert, absent]

theorem nodup_setOptional {fields : Fields Json.Value} (h : fields.keys.Nodup) (key : String)
    (value : Option Json.Value) : (setOptional fields key value).keys.Nodup := by
  cases value with
  | none => exact h
  | some value => exact Fields.nodup_keys_insert h key value

theorem get?_setOptional {fields : Fields Json.Value} {key : String} (absent : key ∉ fields.keys)
    (value : Option Json.Value) (other : String) :
    (setOptional fields key value).get? other =
      if other = key then value else fields.get? other := by
  cases value with
  | none =>
    by_cases h : other = key
    · rw [if_pos h, h]
      exact Fields.get?_eq_none_iff.mpr absent
    · rw [if_neg h, setOptional]
  | some value => exact Fields.get?_insert fields key other value

/--
The keys of the file, in order: those that pass through, those that are set again, those that are
spread, the pages.
-/
def layout (passed : List String) (tabBar subpackages : Bool) (spread : List String) :
    List String :=
  let own := passed ++ (if tabBar then ["tabBar"] else []) ++
    (if subpackages then ["subPackages"] else [])
  let all := own ++ spread.filter (· ∉ own)
  if "pages" ∈ all then all else all ++ ["pages"]

theorem nodup_fields {rest : Fields Json.Value} (h : rest.keys.Nodup)
    (tabBar subpackages global : Option Json.Value) (pages : List String) :
    (fields rest tabBar subpackages global pages).keys.Nodup := by
  rw [fields, spread_eq]
  exact Fields.nodup_keys_insert
    (Fields.nodup_keys_extend (nodup_setOptional (nodup_setOptional h _ _) _ _) _) _ _

section

variable {rest : Fields Json.Value} (noTabBar : "tabBar" ∉ rest.keys)
  (noSubpackages : "subPackages" ∉ rest.keys) (tabBar subpackages : Option Json.Value)
  {global : Option Json.Value} (distinct : (spreadFields global).keys.Nodup) (pages : List String)

include noTabBar noSubpackages

theorem subpackages_absent : "subPackages" ∉ (setOptional rest "tabBar" tabBar).keys := by
  rw [keys_setOptional noTabBar, List.mem_append]
  rintro (passed | own)
  · exact noSubpackages passed
  · cases tabBar <;> simp at own

include distinct

theorem keys_fields :
    (fields rest tabBar subpackages global pages).keys =
      layout rest.keys tabBar.isSome subpackages.isSome (spreadFields global).keys := by
  have absent := subpackages_absent noTabBar noSubpackages tabBar
  rw [fields, Fields.keys_insert, spread_eq, Fields.keys_extend _ distinct, keys_setOptional absent,
    keys_setOptional noTabBar]
  rfl

theorem get?_fields (key : String) :
    (fields rest tabBar subpackages global pages).get? key =
      if key = "pages" then some (.strings pages)
      else ((spreadFields global).get? key).or
        (if key = "tabBar" then tabBar else if key = "subPackages" then subpackages
          else rest.get? key) := by
  have absent := subpackages_absent noTabBar noSubpackages tabBar
  rw [fields, Fields.get?_insert, spread_eq, Fields.get?_extend _ distinct, get?_setOptional absent,
    get?_setOptional noTabBar]
  by_cases h : key = "tabBar"
  · simp [h]
  · simp [h]

end

end AppFile

theorem TabBar.link_of_items_none {index : ContentIndex} {tabBar : Json.Value}
    (h : TabBar.items? tabBar = none) : TabBar.link index tabBar = (tabBar, {}) := by
  unfold TabBar.link
  rw [h]
  split
  · rename_i equal
    cases equal
  · rfl

variable {τ : Type} [OutputTree τ]

/-- Linking the icons reads the files of the tree if there are items, and writes nothing. -/
theorem linkTabBar_ok {settings : Settings} {tabBar linked : Option Json.Value}
    {counts : TabBar.Counts} {sink behind : Sink τ}
    (ok : linkTabBar settings tabBar sink = .ok (linked, counts) behind) :
    behind = sink ∧ ∃ files,
      (∀ value, tabBar = some value → (TabBar.items? value).isSome = true →
        OutputTree.files sink.tree = .ok files) ∧
      linked = tabBar.map fun value =>
        (TabBar.link (ContentIndex.ofFiles settings files) value).1 := by
  cases tabBar with
  | none =>
    obtain ⟨equal, rfl⟩ := step_pure_ok.mp ok
    cases equal
    exact ⟨rfl, [], by simp, rfl⟩
  | some value =>
    unfold linkTabBar at ok
    cases hi : TabBar.items? value with
    | none =>
      simp only [hi] at ok
      obtain ⟨equal, rfl⟩ := step_pure_ok.mp ok
      cases equal
      refine ⟨rfl, [], ?_, by simp [TabBar.link_of_items_none hi]⟩
      rintro other ⟨⟩ items
      simp [hi] at items
    | some items =>
      simp only [hi] at ok
      obtain ⟨_, _, got, ok⟩ := step_bind_ok.mp ok
      cases got
      obtain ⟨files, _, listed, ok⟩ := step_bind_ok.mp ok
      obtain ⟨listing, rfl⟩ := ofResult_ok.mp listed
      obtain ⟨equal, rfl⟩ := step_pure_ok.mp ok
      cases equal
      exact ⟨rfl, files, fun _ _ _ => listing, rfl⟩

/-- The fields that a recovery takes from the manifest, in the order in which it does. -/
def takenFields : List String :=
  ["entryPagePath", "pages", "global", "subPackages", "extAppid", "ext", "tabBar", "page", "renderer"]

theorem assemble_ok {settings : Settings} {source : String} {sink behind : Sink τ}
    {assembly : Assembly} (ok : assemble settings source sink = .ok assembly behind) :
    ∃ m outline isNew tabBar icons table,
      Manifest.ofSource source settings.policy = .ok m ∧
      Outline.ofManifest m = .ok outline ∧
      writeExtension settings outline.extension sink = .ok isNew behind ∧
      linkTabBar settings (m.take "tabBar").1 behind = .ok (tabBar, icons) behind ∧
      pageTable (m.take "page").1 = .ok table ∧
      assembly = {
        extension := outline.extension
        app := AppFile.fields (m.without takenFields).fields tabBar outline.subpackages
          outline.global outline.pages
        table := table.markComponents.1
        summary := {
          pages := outline.pages.length
          subpackages := outline.subpackageCount
          extensionWritten := isNew
          icons
          components := table.markComponents.2 } } := by
  unfold assemble at ok
  obtain ⟨m, _, parsed, ok₁⟩ := step_bind_ok.mp ok
  obtain ⟨read, rfl⟩ := ofResult_ok.mp parsed
  obtain ⟨outline, _, taken, ok₂⟩ := step_bind_ok.mp ok₁
  obtain ⟨outlined, rfl⟩ := ofResult_ok.mp taken
  have distinct := (Manifest.ofSource_distinct read).keys_nodup
  obtain ⟨_, _, -, -, -, -, -, left⟩ := Outline.ofManifest_ok distinct outlined
  simp only [left, Manifest.take_without distinct, List.mem_cons, List.not_mem_nil, or_false,
    String.reduceEq, not_false_eq_true, List.cons_append, List.nil_append] at ok₂
  obtain ⟨isNew, mid, written, ok₃⟩ := step_bind_ok.mp ok₂
  obtain ⟨⟨tabBar, icons⟩, _, linked, ok₄⟩ := step_bind_ok.mp ok₃
  obtain ⟨rfl, -⟩ := linkTabBar_ok linked
  obtain ⟨table, _, built, ok₅⟩ := step_bind_ok.mp ok₄
  obtain ⟨tabled, rfl⟩ := ofResult_ok.mp built
  obtain ⟨equal, rfl⟩ := step_pure_ok.mp ok₅
  exact ⟨m, outline, isNew, tabBar, icons, table, read, outlined, written, linked, tabled,
    equal.symm⟩

theorem Outline.dealPages_ok {pages left : List String} {declared dealt : Option Json.Value}
    {count : Nat} : Outline.dealPages pages declared = .ok (left, dealt, count) ↔
      declared = none ∧ left = pages ∧ dealt = none ∧ count = 0 ∨
      ∃ descriptors shares, declared = some (.array descriptors) ∧
        (Subpackage.partition pages descriptors).result = .ok shares ∧
        left = (Subpackage.partition pages descriptors).pages ∧
        dealt = some (.array (Subpackage.partition pages descriptors).descriptors) ∧
        count = shares.length := by
  cases declared with
  | none => simp [dealPages, eq_comm]
  | some value =>
    cases value with
    | array descriptors =>
      refine except_bind_ok.trans ?_
      constructor
      · rintro ⟨shares, dealt, same⟩
        cases same
        exact .inr ⟨descriptors, shares, rfl, dealt, rfl, rfl, rfl⟩
      · rintro (⟨absent, -⟩ | ⟨_, shares, same, dealt, rfl, rfl, rfl⟩)
        · cases absent
        · cases same
          exact ⟨shares, dealt, rfl⟩
    | _ => simp [dealPages]

theorem writeApp_ok {settings : Settings} {source : String} {sink behind : Sink τ}
    {table : PageTable} {summary : Summary}
    (ok : writeApp settings source sink = .ok (table, summary) behind) :
    ∃ assembly mid isNew, assemble settings source sink = .ok assembly mid ∧
      Sink.save settings.appFile (.json (.object assembly.app)) mid = .ok isNew behind ∧
      table = assembly.table ∧ summary = assembly.summary := by
  obtain ⟨assembly, mid, assembled, ok₁⟩ := step_bind_ok.mp ok
  obtain ⟨isNew, _, saved, ok₂⟩ := step_bind_ok.mp ok₁
  obtain ⟨equal, rfl⟩ := step_pure_ok.mp ok₂
  cases equal
  exact ⟨assembly, mid, isNew, assembled, saved, rfl, rfl⟩

/-- The fields that are spread have distinct keys, like all objects of a manifest's text. -/
theorem Manifest.global_nodup {m : Manifest} (h : (Json.Value.object m.fields).Distinct) :
    (AppFile.spreadFields (m.take "global").1).keys.Nodup := by
  cases taken : (m.take "global").1 with
  | none => exact List.nodup_nil
  | some value =>
    cases value with
    | object fields => exact (Manifest.take_distinct h taken).keys_nodup
    | _ => exact List.nodup_nil

theorem Manifest.absent_without (m : Manifest) {taken : List String} {key : String}
    (h : key ∈ taken) : key ∉ (m.without taken).fields.keys := by
  rw [Manifest.without, Fields.keys_without, List.mem_filter]
  simp [h]

/-- The pages of an outline and what its subpackages got, by what the manifest says of them. -/
theorem Outline.ofManifest_pages {m : Manifest} (distinct : m.fields.keys.Nodup)
    {outline : Outline} (ok : Outline.ofManifest m = .ok outline) :
    ∃ listed ordered, (m.take "pages").1 = some (.strings listed) ∧
      ((m.take "entryPagePath").1 = none → ordered = listed) ∧
      (∀ value, (m.take "entryPagePath").1 = some value → ∃ entry, value = .string entry ∧
        ordered = (moveEntryFirst listed entry).2) ∧
      ((m.take "subPackages").1 = none →
        outline.pages = ordered ∧ outline.subpackages = none ∧ outline.subpackageCount = 0) ∧
      ∀ value, (m.take "subPackages").1 = some value → ∃ descriptors shares,
        value = .array descriptors ∧
        (Subpackage.partition ordered descriptors).result = .ok shares ∧
        outline.pages = (Subpackage.partition ordered descriptors).pages ∧
        outline.subpackages = some (.array (Subpackage.partition ordered descriptors).descriptors) ∧
        outline.subpackageCount = shares.length := by
  obtain ⟨entry, listed, first, listing, dealt, -⟩ := Outline.ofManifest_ok distinct ok
  rw [Manifest.takeString_ok] at first
  rw [Outline.dealPages_ok] at dealt
  refine ⟨listed, Outline.orderPages listed entry, Manifest.takeStrings_ok.mp listing,
    ?_, ?_, ?_, ?_⟩
  · intro absent
    cases entry with
    | none => rfl
    | some entry => cases first.symm.trans absent
  · intro value given
    cases entry with
    | none => cases first.symm.trans given
    | some entry => exact ⟨entry, Option.some.inj (given.symm.trans first), rfl⟩
  · intro absent
    obtain ⟨-, undealt⟩ | ⟨descriptors, shares, given, -⟩ := dealt
    · exact undealt
    · cases absent.symm.trans given
  · intro value given
    obtain ⟨absent, -⟩ | ⟨descriptors, shares, same, dealt⟩ := dealt
    · cases absent.symm.trans given
    · exact ⟨descriptors, shares, Option.some.inj (given.symm.trans same), dealt⟩

theorem Outline.isSome_subpackages {m : Manifest} (distinct : m.fields.keys.Nodup)
    {outline : Outline} (ok : Outline.ofManifest m = .ok outline) :
    outline.subpackages.isSome = (m.take "subPackages").1.isSome := by
  obtain ⟨_, _, -, -, -, unlisted, listed⟩ := Outline.ofManifest_pages distinct ok
  cases given : (m.take "subPackages").1 with
  | none => rw [(unlisted given).2.1]
  | some value =>
    obtain ⟨_, _, -, -, -, dealt, -⟩ := listed value given
    rw [dealt]
    rfl

/--
The file handed to the sink for the application: its keys in order, its values, and how many pages
it lists. These are the listed pages, with the entry page in front if one is given, as far as the
declared subpackages leave them.
-/
theorem writeApp_fields {settings : Settings} {source : String} {sink behind : Sink τ}
    {table : PageTable} {summary : Summary}
    (ok : writeApp settings source sink = .ok (table, summary) behind) :
    ∃ m assembly mid isNew listed ordered pages subpackages files,
      Manifest.ofSource source settings.policy = .ok m ∧
      assemble settings source sink = .ok assembly mid ∧
      Sink.save settings.appFile (.json (.object assembly.app)) mid = .ok isNew behind ∧
      (m.take "pages").1 = some (.strings listed) ∧
      ((m.take "entryPagePath").1 = none → ordered = listed) ∧
      (∀ value, (m.take "entryPagePath").1 = some value → ∃ entry, value = .string entry ∧
        ordered = (moveEntryFirst listed entry).2) ∧
      ((m.take "subPackages").1 = none →
        pages = ordered ∧ subpackages = none ∧ summary.subpackages = 0) ∧
      (∀ value, (m.take "subPackages").1 = some value → ∃ descriptors shares,
        value = .array descriptors ∧
        (Subpackage.partition ordered descriptors).result = .ok shares ∧
        pages = (Subpackage.partition ordered descriptors).pages ∧
        subpackages = some (.array (Subpackage.partition ordered descriptors).descriptors) ∧
        summary.subpackages = shares.length) ∧
      (∀ value, (m.take "tabBar").1 = some value → (TabBar.items? value).isSome = true →
        OutputTree.files mid.tree = .ok files) ∧
      assembly.app.keys.Nodup ∧
      assembly.app.keys = AppFile.layout (m.fields.keys.filter (· ∉ takenFields))
        (m.take "tabBar").1.isSome (m.take "subPackages").1.isSome
        (AppFile.spreadFields (m.take "global").1).keys ∧
      (∀ key, assembly.app.get? key =
        if key = "pages" then some (.strings pages)
        else ((AppFile.spreadFields (m.take "global").1).get? key).or
          (if key = "tabBar" then (m.take "tabBar").1.map fun value =>
              (TabBar.link (ContentIndex.ofFiles settings files) value).1
            else if key = "subPackages" then subpackages
            else if key ∈ takenFields then none
            else m.fields.get? key)) ∧
      summary.pages = pages.length := by
  obtain ⟨assembly, mid, isNew, assembled, saved, -, rfl⟩ := writeApp_ok ok
  obtain ⟨m, outline, new, tabBar, icons, table, read, outlined, -, linked, -, rfl⟩ :=
    assemble_ok assembled
  have distinct := Manifest.ofSource_distinct read
  obtain ⟨_, _, -, -, -, global, -, -⟩ := Outline.ofManifest_ok distinct.keys_nodup outlined
  obtain ⟨listed, ordered, listing, unordered, first, undealt, dealt⟩ :=
    Outline.ofManifest_pages distinct.keys_nodup outlined
  obtain ⟨-, files, reading, rfl⟩ := linkTabBar_ok linked
  have spread : (AppFile.spreadFields outline.global).keys.Nodup := by
    rw [global]
    exact Manifest.global_nodup distinct
  have noTabBar : "tabBar" ∉ (m.without takenFields).fields.keys := m.absent_without (by decide)
  have noSubpackages : "subPackages" ∉ (m.without takenFields).fields.keys :=
    m.absent_without (by decide)
  have keys := AppFile.keys_fields noTabBar noSubpackages
    ((m.take "tabBar").1.map fun value =>
      (TabBar.link (ContentIndex.ofFiles settings files) value).1)
    outline.subpackages spread outline.pages
  have values := AppFile.get?_fields noTabBar noSubpackages
    ((m.take "tabBar").1.map fun value =>
      (TabBar.link (ContentIndex.ofFiles settings files) value).1)
    outline.subpackages spread outline.pages
  refine ⟨m, _, mid, isNew, listed, ordered, outline.pages, outline.subpackages, files, read,
    assembled, saved, listing, unordered, first, undealt, dealt, reading, ?_, ?_, ?_, rfl⟩
  · refine AppFile.nodup_fields ?_ _ _ _ _
    rw [Manifest.without, Fields.keys_without]
    exact distinct.keys_nodup.filter _
  · rw [keys, Option.isSome_map, Outline.isSome_subpackages distinct.keys_nodup outlined, global,
      Manifest.without, Fields.keys_without]
  · intro key
    rw [values key, global, Manifest.without, Fields.get?_without]

/--
A global field in the place of the manifest's own, and one that says what the pages are. Of the
pages the second is the entry page, and the first goes to a subpackage.
-/
theorem writeApp_fields_global :
    let manifest : Json.Value := .object [("z", .string "own"), ("pages", .strings ["s/b", "a"]),
      ("entryPagePath", .string "/a.js"),
      ("subPackages", .array [.object [("root", .string "s/")]]),
      ("global", .object [("pages", .string "all"), ("z", .string "global")])]
    ∃ table summary behind, ∃ assembly : Assembly, ∃ mid isNew,
      writeApp {} manifest.compact (⟨.empty, []⟩ : Sink MemoryTree) = .ok (table, summary) behind ∧
      Sink.save "app.json" (.json (.object assembly.app)) mid = .ok isNew behind ∧
      assembly.app.keys = ["z", "subPackages", "pages"] ∧
      assembly.app.get? "z" = some (.string "global") ∧
      assembly.app.get? "subPackages" =
        some (.array [.object [("root", .string "s/"), ("pages", .strings ["b"])]]) ∧
      assembly.app.get? "pages" = some (.strings ["a"]) ∧
      summary.pages = 1 ∧ summary.subpackages = 1 := by
  intro manifest
  have distinct : manifest.Distinct := by simp [manifest, Json.Value.strings, Fields.keys]
  have integral : manifest.Integral := by simp [manifest, Json.Value.strings]
  have shallow : manifest.depth ≤ Json.Reader.maxDepth := by decide
  have parsed : Manifest.ofSource manifest.compact .truthy = .ok ⟨_, .truthy⟩ :=
    Manifest.ofSource_ok.mpr ⟨_, Json.Value.ofText_compact distinct integral shallow, rfl⟩
  have succeeds :
      succeeded (writeApp {} manifest.compact (⟨.empty, []⟩ : Sink MemoryTree)) = true := by
    simp only [writeApp, assemble, parsed]
    cbv
  obtain ⟨⟨table, summary⟩, behind, ok⟩ := ok_of_succeeded succeeds
  obtain ⟨m, assembly, mid, isNew, listed, ordered, pages, subpackages, files, read, -, saved,
    listing, -, first, -, dealt, -, -, keys, values, length⟩ := writeApp_fields ok
  cases parsed.symm.trans read
  obtain rfl : ["s/b", "a"] = listed :=
    List.map_injective_iff.mpr (fun _ _ => Json.Value.string.inj)
      (Json.Value.array.inj (Option.some.inj listing))
  obtain ⟨_, same, ordering⟩ := first (.string "/a.js") rfl
  cases same
  obtain ⟨_, shares, same, dealt, left, rewritten, count⟩ :=
    dealt (.array [.object [("root", .string "s/")]]) rfl
  cases same
  have inOrder : (moveEntryFirst ["s/b", "a"] "/a.js").2 = ["a", "s/b"] := by decide
  have partition : Subpackage.partition ["a", "s/b"] [.object [("root", .string "s/")]] =
      ⟨["a"], [.object [("root", .string "s/"), ("pages", .strings ["b"])]],
        .ok [⟨"s/", ["b"]⟩]⟩ := by
    rfl
  rw [ordering, inOrder, partition] at dealt left rewritten
  obtain rfl := Except.ok.inj dealt
  rw [left, rewritten] at values
  rw [left] at length
  exact ⟨table, summary, behind, assembly, mid, isNew, ok, saved, keys.trans (by decide),
    values "z", values "subPackages", values "pages", length, count⟩

end ConfigRecovery
