import ConfigRecovery.Proofs.Application
import ConfigRecovery.Proofs.Partition
import ConfigRecovery.Proofs.RoundTrip

/-!
# The entry page

The entry page is moved to the front of the page list before pages are dealt out, the partition
leaves the first page where it is, and the page list is set last in the application's file. So the
file starts its page list with the entry page, whatever the subpackages and the global fields say.
The entry path may be any spelling of the page, but the list must hold the page by its key.
-/

namespace ConfigRecovery

/-! ## To the front of a list -/

theorem moveEntryFirst_of_mem {pages : List String} {entry : String}
    (listed : (PageKey.ofPath entry).name ∈ pages) :
    moveEntryFirst pages entry =
      (true, (PageKey.ofPath entry).name :: pages.erase (PageKey.ofPath entry).name) := by
  rw [moveEntryFirst, if_pos listed]

theorem moveEntryFirst_of_not_mem {pages : List String} {entry : String}
    (absent : (PageKey.ofPath entry).name ∉ pages) : moveEntryFirst pages entry = (false, pages) := by
  rw [moveEntryFirst, if_neg absent]

/--
The entry page is found just when the list holds its key, and then the first occurrence of the key
is moved to the front, while all other pages keep their order; else the list stays as it is. So a
page that is listed by its key is found by any spelling of it.
-/
theorem moveEntryFirst_moves (pages : List String) (entry : String) :
    (∀ page ∈ pages, (PageKey.ofPath page).name = page →
      PageKey.ofPath page = PageKey.ofPath entry →
      (moveEntryFirst pages entry).1 = true ∧
        (moveEntryFirst pages entry).2.head? = some page) ∧
    ((moveEntryFirst pages entry).1 = true ↔ (PageKey.ofPath entry).name ∈ pages) ∧
    (moveEntryFirst pages entry).2.Perm pages ∧
    ((moveEntryFirst pages entry).1 = true → ∃ before after,
      pages = before ++ (PageKey.ofPath entry).name :: after ∧
      (PageKey.ofPath entry).name ∉ before ∧
      (moveEntryFirst pages entry).2 = (PageKey.ofPath entry).name :: (before ++ after)) ∧
    ((moveEntryFirst pages entry).1 = false → (moveEntryFirst pages entry).2 = pages) := by
  by_cases listed : (PageKey.ofPath entry).name ∈ pages
  · rw [moveEntryFirst_of_mem listed]
    refine ⟨?_, iff_of_true rfl listed, (List.perm_cons_erase listed).symm, ?_, nofun⟩
    · intro page _ own same
      rw [same] at own
      exact ⟨rfl, congrArg some own⟩
    · intro _
      obtain ⟨before, after, absent, cut, erased⟩ := List.exists_erase_eq listed
      exact ⟨before, after, cut, absent, congrArg _ erased⟩
  · rw [moveEntryFirst_of_not_mem listed]
    refine ⟨?_, iff_of_false nofun listed, List.Perm.refl pages, nofun, fun _ => rfl⟩
    intro page member own same
    rw [same] at own
    exact (listed (own ▸ member)).elim

/-- Another spelling of a page that is listed twice, and also with its extension. -/
theorem moveEntryFirst_moves_spelling :
    let pages := ["x", "p/c.html", "p/c", "y", "p/c"]
    (PageKey.ofPath "p/c").name = "p/c" ∧ "p/c" ∈ pages ∧
    PageKey.ofPath "p/c" = PageKey.ofPath "/p\\.\\c.js" ∧
    (moveEntryFirst pages "/p\\.\\c.js").1 = true ∧
    (moveEntryFirst pages "/p\\.\\c.js").2.head? = some "p/c" ∧
    (moveEntryFirst pages "/p\\.\\c.js").2.Perm pages := by
  intro pages
  have own : (PageKey.ofPath "p/c").name = "p/c" := by decide
  have listed : "p/c" ∈ pages := by decide
  have same : PageKey.ofPath "p/c" = PageKey.ofPath "/p\\.\\c.js" := by decide
  obtain ⟨finds, -, permuted, -, -⟩ := moveEntryFirst_moves pages "/p\\.\\c.js"
  obtain ⟨found, front⟩ := finds "p/c" listed own same
  exact ⟨own, listed, same, found, front, permuted⟩

/-- A page that is listed with its extension is not found, though it is the page of the entry path. -/
theorem moveEntryFirst_misses_spelling :
    "pages/c.html" ∈ ["pages/a", "pages/c.html"] ∧
    PageKey.ofPath "pages/c.html" = PageKey.ofPath "pages/c" ∧
    moveEntryFirst ["pages/a", "pages/c.html"] "pages/c" =
      (false, ["pages/a", "pages/c.html"]) := by
  decide

/-! ## In the application's file -/

/-- Pages that are taken off a list leave its first page and a part of the others. -/
theorem Subpackage.remaining_cons (first : String) (rest taken : List String) :
    ∃ others, remaining (first :: rest) taken = first :: others ∧ others.Sublist rest := by
  refine ⟨_, ?_, List.diff_sublist rest (taken.filter (· ≠ first))⟩
  rw [← foldl_release, foldl_release_cons]

/-- The pages that go to no subpackage are those of the list that were not taken. -/
theorem Outline.exists_taken {pages left : List String} {declared dealt : Option Json.Value}
    {count : Nat} (ok : Outline.dealPages pages declared = .ok (left, dealt, count)) :
    ∃ taken, left = Subpackage.remaining pages taken := by
  obtain ⟨-, rfl, -⟩ | ⟨descriptors, -, -, -, rfl, -⟩ := Outline.dealPages_ok.mp ok
  · exact ⟨[], Subpackage.foldl_release left []⟩
  · exact Subpackage.exists_taken 0 pages descriptors

theorem Outline.orderPages_of_mem {pages : List String} {entry : String}
    (listed : (PageKey.ofPath entry).name ∈ pages) :
    Outline.orderPages pages (some entry) =
      (PageKey.ofPath entry).name :: pages.erase (PageKey.ofPath entry).name := by
  rw [Outline.orderPages, moveEntryFirst_of_mem listed]

/-- A list counts as present under every policy. -/
theorem Manifest.take_strings {m : Manifest} {key : String} {texts : List String}
    (stored : m.get? key = some (.strings texts)) : (m.take key).1 = some (.strings texts) := by
  have accepted : m.policy.accepts (.strings texts) = true := by
    cases m.policy <;> rfl
  rw [Manifest.take, stored, Option.filter_some, if_pos accepted]

/-- A tree in memory takes the application's file whenever that can be put together. -/
theorem writeApp_of_assemble {settings : Settings} {source : String} {sink mid : Sink MemoryTree}
    {assembly : Assembly} (assembled : assemble settings source sink = .ok assembly mid) :
    ∃ behind, writeApp settings source sink = .ok (assembly.table, assembly.summary) behind := by
  have saved := Sink.save_memory (settings.appFile, .json (.object assembly.app)) mid
  exact ⟨_, step_bind_ok.mpr ⟨assembly, mid, assembled, step_bind_ok.mpr ⟨_, _, saved, rfl⟩⟩⟩

variable {τ : Type} [OutputTree τ]

/--
A page list that holds the page of the entry path is written with this page in front, and the other
pages are those that are listed besides its first occurrence, in order, as far as they are left.
-/
theorem writeApp_entry_first {settings : Settings} {source : String} {sink behind : Sink τ}
    {table : PageTable} {summary : Summary}
    (ok : writeApp settings source sink = .ok (table, summary) behind) {m : Manifest}
    (read : Manifest.ofSource source settings.policy = .ok m) {entry : String}
    (given : (m.take "entryPagePath").1 = some (.string entry)) {listed : List String}
    (pages : m.get? "pages" = some (.strings listed))
    (member : (PageKey.ofPath entry).name ∈ listed) :
    ∃ assembly mid isNew others, assemble settings source sink = .ok assembly mid ∧
      Sink.save settings.appFile (.json (.object assembly.app)) mid = .ok isNew behind ∧
      assembly.app.get? "pages" = some (.strings ((PageKey.ofPath entry).name :: others)) ∧
      others.Sublist (listed.erase (PageKey.ofPath entry).name) := by
  obtain ⟨assembly, mid, isNew, assembled, saved, -, -⟩ := writeApp_ok ok
  obtain ⟨m', outline, new, tabBar, icons, table', read', outlined, -, -, -, rfl⟩ :=
    assemble_ok assembled
  cases read.symm.trans read'
  obtain ⟨entry', listed', first, listing, dealt, -, -, -⟩ :=
    Outline.ofManifest_ok (Manifest.ofSource_distinct read).keys_nodup outlined
  have path : (m.takeString "entryPagePath").1 = .ok (some entry) :=
    Manifest.takeString_ok.mpr given
  cases first.symm.trans path
  cases listing.symm.trans (Manifest.takeStrings_ok.mpr (Manifest.take_strings pages))
  obtain ⟨taken, left⟩ := Outline.exists_taken dealt
  rw [Outline.orderPages_of_mem member] at left
  obtain ⟨others, front, part⟩ := Subpackage.remaining_cons (PageKey.ofPath entry).name
    (listed.erase (PageKey.ofPath entry).name) taken
  refine ⟨_, mid, isNew, others, assembled, saved, ?_, part⟩
  rw [← front, ← left]
  exact Fields.get?_insert_self _ "pages" _

/-- A subpackage whose root takes all pages, and global fields with pages of their own. -/
theorem writeApp_entry_first_taken :
    let manifest : Json.Value := .object [("entryPagePath", .string "e.js"),
      ("pages", .strings ["b", "e", "e"]), ("subPackages", .array [.object [("root", .string "")]]),
      ("global", .object [("pages", .array [])])]
    ∃ table summary behind, ∃ assembly : Assembly, ∃ mid isNew others,
      writeApp {} manifest.compact (⟨.empty, []⟩ : Sink MemoryTree) = .ok (table, summary) behind ∧
      Sink.save "app.json" (.json (.object assembly.app)) mid = .ok isNew behind ∧
      assembly.app.get? "pages" = some (.strings ("e" :: others)) ∧ others.Sublist ["b", "e"] := by
  intro manifest
  have distinct : manifest.Distinct := by simp [manifest, Json.Value.strings, Fields.keys]
  have integral : manifest.Integral := by simp [manifest, Json.Value.strings]
  have shallow : manifest.depth ≤ Json.Reader.maxDepth := by decide
  have read : Manifest.ofSource manifest.compact .truthy = .ok ⟨_, .truthy⟩ :=
    Manifest.ofSource_ok.mpr ⟨_, Json.Value.ofText_compact distinct integral shallow, rfl⟩
  have succeeds : succeeded (assemble {} manifest.compact (⟨.empty, []⟩ : Sink MemoryTree)) := by
    simp only [assemble, read]
    cbv
  obtain ⟨_, _, assembled⟩ := ok_of_succeeded succeeds
  obtain ⟨behind, ok⟩ := writeApp_of_assemble assembled
  have name : (PageKey.ofPath "e.js").name = "e" := by
    cbv
  obtain ⟨assembly, mid, isNew, others, -, saved, first, part⟩ :=
    writeApp_entry_first ok read rfl rfl (by rw [name]; decide)
  rw [name] at first part
  exact ⟨_, _, behind, assembly, mid, isNew, others, ok, saved, first, part⟩

end ConfigRecovery
