import ConfigRecovery.Proofs.Icons
import ConfigRecovery.Proofs.Output
import ConfigRecovery.Proofs.Script

/-!
# Runs over their own output

A run sees nothing of a tree in memory but the files that may be icons. Where it writes only files
that cannot be icons, a second run over its output sees what the first one saw, makes the same
writes, and leaves all as it is.
-/

namespace ConfigRecovery

/-! ## Trees that look alike -/

theorem MemoryTree.mem_files {tree : MemoryTree} {file : File} :
    file ∈ tree.files ↔ tree.get? file.1 = some file.2 :=
  Std.ExtTreeMap.mem_toList_iff_getElem?_eq_some

theorem MemoryTree.pairwise_files (tree : MemoryTree) :
    tree.files.Pairwise fun a b => compare a.1 b.1 = .lt :=
  Std.ExtTreeMap.ordered_keys_toList

theorem MemoryTree.nodup_files (tree : MemoryTree) : tree.files.Nodup := by
  apply tree.pairwise_files.imp
  rintro a b less rfl
  rw [Std.ReflOrd.compare_self] at less
  cases less

theorem MemoryTree.ext {a b : MemoryTree} (same : ∀ path, a.get? path = b.get? path) : a = b :=
  congrArg MemoryTree.mk (Std.ExtTreeMap.ext_getElem? same)

/-- Two trees with the same files that may be icons. -/
def MemoryTree.Alike (settings : Settings) (a b : MemoryTree) : Prop :=
  ∀ path, (Path.extension? path).any settings.ignores = false → a.get? path = b.get? path

variable {settings : Settings}

theorem ContentIndex.inOrder_files (tree : MemoryTree) : inOrder tree.files = tree.files := by
  apply List.mergeSort_of_pairwise
  exact tree.pairwise_files.imp fun less => by rw [less]; rfl

theorem MemoryTree.Alike.ofFiles_eq {a b : MemoryTree} (alike : a.Alike settings b) :
    ContentIndex.ofFiles settings a.files = ContentIndex.ofFiles settings b.files := by
  have candidates : a.files.filter (ContentIndex.isEligible settings) =
      b.files.filter (ContentIndex.isEligible settings) := by
    apply List.Perm.eq_of_pairwise _ (a.pairwise_files.filter _) (b.pairwise_files.filter _)
    · rw [List.perm_ext_iff_of_nodup (a.nodup_files.filter _) (b.nodup_files.filter _)]
      intro file
      rw [List.mem_filter, List.mem_filter, mem_files, mem_files]
      apply and_congr_left
      intro eligible
      rw [alike file.1 (by simpa [ContentIndex.isEligible] using eligible)]
    · intro x y _ _ less greater
      rw [Std.OrientedOrd.eq_swap (a := x.1), greater] at less
      cases less
  rw [ContentIndex.ofFiles, ContentIndex.ofFiles, ContentIndex.inOrder_files,
    ContentIndex.inOrder_files, candidates]

/-! ## Two runs side by side -/

/-- Two sinks that a run cannot tell apart. -/
structure Sink.Alike (settings : Settings) (a b : Sink MemoryTree) : Prop where
  written : a.written = b.written
  tree : a.tree.Alike settings b.tree

namespace Sink

theorem Alike.put {a b : Sink MemoryTree} (alike : a.Alike settings b) (draft : Draft) :
    (a.put draft).Alike settings (b.put draft) := by
  by_cases seen : draft.name ∈ b.written
  · simpa [Sink.put, alike.written, seen] using alike
  · have seen' : draft.name ∉ a.written := alike.written ▸ seen
    constructor
    · simp [Sink.put, seen, alike.written]
    · intro path candidate
      simp [Sink.put, seen, seen', alike.tree path candidate]

end Sink

variable {α : Type} {raises : Failure → Prop}

/-- Two results of one kind, behind the same drafts. -/
inductive Echo (a b : Sink MemoryTree) : EStateM.Result Failure (Sink MemoryTree) α →
    EStateM.Result Failure (Sink MemoryTree) α → Prop where
  | ok (value : α) (drafts : List Draft) :
      Echo a b (.ok value (drafts.foldl Sink.put a)) (.ok value (drafts.foldl Sink.put b))
  | error (failure : Failure) (drafts : List Draft) :
      Echo a b (.error failure (drafts.foldl Sink.put a)) (.error failure (drafts.foldl Sink.put b))

theorem Echo.prepend {a b : Sink MemoryTree} {draft : Draft}
    {x y : EStateM.Result Failure (Sink MemoryTree) α} (rest : Echo (a.put draft) (b.put draft) x y) :
    Echo a b x y := by
  cases rest with
  | ok value drafts => exact .ok value (draft :: drafts)
  | error failure drafts => exact .error failure (draft :: drafts)

theorem Script.echo (script : Script settings raises α) {a b : Sink MemoryTree}
    (alike : a.Alike settings b) : Echo a b (script.run a) (script.run b) := by
  induction script generalizing a b with
  | done value => exact .ok value []
  | fail failure own => exact .error failure []
  | save draft next ih =>
    rw [Script.run, bind_of_ok (Sink.save_memory draft a), bind_of_ok (Sink.save_memory draft b),
      alike.written]
    exact (ih _ (alike.put draft)).prepend
  | index next ih =>
    have same := alike.tree.ofFiles_eq
    change Echo a b ((next (ContentIndex.ofFiles settings a.tree.files)).run a)
      ((next (ContentIndex.ofFiles settings b.tree.files)).run b)
    rw [same]
    exact ih _ alike

/-! ## The same run again -/

theorem Sink.written_foldl_put {a b : Sink MemoryTree} (same : a.written = b.written)
    (drafts : List Draft) :
    (drafts.foldl Sink.put a).written = (drafts.foldl Sink.put b).written := by
  induction drafts generalizing a b with
  | nil => exact same
  | cons draft drafts ih =>
    apply ih
    by_cases seen : draft.name ∈ b.written
    · simp [Sink.put, same, seen]
    · simp [Sink.put, same, seen]

/-- Drafts that are there already change nothing. -/
theorem Sink.foldl_put_again (seed : MemoryTree) (drafts : List Draft) :
    drafts.foldl Sink.put ⟨(drafts.foldl Sink.put ⟨seed, []⟩).tree, []⟩ =
      drafts.foldl Sink.put ⟨seed, []⟩ := by
  have tree : (drafts.foldl Sink.put ⟨(drafts.foldl Sink.put ⟨seed, []⟩).tree, []⟩).tree =
      (drafts.foldl Sink.put ⟨seed, []⟩).tree := by
    apply MemoryTree.ext
    intro path
    rw [get?_foldl_put List.not_mem_nil, get?_foldl_put List.not_mem_nil]
    cases drafts.find? fun draft => draft.name = path with
    | none => rfl
    | some draft => rfl
  have written : (drafts.foldl Sink.put ⟨(drafts.foldl Sink.put ⟨seed, []⟩).tree, []⟩).written =
      (drafts.foldl Sink.put ⟨seed, []⟩).written := by
    apply written_foldl_put
    rfl
  exact congrArg₂ Sink.mk tree written

theorem Script.exists_drafts (script : Script settings raises α) (sink : Sink MemoryTree) :
    ∃ drafts : List Draft, stateOf (script.run sink) = drafts.foldl Sink.put sink := by
  have alike : sink.Alike settings sink := ⟨rfl, fun _ _ => rfl⟩
  have echo := script.echo alike
  generalize script.run sink = result at echo
  cases echo with
  | ok value drafts => exact ⟨drafts, rfl⟩
  | error failure drafts => exact ⟨drafts, rfl⟩

/-- Drafts for files that cannot be icons leave a tree as it looks. -/
theorem MemoryTree.alike_foldl_put {seed : MemoryTree} {drafts : List Draft}
    (ignored : ∀ path ∈ (drafts.foldl Sink.put ⟨seed, []⟩).written,
      (Path.extension? path).any settings.ignores = true) :
    seed.Alike settings (drafts.foldl Sink.put ⟨seed, []⟩).tree := by
  intro path candidate
  have absent : drafts.find? (fun draft => draft.name = path) = none := by
    rw [List.find?_eq_none]
    intro draft listed named
    have written : path ∈ (drafts.foldl Sink.put ⟨seed, []⟩).written := by
      rw [Sink.mem_written_foldl_put]
      exact .inl (List.mem_map.mpr ⟨draft, listed, by simpa using named⟩)
    rw [ignored path written] at candidate
    cases candidate
  rw [Sink.get?_foldl_put List.not_mem_nil, absent]
  rfl

theorem Script.run_again {script : Script settings raises α} {seed : MemoryTree}
    (ignored : ∀ path ∈ (stateOf (script.run (⟨seed, []⟩ : Sink MemoryTree))).written,
      (Path.extension? path).any settings.ignores = true) :
    script.run ⟨(stateOf (script.run (⟨seed, []⟩ : Sink MemoryTree))).tree, []⟩ =
      script.run ⟨seed, []⟩ := by
  obtain ⟨drafts, reached⟩ := script.exists_drafts ⟨seed, []⟩
  rw [reached] at ignored ⊢
  have alike : Sink.Alike settings ⟨seed, []⟩ ⟨(drafts.foldl Sink.put ⟨seed, []⟩).tree, []⟩ :=
    ⟨rfl, MemoryTree.alike_foldl_put ignored⟩
  have echo := script.echo alike
  generalize script.run (⟨seed, []⟩ : Sink MemoryTree) = first at echo reached ⊢
  generalize script.run (⟨(drafts.foldl Sink.put ⟨seed, []⟩).tree, []⟩ : Sink MemoryTree) = second
    at echo ⊢
  cases echo with
  | ok value drafts' =>
    change drafts'.foldl Sink.put ⟨seed, []⟩ = _ at reached
    rw [← reached, Sink.foldl_put_again]
  | error failure drafts' =>
    change drafts'.foldl Sink.put ⟨seed, []⟩ = _ at reached
    rw [← reached, Sink.foldl_put_again]

/--
A run whose files all have the extension `json`, which icons do not have, ends over its own output
just as it ended before: with the same result, the same files and the same record of them.
-/
theorem Recovery.run_over_output {recovery : Recovery} {source : LiteralSource} {seed : MemoryTree}
    (ignored : recovery.settings.ignores "json" = true)
    (named : ∀ path ∈ (recovery.run source (⟨seed, []⟩ : Sink MemoryTree)).sink.written,
      Path.extension? path = some "json") :
    let first := recovery.run source (⟨seed, []⟩ : Sink MemoryTree)
    recovery.run source ⟨first.sink.tree, []⟩ = first := by
  intro first
  by_cases idle : recovery.stage = .idle
  · obtain ⟨script, runs⟩ := work_eq_run recovery source
    have behind : first.sink = stateOf (script.run (⟨seed, []⟩ : Sink MemoryTree)) := by
      have eq : first = _ := run_of_idle idle source _
      rw [eq, runs MemoryTree]
      cases script.run (⟨seed, []⟩ : Sink MemoryTree) with
      | ok summary sink => rfl
      | error failure sink => rfl
    have again : recovery.work source ⟨first.sink.tree, []⟩ =
        recovery.work source (⟨seed, []⟩ : Sink MemoryTree) := by
      rw [runs MemoryTree, behind]
      apply Script.run_again
      intro path written
      rw [named path (behind ▸ written)]
      exact ignored
    have eq : first = _ := run_of_idle idle source _
    rw [run_of_idle idle, again, eq]
  · have eq : first = _ := run_of_not_idle idle source _
    rw [eq, run_of_not_idle idle]

/-- Three files, one of them in place of a seeded one, and the same three again. -/
theorem Recovery.run_over_output_three :
    let manifest := "\x7b\"pages\":[\"a\"],\"extAppid\":\"x\",\"ext\":\x7b\x7d\x7d"
    let recovery : Recovery := { manifest := some manifest, service := some "s" }
    let source := LiteralSource.stream [⟨"a", "1"⟩]
    let seed := MemoryTree.empty.insert "a.json" ⟨#[0]⟩
    let first := recovery.run source (⟨seed, []⟩ : Sink MemoryTree)
    recovery.settings.ignores "json" = true ∧
      (∀ path, path ∈ first.sink.written ↔ path ∈ ["ext.json", "app.json", "a.json"]) ∧
      first.result.isOk = true ∧ recovery.run source ⟨first.sink.tree, []⟩ = first := by
  intro manifest recovery source seed first
  have ignored : recovery.settings.ignores "json" = true := by decide
  have parsed : Manifest.ofSource manifest .truthy = .ok ⟨[("pages", .array [.string "a"]),
      ("extAppid", .string "x"), ("ext", .object [])], .truthy⟩ := by
    cbv
  have succeeds : succeeded (writeApp {} manifest (⟨seed, []⟩ : Sink MemoryTree)) = true := by
    simp only [writeApp, assemble, parsed]
    cbv
  obtain ⟨⟨table, early⟩, mid, accepted⟩ := ok_of_succeeded succeeds
  obtain ⟨m, tabled, assembly, start, read, built, resolved, -, extension, -, reached⟩ :=
    writeApp_memory accepted
  cases parsed.symm.trans read
  cases built
  obtain ⟨counts, merged, -⟩ := merge_memory table [⟨"a", "1"⟩] mid
  have ran : first = _ :=
    run_of_merge (show "s" ≠ "" by decide) (.stream [⟨"a", "1"⟩]) accepted merged
  have windows : windowDrafts table = [] := by
    rw [resolved]
    cbv
  have body : assembly.extension = some (.object
      [("extEnable", .bool true), ("extAppid", .string "x"), ("ext", .object [])]) := by
    rw [extension]
    cbv
  have written (path : String) :
      path ∈ first.sink.written ↔ path ∈ ["ext.json", "app.json", "a.json"] := by
    rw [ran]
    change path ∈ Sink.written (List.foldl _ _ _) ↔ _
    rw [reached, ← List.foldl_append, Sink.mem_written_foldl_put, windows, body]
    change path ∈ ["ext.json", "app.json", "a.json"].map Path.canonical ∨ path ∈ [] ↔ _
    rw [or_iff_left List.not_mem_nil]
    rfl
  refine ⟨ignored, written, ?_, run_over_output ignored fun path listed => ?_⟩
  · rw [ran]
    rfl
  · change path ∈ first.sink.written at listed
    rw [written] at listed
    revert path
    decide

end ConfigRecovery
