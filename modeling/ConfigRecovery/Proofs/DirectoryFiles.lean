import ConfigRecovery.Proofs.Listing
import ConfigRecovery.Proofs.Repetition

/-!
# Files below a directory and files in memory

Canonical paths lead down from the root by the names that they are made of, so that a file written
below the root is found again by its path and by no other. As long as no write fails, a directory
and a tree in memory therefore take the same files in the same way, and both list them.
-/

namespace ConfigRecovery

namespace DirectoryTree

variable {tree behind : DirectoryTree} {top : Place} {memory : MemoryTree} {content : Content}

/-! ## Listing -/

/-- What a directory and a tree in memory have in common after the same writes. -/
structure Holds (tree : DirectoryTree) (top : Place) (memory : MemoryTree) : Prop where
  linkless : tree.disk.Linkless
  sound : Disk.pathFault? tree.root = none
  leads : Disk.Leads tree.disk [] (Disk.names tree.root) top
  opens : Opens tree.root top tree.disk
  file_iff : ∀ (way : List String) (bytes : ByteArray),
    tree.disk.entries[way.reverse ++ top]? = some (.file bytes) ↔
      ∃ path, memory.get? path = some bytes ∧ Disk.names path = way
  reads : ∀ (path : String) (bytes : ByteArray), memory.get? path = some bytes →
    Disk.pathFault? (target tree.root path) = none

/-- A directory that is listed without files holds what an empty tree in memory does. -/
theorem exists_holds_empty (linkless : tree.disk.Linkless)
    (directory : tree.disk.isDirectory tree.root = true) (empty : tree.files = .ok []) :
    ∃ top, tree.Holds top .empty := by
  obtain ⟨sound, top, leads⟩ := (Disk.isDirectory_iff linkless).mp directory
  obtain ⟨opens, -, missing⟩ := (files_ok sound leads).mp empty
  rw [stored, List.map_eq_nil_iff] at missing
  refine ⟨top, linkless, sound, leads, opens, fun way bytes => ?_, fun path bytes there => ?_⟩
  · rw [← Disk.mem_filesBelow, missing]
    simp [MemoryTree.empty, MemoryTree.get?]
  · simp [MemoryTree.empty, MemoryTree.get?] at there

namespace Holds

theorem mem_filesBelow (holds : tree.Holds top memory) {way : List String} {bytes : ByteArray} :
    (way, bytes) ∈ tree.disk.filesBelow top ↔
      ∃ path, memory.get? path = some bytes ∧ Disk.names path = way :=
  Disk.mem_filesBelow.trans (holds.file_iff way bytes)

theorem mem_stored (holds : tree.Holds top memory) {file : File} :
    file ∈ tree.stored top ↔ memory.get? file.1 = some file.2 := by
  rw [stored, List.mem_map]
  constructor
  · rintro ⟨⟨way, bytes⟩, found, rfl⟩
    obtain ⟨path, there, rfl⟩ := holds.mem_filesBelow.mp found
    rwa [Disk.pathOf_names]
  · intro there
    refine ⟨(Disk.names file.1, file.2), ?_, by rw [Disk.pathOf_names]⟩
    exact holds.mem_filesBelow.mpr ⟨file.1, there, rfl⟩

theorem nodup_stored (holds : tree.Holds top memory) :
    ((tree.stored top).map Prod.fst).Nodup := by
  have paths : (tree.stored top).map Prod.fst =
      ((tree.disk.filesBelow top).map Prod.fst).map Disk.pathOf := by
    rw [stored, List.map_map, List.map_map]
    rfl
  -- the names of a file that is found are those of a path, and can be read from it again
  have named (way : List String) (listed : way ∈ (tree.disk.filesBelow top).map Prod.fst) :
      Disk.names (Disk.pathOf way) = way := by
    obtain ⟨⟨way, bytes⟩, found, rfl⟩ := List.mem_map.mp listed
    obtain ⟨path, -, rfl⟩ := holds.mem_filesBelow.mp found
    rw [Disk.pathOf_names]
  rw [paths]
  apply List.Nodup.map_on _ (Disk.nodup_filesBelow tree.disk top)
  intro way listed way' listed' same
  rw [← named way listed, same, named way' listed']

theorem perm_stored (holds : tree.Holds top memory) : (tree.stored top).Perm memory.files := by
  rw [List.perm_ext_iff_of_nodup holds.nodup_stored.of_map memory.nodup_files]
  intro file
  rw [holds.mem_stored, MemoryTree.mem_files]

/-- What was written below the root can be read there again. -/
theorem files_eq (holds : tree.Holds top memory) : tree.files = .ok (tree.stored top) := by
  refine (files_ok holds.sound holds.leads).mpr ⟨holds.opens, ?_, rfl⟩
  rintro ⟨way, bytes⟩ listed
  obtain ⟨path, there, rfl⟩ := holds.mem_filesBelow.mp listed
  rw [pathBelow, Disk.pathOf_names]
  exact holds.reads path bytes there

end Holds

/-! ## Writing -/

theorem write_ok {path : String} {done : Unit} :
    write path content tree = .ok done behind ↔ ∃ file disk,
      tree.resolve path = .ok file ∧
      tree.disk.makeDirectories (Disk.parentOf file) = (.ok (), disk) ∧
      disk.writeFile file content.encode = .ok behind.disk ∧ behind.root = tree.root := by
  obtain ⟨root, after⟩ := behind
  unfold write
  cases tree.resolve path with
  | error failure => simp
  | ok file =>
    rcases outcome : tree.disk.makeDirectories (Disk.parentOf file) with ⟨made, disk⟩
    cases made with
    | error fault => simp [outcome]
    | ok done =>
      cases wrote : disk.writeFile file content.encode with
      | error fault => simp [outcome, wrote]
      | ok disk' => simp [outcome, wrote, and_comm, eq_comm]

/-- Canonical paths only lead down. -/
theorem down_of_canonical {raw : String} (named : Path.canonical raw ≠ "") :
    ∀ name ∈ Disk.names (Path.canonical raw), Disk.staysPut name = false ∧ name ≠ ".." := by
  intro name listed
  have plain := Path.plain_of_mem_names named listed
  exact ⟨plain.staysPut_eq, plain.ne_parent⟩

/-- A file with a canonical path is put down from the root by the names of its path. -/
theorem placed {disk after : Disk} {root raw : String} {bytes : ByteArray}
    (linkless : disk.Linkless) (sound : Disk.pathFault? root = none)
    (leads : Disk.Leads disk [] (Disk.names root) top) (named : Path.canonical raw ≠ "")
    (wrote : disk.writeFile (target root (Path.canonical raw)) bytes = .ok after) :
    let place := (Disk.names (Path.canonical raw)).reverse ++ top
    disk.entries[place]? ≠ some .directory ∧ after = disk.put place (.file bytes) := by
  intro place
  obtain ⟨front, first, cut⟩ := exists_front sound leads
  obtain ⟨-, name, above, parent, last, whole, -, -, free, rfl⟩ :=
    (Disk.writeFile_ok linkless).mp wrote
  obtain ⟨init, final, split⟩ :=
    (List.eq_nil_or_concat' (Disk.names (Path.canonical raw))).resolve_left
      (Disk.names_ne_nil _)
  have down := down_of_canonical named
  rw [split] at down
  have backward : Disk.namesBackward (target root (Path.canonical raw)) =
      final :: (front ++ init).reverse := by
    have full : final ≠ "" := by
      rintro rfl
      cases (down "" (by simp)).1
    rw [Disk.namesBackward, cut, split]
    simp [full]
  cases backward.symm.trans last
  rw [List.reverse_reverse] at whole
  obtain ⟨mid, again, rest⟩ := Disk.leads_append.mp whole
  cases again.unique first
  have below : parent = init.reverse ++ top :=
    rest.eq_of_down fun name listed => down name (List.mem_append_left _ listed)
  have same : place = name :: parent := by
    rw [below]
    simp [place, split]
  rw [same]
  exact ⟨free, rfl⟩

theorem Holds.write {raw : String} (holds : tree.Holds top memory)
    (wrote : OutputTree.write (Path.canonical raw) content tree = .ok () behind) :
    behind.Holds top (memory.insert (Path.canonical raw) content.encode) := by
  obtain ⟨file, disk, resolved, made, put, root⟩ := write_ok.mp wrote
  obtain ⟨inside, rfl⟩ := resolve_ok.mp resolved
  have named : Path.canonical raw ≠ "" := (escapes_eq_false_iff.mp inside).1
  have opens : Opens tree.root top disk := by
    have opens := holds.opens.makeDirectories holds.linkless holds.sound holds.leads
      (down_of_canonical named)
    rwa [made] at opens
  have raised : Disk.Raised tree.disk disk := by
    have raised := Disk.raised_makeDirectories
      (Disk.parentOf (target tree.root (Path.canonical raw))) tree.disk
    rwa [made] at raised
  have leads := holds.leads.mono raised.isDirectoryAt
  obtain ⟨free, after⟩ := placed (raised.linkless holds.linkless) holds.sound leads named put
  constructor
  · rw [after]
    exact (raised.linkless holds.linkless).put_file _ _
  · rw [root]
    exact holds.sound
  · rw [root, after]
    exact leads.mono fun _ directory => Disk.isDirectoryAt_put free directory
  · rw [root, after]
    exact opens.put_file _ _
  · intro way bytes
    rw [after, Disk.entries_put]
    by_cases same : Disk.names (Path.canonical raw) = way
    · rw [if_pos (by rw [same])]
      constructor
      · intro there
        cases there
        exact ⟨Path.canonical raw, by rw [MemoryTree.get?_insert, if_pos rfl], same⟩
      · rintro ⟨path, there, named⟩
        rw [MemoryTree.get?_insert, if_pos (Disk.names_inj.mp (same.trans named.symm))] at there
        cases there
        rfl
    · rw [if_neg (by simpa using same), raised.file_iff, holds.file_iff]
      apply exists_congr
      intro path
      apply and_congr_left
      rintro rfl
      rw [MemoryTree.get?_insert, if_neg fun equal => same (by rw [equal])]
  · intro path bytes there
    rw [MemoryTree.get?_insert] at there
    rw [root]
    split at there
    · next same =>
      rw [← same]
      exact ((Disk.writeFile_ok (raised.linkless holds.linkless)).mp put).1
    · exact holds.reads path bytes there

/-! ## Saving -/

theorem Holds.save {draft : Draft} {written : List String} {isNew : Bool}
    {after : Sink DirectoryTree} (holds : tree.Holds top memory)
    (saved : Sink.save draft.1 draft.2 ⟨tree, written⟩ = .ok isNew after) :
    ∃ memory', Sink.save draft.1 draft.2 ⟨memory, written⟩ = .ok isNew ⟨memory', after.written⟩ ∧
      after.tree.Holds top memory' := by
  obtain ⟨seen, rfl, rfl⟩ | ⟨new, rfl, wrote, names⟩ := Sink.save_ok.mp saved
  · exact ⟨memory, Sink.save_ok.mpr (.inl ⟨seen, rfl, rfl⟩), holds⟩
  · exact ⟨_, Sink.save_ok.mpr (.inr ⟨new, rfl, rfl, names⟩), holds.write wrote⟩

theorem Holds.saveEach {drafts : List Draft} {written : List String} {flags : List Bool}
    {after : Sink DirectoryTree} (holds : tree.Holds top memory)
    (saved : Sink.saveEach drafts ⟨tree, written⟩ = .ok flags after) :
    ∃ memory', Sink.saveEach drafts ⟨memory, written⟩ = .ok flags ⟨memory', after.written⟩ ∧
      after.tree.Holds top memory' := by
  induction drafts generalizing tree memory written flags with
  | nil =>
    cases saved
    exact ⟨memory, rfl, holds⟩
  | cons draft drafts ih =>
    rw [Sink.saveEach_cons] at saved
    obtain ⟨isNew, mid, first, saved⟩ := step_bind_ok.mp saved
    obtain ⟨answers, after', others, last⟩ := step_bind_ok.mp saved
    cases last
    obtain ⟨memory', first', held⟩ := holds.save first
    obtain ⟨memory'', others', held⟩ := ih held others
    refine ⟨memory'', ?_, held⟩
    rw [Sink.saveEach_cons, bind_of_ok first', bind_of_ok others']
    rfl

/--
A series of saves over a directory that lists no files, if all of them succeed, answers as over an
empty tree in memory. Nothing stops the listing in the end, and it has the same files, each path
once.
-/
theorem saveEach_lists {drafts : List Draft} {flags : List Bool} {after : Sink DirectoryTree}
    (linkless : tree.disk.Linkless) (directory : tree.disk.isDirectory tree.root = true)
    (empty : tree.files = .ok [])
    (saved : Sink.saveEach drafts ⟨tree, []⟩ = .ok flags after) :
    ∃ (sink : Sink MemoryTree) (onDisk inMemory : List File),
      Sink.saveEach drafts ⟨.empty, []⟩ = .ok flags sink ∧
        OutputTree.files after.tree = .ok onDisk ∧ OutputTree.files sink.tree = .ok inMemory ∧
        onDisk.Perm inMemory ∧ (onDisk.map Prod.fst).Nodup := by
  obtain ⟨top, holds⟩ := exists_holds_empty linkless directory empty
  obtain ⟨memory, again, holds⟩ := holds.saveEach saved
  exact ⟨⟨memory, after.written⟩, _, _, again, holds.files_eq, rfl, holds.perm_stored,
    holds.nodup_stored⟩

/-- A file in a directory of its own, and the same in another spelling. -/
theorem saveEach_lists_nested :
    let tree : DirectoryTree := ⟨"/out", Disk.empty.put ["out"] .directory⟩
    let drafts : List Draft := [("a/b.json", .text "1"), ("./a//b.json", .text "2")]
    tree.disk.Linkless ∧ tree.disk.isDirectory tree.root = true ∧ tree.files = .ok [] ∧
      ∃ after sink onDisk inMemory,
        Sink.saveEach drafts ⟨tree, []⟩ = .ok [true, false] after ∧
        Sink.saveEach drafts ⟨MemoryTree.empty, []⟩ = .ok [true, false] sink ∧
        OutputTree.files after.tree = .ok onDisk ∧ OutputTree.files sink.tree = .ok inMemory ∧
        onDisk.Perm inMemory ∧ (onDisk.map Prod.fst).Nodup := by
  intro tree drafts
  have linkless : tree.disk.Linkless := by
    intro place target
    rw [Disk.entries_put]
    split <;> simp [Disk.empty]
  have directory : tree.disk.isDirectory tree.root = true := by
    cbv
  have empty : tree.files = .ok [] := by
    cbv
  let disk := tree.disk.put ["a", "out"] .directory
  let behind : DirectoryTree := ⟨"/out", disk.put ["b.json", "a", "out"] (.file "1".toUTF8)⟩
  have raised : Disk.Raised tree.disk disk := by
    apply Disk.raised_put
    cbv
  have leads : Disk.Leads disk [] ["", "out", "a"] ["a", "out"] :=
    .stay rfl (.down rfl rfl (by decide) (by decide)
      (.down (by cbv) rfl (by decide) (by decide) (.here (by cbv))))
  have wrote : OutputTree.write (Path.canonical "a/b.json") (.text "1") tree = .ok () behind := by
    refine write_ok.mpr ⟨"/out/a/b.json", disk, by decide, by cbv, ?_, rfl⟩
    refine (Disk.writeFile_ok (raised.linkless linkless)).mpr
      ⟨by decide, "b.json", ["a", "out", ""], ["a", "out"], by decide, leads, by decide, by decide,
        ?_, rfl⟩
    rw [Disk.entries_put, Disk.entries_put]
    simp [Disk.empty]
  have first : Sink.save "a/b.json" (.text "1") ⟨tree, []⟩ = .ok true ⟨behind, ["a/b.json"]⟩ :=
    Sink.save_ok.mpr (.inr ⟨List.not_mem_nil, rfl, wrote, by decide⟩)
  have second : Sink.save "./a//b.json" (.text "2") ⟨behind, ["a/b.json"]⟩ =
      .ok false ⟨behind, ["a/b.json"]⟩ :=
    Sink.save_ok.mpr (.inl ⟨by decide, rfl, rfl⟩)
  have saved : Sink.saveEach drafts ⟨tree, []⟩ = .ok [true, false] ⟨behind, ["a/b.json"]⟩ := by
    rw [Sink.saveEach_cons, bind_of_ok first, Sink.saveEach_cons, bind_assoc, bind_of_ok second]
    rfl
  obtain ⟨sink, onDisk, inMemory, again⟩ := saveEach_lists linkless directory empty saved
  exact ⟨linkless, directory, empty, ⟨behind, ["a/b.json"]⟩, sink, onDisk, inMemory, saved, again⟩

end DirectoryTree

end ConfigRecovery
