import ConfigRecovery.Proofs.Containment
import ConfigRecovery.Proofs.Places

/-!
# Listing what stands below a directory

A listing opens every directory below its root and reads every file. It comes to a place by the path
that leads there from the root, which is the path that directories are made by when a file is
written: what is new below the root opens as far as it could be made.
-/

namespace ConfigRecovery

/-! ## What stands below a place -/

namespace Disk

variable {disk : Disk} {top : Place} {way : List String} {bytes : ByteArray}

theorem pathOf_names (path : String) : pathOf (names path) = path := by
  have parts : (names path).map String.toList = Text.splitOn '/' path.toList := by
    rw [names, List.map_map]
    exact (List.map_congr_left fun part _ => String.toList_ofList).trans (List.map_id _)
  have text : Text.join ['/'] (Text.splitOn '/' path.toList) = path.toList := by
    rw [Text.join_eq, Text.splitOn_eq, List.intercalate_splitOn]
  rw [pathOf, parts, text, String.ofList_toList]

theorem names_pathOf (nonempty : way ≠ []) (plain : ∀ name ∈ way, '/' ∉ name.toList) :
    names (pathOf way) = way := by
  have parts : ∀ part ∈ way.map String.toList, '/' ∉ part := by
    simpa using plain
  rw [names_eq, pathOf, String.toList_ofList, Text.join_eq,
    List.splitOn_intercalate _ parts (by simpa using nonempty), List.map_map]
  exact (List.map_congr_left fun name _ => String.ofList_toList).trans (List.map_id _)

theorem names_inj {a b : String} : names a = names b ↔ a = b := by
  constructor
  · intro same
    rw [← pathOf_names a, same, pathOf_names]
  · intro same
    rw [same]

theorem below?_eq_some {place : Place} :
    below? top place = some way ↔ place = way.reverse ++ top := by
  unfold below?
  split
  · next below =>
    obtain ⟨front, rfl⟩ := List.isSuffixOf_iff_suffix.mp below
    simp [List.reverse_eq_iff]
  · next beside =>
    simp only [reduceCtorEq, false_iff]
    rintro rfl
    exact beside (List.isSuffixOf_iff_suffix.mpr (List.suffix_append _ _))

/-- What an entry of the disk adds to the files below a place. -/
def found? (top : Place) : Place × Entry → Option (List String × ByteArray)
  | (place, .file bytes) => (below? top place).map (·, bytes)
  | _ => none

theorem found?_eq_some {entry : Place × Entry} : found? top entry = some (way, bytes) ↔
    entry = (way.reverse ++ top, .file bytes) := by
  obtain ⟨place, entry⟩ := entry
  cases entry with
  | directory => simp [found?]
  | link target => simp [found?]
  | file bytes' => simp [found?, below?_eq_some]

theorem filesBelow_eq (disk : Disk) (top : Place) :
    disk.filesBelow top = disk.entries.toList.filterMap (found? top) := by
  apply List.filterMap_congr
  rintro ⟨place, entry⟩ -
  cases entry <;> rfl

theorem mem_filesBelow : (way, bytes) ∈ disk.filesBelow top ↔
    disk.entries[way.reverse ++ top]? = some (.file bytes) := by
  rw [filesBelow_eq, List.mem_filterMap, ← Std.ExtTreeMap.mem_toList_iff_getElem?_eq_some]
  simp only [found?_eq_some, exists_eq_right]

theorem nodup_filesBelow (disk : Disk) (top : Place) :
    ((disk.filesBelow top).map Prod.fst).Nodup := by
  rw [List.Nodup, List.pairwise_map, filesBelow_eq, List.pairwise_filterMap]
  apply Std.ExtTreeMap.distinct_keys_toList.imp
  rintro a b distinct ⟨way, bytes⟩ found ⟨way', bytes'⟩ found' rfl
  rw [found?_eq_some.mp found, found?_eq_some.mp found'] at distinct
  exact distinct Std.ReflOrd.compare_self

theorem mem_directoriesBelow : way ∈ disk.directoriesBelow top ↔
    disk.entries[way.reverse ++ top]? = some .directory := by
  rw [directoriesBelow, List.mem_filterMap, ← Std.ExtTreeMap.mem_toList_iff_getElem?_eq_some]
  constructor
  · rintro ⟨⟨place, entry⟩, listed, below⟩
    cases entry with
    | directory => rwa [below?_eq_some.mp below] at listed
    | _ => cases below
  · intro listed
    exact ⟨_, listed, below?_eq_some.mpr rfl⟩

/-! ## The directories above a file -/

theorem mem_ancestors {path : String} {backward : List String}
    (listed : path ∈ ancestors backward) :
    ∃ name above, name :: above <:+ backward ∧ staysPut name = false ∧
      path = pathOf (name :: above).reverse := by
  induction backward with
  | nil => cases listed
  | cons name above ih =>
    rw [ancestors] at listed
    by_cases stays : staysPut name = true
    · rw [if_pos stays] at listed
      obtain ⟨other, further, suffix, rest⟩ := ih listed
      exact ⟨other, further, suffix.trans (List.suffix_cons _ _), rest⟩
    · rw [if_neg stays] at listed
      obtain rfl | listed := List.mem_cons.mp listed
      · exact ⟨name, above, List.suffix_refl _, Bool.eq_false_iff.mpr stays, rfl⟩
      · obtain ⟨other, further, suffix, rest⟩ := ih listed
        exact ⟨other, further, suffix.trans (List.suffix_cons _ _), rest⟩

/-- The directories that are made for a file have paths of a front of the file's names. -/
theorem mem_ancestors_parentOf {file path last : String} {front : List String}
    (cut : names file = front ++ [last]) (moves : staysPut last = false)
    (listed : path ∈ ancestors (names (parentOf file)).reverse) :
    ∃ name above, name :: above <:+ front.reverse ∧ staysPut name = false ∧
      names path = (name :: above).reverse ∧ namesBackward path = name :: above := by
  have parent : parentOf file = pathOf (front.reverse.dropWhile staysPut).reverse := by
    simp [parentOf, cut, moves]
  have plain (name : String) (member : name ∈ front) : '/' ∉ name.toList :=
    no_slash_of_mem_names (cut ▸ List.mem_append_left _ member)
  have suffix : front.reverse.dropWhile staysPut <:+ front.reverse := List.dropWhile_suffix _
  by_cases empty : front.reverse.dropWhile staysPut = []
  · rw [parent, empty] at listed
    cases listed
  · have whole : names (parentOf file) = (front.reverse.dropWhile staysPut).reverse := by
      rw [parent]
      refine names_pathOf (by simpa using empty) fun name member => plain name ?_
      exact List.mem_reverse.mp (suffix.subset (List.mem_reverse.mp member))
    rw [whole, List.reverse_reverse] at listed
    obtain ⟨name, above, behind, stays, rfl⟩ := mem_ancestors listed
    have inside : name :: above <:+ front.reverse := behind.trans suffix
    have own : names (pathOf (name :: above).reverse) = (name :: above).reverse := by
      refine names_pathOf (by simp) fun name member => plain name ?_
      exact List.mem_reverse.mp (inside.subset (List.mem_reverse.mp member))
    have full : name ≠ "" := by
      rintro rfl
      cases stays
    refine ⟨name, above, inside, stays, own, ?_⟩
    rw [namesBackward, own, List.reverse_reverse, List.dropWhile_cons_of_neg (by simpa using full)]

end Disk

/-! ## Opening and reading -/

namespace DirectoryTree

variable {tree : DirectoryTree} {root : String} {top : Place} {disk after : Disk}

section

variable {names : List String} {blame : String → SystemFault → Failure} {failure : Failure}

theorem reach_ok : reach root blame names = .ok () ↔
    Disk.pathFault? (pathBelow root names) = none := by
  rw [reach]
  cases Disk.pathFault? (pathBelow root names) with
  | none => simp
  | some fault => simp

theorem reach_error (failed : reach root blame names = .error failure) :
    ∃ fault, Disk.pathFault? (pathBelow root names) = some fault ∧
      failure = blame (pathBelow root names) fault := by
  rw [reach] at failed
  cases found : Disk.pathFault? (pathBelow root names) with
  | none =>
    rw [found] at failed
    cases failed
  | some fault =>
    rw [found] at failed
    cases failed
    exact ⟨fault, rfl, rfl⟩

theorem openBelow_cons {name : String} {above : Place} :
    openBelow root (name :: above) = .ok () ↔ openBelow root above = .ok () ∧
      Disk.pathFault? (pathBelow root (name :: above).reverse) = none := by
  rw [openBelow, except_bind_ok, ← reach_ok]
  exact ⟨fun ⟨_, rest⟩ => rest, fun rest => ⟨_, rest⟩⟩

/-- Opening stops at the outermost directory that does not open. -/
theorem openBelow_error {way : Place} (failed : openBelow root way = .error failure) :
    ∃ name above fault, name :: above <:+ way ∧ openBelow root above = .ok () ∧
      Disk.pathFault? (pathBelow root (name :: above).reverse) = some fault ∧
      failure = .walk (pathBelow root (name :: above).reverse) fault := by
  induction way with
  | nil => cases failed
  | cons name above ih =>
    rw [openBelow] at failed
    obtain failed | ⟨_, opened, failed⟩ := except_bind_error.mp failed
    · obtain ⟨other, further, fault, suffix, rest⟩ := ih failed
      exact ⟨other, further, fault, suffix.trans (List.suffix_cons _ _), rest⟩
    · obtain ⟨fault, found, rfl⟩ := reach_error failed
      exact ⟨name, above, fault, List.suffix_refl _, opened, found, rfl⟩

theorem readBelow_ok {bytes : ByteArray} {file : File} :
    readBelow root names bytes = .ok file ↔
      Disk.pathFault? (pathBelow root names) = none ∧ (Disk.pathOf names, bytes) = file := by
  rw [readBelow, except_bind_ok, except_pure_ok, ← reach_ok]
  exact ⟨fun ⟨_, read⟩ => read, fun read => ⟨_, read⟩⟩

end

/-- The directories below a place can all be opened by their paths from a root. -/
def Opens (root : String) (top : Place) (disk : Disk) : Prop :=
  ∀ way : Place, disk.entries[way ++ top]? = some .directory → openBelow root way = .ok ()

theorem opens_iff : ((disk.directoriesBelow top).forM fun names =>
    openBelow root names.reverse) = .ok () ↔ Opens root top disk := by
  rw [except_forM_ok]
  constructor
  · intro opens way there
    rw [← List.reverse_reverse way] at there ⊢
    exact opens _ (Disk.mem_directoriesBelow.mpr there)
  · exact fun opens way listed => opens _ (Disk.mem_directoriesBelow.mp listed)

/-- The files below a place by their paths from it. -/
def stored (tree : DirectoryTree) (top : Place) : List File :=
  (tree.disk.filesBelow top).map fun file => (Disk.pathOf file.1, file.2)

theorem Opens.put_file (opens : Opens root top disk) (place : Place) (bytes : ByteArray) :
    Opens root top (disk.put place (.file bytes)) := by
  intro way there
  rw [Disk.entries_put] at there
  split at there
  · cases there
  · exact opens way there

/-- A root that leads to a directory is listed if all below it opens and can be read. -/
theorem files_ok (sound : Disk.pathFault? tree.root = none)
    (leads : Disk.Leads tree.disk [] (Disk.names tree.root) top) {files : List File} :
    tree.files = .ok files ↔ Opens tree.root top tree.disk ∧
      (∀ file ∈ tree.disk.filesBelow top,
        Disk.pathFault? (pathBelow tree.root file.1) = none) ∧
      tree.stored top = files := by
  have read : (tree.disk.filesBelow top).mapM (fun file =>
      readBelow tree.root file.1 file.2) = .ok files ↔
      (∀ file ∈ tree.disk.filesBelow top,
        Disk.pathFault? (pathBelow tree.root file.1) = none) ∧
      tree.stored top = files := by
    rw [except_mapM_ok, stored, ← List.forall₂_eq_eq_eq, List.forall₂_map_left_iff,
      ← List.forall₂_and_left]
    simp only [readBelow_ok]
  rw [DirectoryTree.files, Disk.resolve_of_leads sound leads]
  dsimp only
  rw [if_pos leads.finish, except_bind_ok, ← opens_iff, ← read]
  exact ⟨fun ⟨_, rest⟩ => rest, fun rest => ⟨_, rest⟩⟩

/--
Why a listing stops: at a directory that does not open though those above it do, or, when all
directories open, at a file.
-/
inductive Stops (root : String) (top : Place) (disk : Disk) : Failure → Prop where
  | walk {name : String} {above : Place} {directory : List String} {fault : SystemFault}
      (listed : directory ∈ disk.directoriesBelow top) (ahead : name :: above <:+ directory.reverse)
      (opened : openBelow root above = .ok ())
      (found : Disk.pathFault? (pathBelow root (name :: above).reverse) = some fault) :
      Stops root top disk (.walk (pathBelow root (name :: above).reverse) fault)
  | read {names : List String} {bytes : ByteArray} {fault : SystemFault}
      (opens : Opens root top disk) (listed : (names, bytes) ∈ disk.filesBelow top)
      (found : Disk.pathFault? (pathBelow root names) = some fault) :
      Stops root top disk (.fileRead (pathBelow root names) fault)

theorem files_error {failure : Failure} (failed : tree.files = .error failure) :
    ∃ top, tree.disk.resolve tree.root = .ok top ∧ Stops tree.root top tree.disk failure := by
  rw [DirectoryTree.files] at failed
  cases resolved : tree.disk.resolve tree.root with
  | error fault =>
    rw [resolved] at failed
    cases failed
  | ok top =>
    rw [resolved] at failed
    dsimp only at failed
    refine ⟨top, rfl, ?_⟩
    split at failed
    · obtain failed | ⟨_, opened, failed⟩ := except_bind_error.mp failed
      · obtain ⟨directory, listed, failed⟩ := except_forM_error failed
        obtain ⟨name, above, fault, ahead, opened, found, rfl⟩ := openBelow_error failed
        exact .walk listed ahead opened found
      · obtain ⟨⟨names, bytes⟩, listed, failed⟩ := except_mapM_error failed
        obtain failed | ⟨_, -, failed⟩ := except_bind_error.mp failed
        · obtain ⟨fault, found, rfl⟩ := reach_error failed
          exact .read (opens_iff.mp opened) listed found
        · cases failed
    · cases failed

/-! ## Making the directories above a file -/

/-- The root leads as far without a slash at its end, and the names of a path go on from there. -/
theorem exists_front (sound : Disk.pathFault? root = none)
    (leads : Disk.Leads disk [] (Disk.names root) top) :
    ∃ front, Disk.Leads disk [] front top ∧
      ∀ path, Disk.names (target root path) = front ++ Disk.names path := by
  have named : root ≠ "" := by
    rintro rfl
    cases sound
  obtain ⟨front, same, text⟩ := target_eq named
  refine ⟨Disk.names front, ?_, fun path => by rw [text, Disk.names_slash]⟩
  obtain rfl | rfl := same
  · exact leads
  · rw [Disk.names_slash_last] at leads
    obtain ⟨mid, first, last⟩ := Disk.leads_append.mp leads
    have still : Disk.Leads disk mid [""] mid := .stay rfl (.here first.finish)
    exact last.unique still ▸ first

theorem Opens.put_directory {name : String} {above : Place} (opens : Opens root top disk)
    (directory : disk.isDirectoryAt (above ++ top) = true)
    (sound : Disk.pathFault? (pathBelow root (name :: above).reverse) = none) :
    Opens root top (disk.put (name :: (above ++ top)) .directory) := by
  intro way there
  rw [Disk.entries_put] at there
  by_cases same : name :: above ++ top = way ++ top
  · obtain rfl := List.append_cancel_right same
    refine openBelow_cons.mpr ⟨?_, sound⟩
    cases above with
    | nil => rfl
    | cons next above =>
      exact opens _ ((Disk.isDirectoryAt_iff.mp directory).resolve_left (List.cons_ne_nil _ _))
  · rw [← List.cons_append, if_neg same] at there
    exact opens way there

/--
A directory that is new on the way to a file below the root is itself below the root: the names up
to the root lead to directories that are there.
-/
theorem exists_below {name : String} {front init above : List String} {place : Place}
    (leads : Disk.Leads disk [] front top)
    (down : ∀ name ∈ init, Disk.staysPut name = false ∧ name ≠ "..")
    (inside : name :: above <:+ (front ++ init).reverse) (moves : Disk.staysPut name = false)
    (lower : name ≠ "..") (reached : Disk.Leads disk [] above.reverse place)
    (free : disk.entry? (name :: place) = none) :
    ∃ way, above = way ++ front.reverse ∧ (name :: way).reverse <+: init ∧ place = way ++ top := by
  -- names that end within those of the root lead to a directory, but nothing is there
  have outside (rest : List String) (ends : front = (name :: above).reverse ++ rest) : False := by
    rw [ends, List.reverse_cons, List.append_assoc] at leads
    obtain ⟨mid, first, last⟩ := Disk.leads_append.mp leads
    cases reached.unique first
    cases last with
    | stay stays rest => cases stays.symm.trans moves
    | up directory rest => exact lower rfl
    | down directory moves lower short rest =>
      have there := (Disk.isDirectoryAt_iff.mp rest.start).resolve_left (List.cons_ne_nil _ _)
      rw [Disk.entry?_cons, there] at free
      cases free
  rw [List.reverse_append] at inside
  obtain ⟨rest, whole⟩ := inside
  obtain ⟨below, split, ends⟩ | ⟨below, -, ends⟩ := List.append_eq_append_iff.mp whole
  · cases below with
    | nil =>
      refine (outside [] ?_).elim
      rw [List.append_nil, ends, List.nil_append, List.reverse_reverse]
    | cons first way =>
      rw [List.cons_append] at ends
      obtain ⟨rfl, rfl⟩ := List.cons.inj ends
      have front_of : (name :: way).reverse <+: init := by
        rw [← List.reverse_reverse init, split, List.reverse_append]
        exact List.prefix_append _ _
      refine ⟨way, rfl, front_of, ?_⟩
      rw [List.reverse_append, List.reverse_reverse] at reached
      obtain ⟨mid, again, rest⟩ := Disk.leads_append.mp reached
      cases again.unique leads
      have stacked := rest.eq_of_down fun other listed =>
        down other (front_of.subset (List.mem_reverse.mpr
          (List.mem_cons_of_mem _ (List.mem_reverse.mp listed))))
      rwa [List.reverse_reverse] at stacked
  · refine (outside below.reverse ?_).elim
    rw [← List.reverse_append, ← ends, List.reverse_reverse]

/-- What the directories above a file are made by is what they are opened by. -/
theorem Opens.makeDirectories {path : String} (opens : Opens root top disk)
    (linkless : disk.Linkless) (sound : Disk.pathFault? root = none)
    (leads : Disk.Leads disk [] (Disk.names root) top)
    (down : ∀ name ∈ Disk.names path, Disk.staysPut name = false ∧ name ≠ "..") :
    Opens root top (disk.makeDirectories (Disk.parentOf (target root path))).2 := by
  obtain ⟨front, first, names⟩ := exists_front sound leads
  obtain ⟨init, last, cut⟩ :=
    (List.eq_nil_or_concat' (Disk.names path)).resolve_left (Disk.names_ne_nil _)
  rw [cut] at down
  have whole : Disk.names (target root path) = front ++ init ++ [last] := by
    rw [names, cut, List.append_assoc]
  let keeps (later : Disk) : Prop := Disk.Raised disk later ∧ Opens root top later
  have kept : keeps (disk.makeDirectories (Disk.parentOf (target root path))).2 := by
    refine Disk.makeAll_induction keeps ?_ ⟨.refl disk, opens⟩
    rintro made listed before after ⟨raised, opens⟩ done
    obtain ⟨name, above, inside, moves, own, backward⟩ :=
      Disk.mem_ancestors_parentOf whole (down last (by simp)).1 listed
    refine ⟨raised.trans (Disk.raised_of_makeDirectory done), ?_⟩
    obtain ⟨fits, _, _, cursor, same, walked, lower, -, free, rfl⟩ := Disk.makeDirectory_ok done
    cases backward.symm.trans same
    obtain ⟨walked, arrived⟩ := Disk.walkToDirectory_ok.mp walked
    have reached := Disk.leads_of_walk (raised.linkless linkless) walked arrived
    obtain ⟨way, rfl, ahead, place⟩ := exists_below (first.mono raised.isDirectoryAt)
      (fun name listed => down name (List.mem_append_left _ listed)) inside moves
      (fun up => lower (.inr up)) reached free
    rw [place] at arrived ⊢
    refine opens.put_directory arrived ?_
    -- the path that the directory was made by is the one that leads to it from the root
    have text : pathBelow root (name :: way).reverse = made := by
      rw [← Disk.names_inj, pathBelow, names, own, Disk.names_pathOf (by simp) ?_]
      · simp
      · intro other member
        have listed : other ∈ Disk.names path := by
          rw [cut]
          exact List.mem_append_left _ (ahead.subset member)
        exact Disk.no_slash_of_mem_names listed
    rw [text]
    exact fits
  exact kept.2

end DirectoryTree

end ConfigRecovery
