import ConfigRecovery.Proofs.ContentIndex

/-!
# Listings in any order

A directory may be listed in any order, and a path may be listed more than once. Neither shows in
the index: the listing is put in order first, so the paths of the files with some digest come out
alike, and only the first of them is kept. That needs nothing of the digest. Where the digest tells
the contents in question apart, what the index holds is told by the contents themselves.
-/

namespace ConfigRecovery.ContentIndex

/-! ## Files that may be icons -/

/-- The extension, if there is one, is no ignored one, whatever the case of its letters. -/
def MayBeIcon (settings : Settings) (path : String) : Prop :=
  ∀ extension, Path.extension? path = some extension →
    ∀ ignored ∈ settings.ignoredExtensions,
      ignored.toList.map Char.toLower ≠ extension.toList.map Char.toLower

theorem isEligible_iff {settings : Settings} {file : File} :
    isEligible settings file = true ↔ MayBeIcon settings file.1 := by
  unfold isEligible MayBeIcon
  cases Path.extension? file.1 with
  | none => simp
  | some extension => simp [Settings.ignores, equalIgnoringCase]

/-- A file that may be an icon and has these bytes. -/
structure Holds (settings : Settings) (bytes : List UInt8) (file : File) : Prop where
  mayBeIcon : MayBeIcon settings file.1
  content : file.2.toList = bytes

theorem mem_holders_iff {settings : Settings} {files : List File} {bytes : List UInt8}
    {file : File} :
    file ∈ holders settings files bytes ↔ file ∈ files ∧ Holds settings bytes file := by
  rw [mem_holders, isEligible_iff]
  exact and_congr_right fun _ => ⟨fun h => ⟨h.1, h.2⟩, fun h => ⟨h.mayBeIcon, h.content⟩⟩

/-! ## The digests of an index -/

def digests (index : ContentIndex) : List Digest := index.paths.map Prod.fst

theorem mem_digests {index : ContentIndex} {digest : Digest} :
    digest ∈ index.digests ↔ (index.find? digest).isSome = true := by
  rw [digests, find?, List.mem_map, List.lookup_isSome_iff]
  simp only [beq_iff_eq, @eq_comm _ digest]

theorem nodup_digests_insert {index : ContentIndex} (unique : index.digests.Nodup) (path : String)
    (bytes : List UInt8) : (index.insert path bytes).digests.Nodup := by
  unfold insert
  cases held : index.find? (.of bytes) with
  | some other => exact unique
  | none =>
    have missing : Digest.of bytes ∉ index.digests := by
      rw [mem_digests, held]
      exact Bool.false_ne_true
    rw [digests, List.map_append]
    exact List.nodup_append_comm.mp (List.nodup_cons.mpr ⟨missing, unique⟩)

theorem nodup_digests_foldl (files : List File) {index : ContentIndex}
    (unique : index.digests.Nodup) :
    (files.foldl (fun index file => index.insert file.1 file.2.toList) index).digests.Nodup := by
  induction files generalizing index with
  | nil => exact unique
  | cons file files ih => exact ih (nodup_digests_insert unique _ _)

theorem nodup_digests_ofFiles (settings : Settings) (files : List File) :
    (ofFiles settings files).digests.Nodup :=
  nodup_digests_foldl _ List.nodup_nil

theorem find?_ofFiles (settings : Settings) (files : List File) (digest : Digest) :
    (ofFiles settings files).find? digest =
      (((inOrder files).filter (isEligible settings)).find?
        fun file => Digest.of file.2.toList = digest).map fun file => Path.canonical file.1 :=
  find?_foldl_insert _ _ _

theorem mem_digests_ofFiles {settings : Settings} {files : List File} {digest : Digest} :
    digest ∈ (ofFiles settings files).digests ↔
      ∃ file ∈ files, MayBeIcon settings file.1 ∧ Digest.of file.2.toList = digest := by
  rw [mem_digests, find?_ofFiles, Option.isSome_map, List.find?_isSome]
  simp [mem_inOrder, isEligible_iff, and_assoc]

/-! ## Listings of the same files -/

section

variable {settings : Settings} {files other : List File} (same : files.Perm other)

include same

theorem perm_inOrder : (inOrder files).Perm (inOrder other) :=
  (List.mergeSort_perm _ _).trans (same.trans (List.mergeSort_perm _ _).symm)

/-- In order, the files picked by any test have the same paths, though not the same contents. -/
theorem map_fst_filter_inOrder (p : File → Bool) :
    ((inOrder files).filter p).map Prod.fst = ((inOrder other).filter p).map Prod.fst := by
  have sorted (listing : List File) :
      (((inOrder listing).filter p).map Prod.fst).Pairwise fun a b => utf8 a ≤ utf8 b :=
    List.pairwise_map.mpr ((pairwise_inOrder listing).filter p)
  apply List.Perm.eq_of_pairwise _ (sorted files) (sorted other)
  · exact ((perm_inOrder same).filter p).map Prod.fst
  · intro a b _ _ below above
    exact String.le_antisymm (utf8_le_iff.mp below) (utf8_le_iff.mp above)

theorem find?_ofFiles_perm (digest : Digest) :
    (ofFiles settings other).find? digest = (ofFiles settings files).find? digest := by
  have first (listing : List File) : (ofFiles settings listing).find? digest =
      (((inOrder listing).filter fun file =>
        Digest.of file.2.toList = digest && isEligible settings file).map
          Prod.fst).head?.map Path.canonical := by
    rw [find?_ofFiles, ← List.head?_filter, List.filter_filter, List.head?_map, Option.map_map]
    rfl
  rw [first, first, map_fst_filter_inOrder same]

theorem size_ofFiles_perm :
    (ofFiles settings other).size = (ofFiles settings files).size := by
  have alike : (ofFiles settings other).digests.Perm (ofFiles settings files).digests := by
    apply (List.perm_ext_iff_of_nodup (nodup_digests_ofFiles _ _) (nodup_digests_ofFiles _ _)).mpr
    intro digest
    rw [mem_digests, find?_ofFiles_perm same, ← mem_digests]
  have equal := alike.length_eq
  rwa [digests, digests, List.length_map, List.length_map] at equal

end

/-! ## Contents that the digest tells apart -/

/-- The contents of the files that may be icons, each of them once. -/
def distinct (settings : Settings) (files : List File) : Finset (List UInt8) :=
  ((files.filter (isEligible settings)).map fun file => file.2.toList).toFinset

theorem mem_distinct {settings : Settings} {files : List File} {bytes : List UInt8} :
    bytes ∈ distinct settings files ↔ ∃ file ∈ files, Holds settings bytes file := by
  simp only [distinct, List.mem_toFinset, List.mem_map, List.mem_filter, isEligible_iff]
  constructor
  · rintro ⟨file, ⟨member, mayBeIcon⟩, content⟩
    exact ⟨file, member, mayBeIcon, content⟩
  · rintro ⟨file, member, mayBeIcon, content⟩
    exact ⟨file, ⟨member, mayBeIcon⟩, content⟩

theorem toFinset_digests_ofFiles (settings : Settings) (files : List File) :
    (ofFiles settings files).digests.toFinset = (distinct settings files).image Digest.of := by
  ext digest
  rw [List.mem_toFinset, mem_digests_ofFiles, Finset.mem_image]
  constructor
  · rintro ⟨file, member, mayBeIcon, alike⟩
    exact ⟨file.2.toList, mem_distinct.mpr ⟨file, member, mayBeIcon, rfl⟩, alike⟩
  · rintro ⟨bytes, held, alike⟩
    obtain ⟨file, member, mayBeIcon, rfl⟩ := mem_distinct.mp held
    exact ⟨file, member, mayBeIcon, alike⟩

section

variable {settings : Settings} {files : List File} {contents : Set (List UInt8)}
  (listed : ∀ file ∈ files, file.2.toList ∈ contents) (apart : contents.InjOn Digest.of)

include listed apart

theorem isSome_lookup_ofFiles {bytes : List UInt8} (known : bytes ∈ contents) :
    ((ofFiles settings files).lookup bytes).isSome = true ↔
      ∃ file ∈ files, Holds settings bytes file := by
  rw [lookup, ← mem_digests, mem_digests_ofFiles]
  constructor
  · rintro ⟨file, member, mayBeIcon, alike⟩
    exact ⟨file, member, mayBeIcon, apart (listed file member) known alike⟩
  · rintro ⟨file, member, mayBeIcon, content⟩
    exact ⟨file, member, mayBeIcon, congrArg Digest.of content⟩

theorem lookup_ofFiles_least {bytes : List UInt8} (known : bytes ∈ contents) {path : String}
    (found : (ofFiles settings files).lookup bytes = some path) :
    ∃ file ∈ files, Holds settings bytes file ∧
      (∀ other ∈ files, Holds settings bytes other → utf8 file.1 ≤ utf8 other.1) ∧
      path = Path.canonical file.1 := by
  obtain ⟨file, member, holds⟩ :=
    (isSome_lookup_ofFiles listed apart known).mp (Option.isSome_of_eq_some found)
  have nonempty : holders settings files bytes ≠ [] :=
    List.ne_nil_of_mem (mem_holders_iff.mpr ⟨member, holds⟩)
  obtain ⟨first, held, least, kept⟩ := lookup_ofFiles_eq_some
    (fun file member _ alike => apart (listed file member) known alike) nonempty
  obtain ⟨member, holds⟩ := mem_holders_iff.mp held
  refine ⟨first, member, holds, ?_, ?_⟩
  · intro other member holds
    exact least other (mem_holders_iff.mpr ⟨member, holds⟩)
  · exact Option.some.inj (found.symm.trans kept)

/-- One digest is kept of each content. -/
theorem size_ofFiles : (ofFiles settings files).size = (distinct settings files).card := by
  have injective : Set.InjOn Digest.of (distinct settings files) := by
    apply apart.mono
    intro bytes held
    obtain ⟨file, member, _, rfl⟩ := mem_distinct.mp held
    exact listed file member
  calc (ofFiles settings files).size
      = (ofFiles settings files).digests.length := (List.length_map _).symm
    _ = (ofFiles settings files).digests.toFinset.card :=
        (List.toFinset_card_of_nodup (nodup_digests_ofFiles _ _)).symm
    _ = (distinct settings files).card := by
        rw [toFinset_digests_ofFiles, Finset.card_image_of_injOn injective]

/-- The index is told by which files are listed and not by how they are listed. -/
theorem ofFiles_perm {other : List File} (same : files.Perm other) :
    (∀ bytes, (ofFiles settings other).lookup bytes = (ofFiles settings files).lookup bytes) ∧
    (ofFiles settings other).size = (ofFiles settings files).size ∧
    (∀ bytes ∈ contents,
      (((ofFiles settings files).lookup bytes).isSome = true ↔
        ∃ file ∈ files, Holds settings bytes file) ∧
      ∀ path, (ofFiles settings files).lookup bytes = some path →
        ∃ file ∈ files, Holds settings bytes file ∧
          (∀ other ∈ files, Holds settings bytes other → utf8 file.1 ≤ utf8 other.1) ∧
          path = Path.canonical file.1) ∧
    ∃ distinct : Finset (List UInt8),
      (∀ bytes, bytes ∈ distinct ↔ ∃ file ∈ files, Holds settings bytes file) ∧
      (ofFiles settings files).size = distinct.card := by
  refine ⟨?_, size_ofFiles_perm same, ?_, distinct settings files, fun _ => mem_distinct,
    size_ofFiles listed apart⟩
  · intro bytes
    exact find?_ofFiles_perm same (.of bytes)
  · intro bytes known
    exact ⟨isSome_lookup_ofFiles listed apart known,
      fun path found => lookup_ofFiles_least listed apart known found⟩

end

/-- A path is listed with two contents; one of them an ignored file and a later one have too. -/
theorem ofFiles_perm_path_listed_twice :
    let home : ByteArray := ⟨#[104]⟩
    let away : ByteArray := ⟨#[105]⟩
    let files : List File :=
      [("d", home), ("a.JSON", home), ("b/./c.png", home), ("b/./c.png", away)]
    let other : List File :=
      [("b/./c.png", away), ("b/./c.png", home), ("d", home), ("a.JSON", home)]
    let contents : Set (List UInt8) := {[104], [105]}
    (files.Perm other ∧ (∀ file ∈ files, file.2.toList ∈ contents) ∧ contents.InjOn Digest.of) ∧
      (ofFiles {} other).lookup [104] = some "b/c.png" ∧
      (ofFiles {} other).lookup [105] = some "b/c.png" ∧
      (ofFiles {} other).size = 2 := by
  intro home away files other contents
  have same : files.Perm other := by decide
  have homely : home.toList = [104] := by cbv
  have strange : away.toList = [105] := by cbv
  have listed : ∀ file ∈ files, file.2.toList ∈ contents := by
    simp [files, contents, homely, strange]
  have apart : contents.InjOn Digest.of := by
    have differ : Digest.of [104] ≠ Digest.of [105] := by decide +kernel
    exact Set.injOn_pair.mpr fun alike => (differ alike).elim
  have held : holders {} files [104] = [("d", home), ("b/./c.png", home)] := by cbv
  have moved : holders {} files [105] = [("b/./c.png", away)] := by cbv
  obtain ⟨lookup, size, known, distinct, mem_distinct, card⟩ :=
    @ofFiles_perm {} files contents listed apart other same
  have canonical : Path.canonical "b/./c.png" = "b/c.png" := by decide
  have finds (bytes : List UInt8) (holder : File) (holds : holder ∈ holders {} files bytes)
      (least : ∀ file ∈ holders {} files bytes, utf8 file.1 ≤ utf8 holder.1 →
        file.1 = "b/./c.png") : (ofFiles {} other).lookup bytes = some "b/c.png" := by
    obtain ⟨member, held⟩ := mem_holders_iff.mp holds
    obtain ⟨found, smallest⟩ := known bytes (held.content ▸ listed holder member)
    obtain ⟨path, kept⟩ := Option.isSome_iff_exists.mp (found.mpr ⟨holder, member, held⟩)
    obtain ⟨file, inFiles, same, first, rfl⟩ := smallest path kept
    have named := least file (mem_holders_iff.mpr ⟨inFiles, same⟩) (first holder member held)
    rw [lookup, kept, named, canonical]
  refine ⟨⟨same, listed, apart⟩, ?_, ?_, ?_⟩
  · apply finds [104] ("b/./c.png", home) (by simp [held])
    rw [held]
    intro file member below
    rcases List.mem_cons.mp member with rfl | last
    · exact absurd (utf8_le_iff.mp below) (by decide)
    · rw [List.mem_singleton.mp last]
  · apply finds [105] ("b/./c.png", away) (by simp [moved])
    rw [moved]
    intro file member _
    rw [List.mem_singleton.mp member]
  · have both : distinct = {[104], [105]} := by
      ext bytes
      rw [mem_distinct, Finset.mem_insert, Finset.mem_singleton]
      constructor
      · rintro ⟨file, member, holds⟩
        simpa [contents, holds.content] using listed file member
      · rintro (rfl | rfl)
        · exact ⟨("d", home), mem_holders_iff.mp (by simp [held])⟩
        · exact ⟨("b/./c.png", away), mem_holders_iff.mp (by simp [moved])⟩
    rw [size, card, both]
    rfl

end ConfigRecovery.ContentIndex
