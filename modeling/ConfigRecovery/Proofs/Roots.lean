import ConfigRecovery.Proofs.Partition

/-!
# Pages by root

Descriptors without a list of pages split a list of distinct pages among them and the root package:
a page goes to the first descriptor whose root it starts with, in the order of the list. Only the
entry page is in the root package and in all subpackages whose root it starts with.
-/

namespace ConfigRecovery

/-- A pattern at the front is the leftmost one. -/
theorem Text.replaceFirst_append (pattern replacement rest : List Char) :
    replaceFirst pattern replacement (pattern ++ rest) = replacement ++ rest := by
  cases whole : pattern ++ rest with
  | nil =>
    obtain ⟨rfl, rfl⟩ := List.append_eq_nil_iff.mp whole
    simp [replaceFirst]
  | cons c text =>
    have front : pattern.isPrefixOf (c :: text) = true :=
      List.isPrefixOf_iff_prefix.mpr ⟨rest, whole⟩
    rw [replaceFirst, if_pos front, ← whole, List.drop_left]

namespace Subpackage

/-- The position of the first root that a page starts with. -/
def owner? (roots : List String) (page : String) : Option Nat :=
  roots.findIdx? fun root => root.toList <+: page.toList

/-- A descriptor that takes the pages that start with its root. -/
structure Rooted (descriptor : Fields Json.Value) (root : String) : Prop where
  root : Fields.get? descriptor "root" = some (.string root)
  unlisted : Fields.get? descriptor "pages" = none ∨ Fields.get? descriptor "pages" = some .null

theorem append_relativePage {root page : String} (starts : root.toList <+: page.toList) :
    root ++ relativePage root page = page := by
  obtain ⟨rest, whole⟩ := starts
  rw [← String.toList_inj, String.toList_append, relativePage, String.toList_ofList, ← whole,
    Text.replaceFirst_append, List.nil_append]

/-- A list without all pages of a kind in it. -/
theorem diff_filter (pages : List String) (kind : String → Bool) :
    pages.diff (pages.filter kind) = pages.filter fun page => !kind page := by
  induction pages with
  | nil => rfl
  | cons page pages ih =>
    by_cases chosen : kind page = true
    · rw [List.filter_cons_of_pos chosen, List.diff_cons, List.erase_cons_head, ih,
        List.filter_cons_of_neg (by simp [chosen])]
    · have other : page ∉ pages.filter kind := fun member => chosen (List.mem_filter.mp member).2
      rw [List.filter_cons_of_neg chosen, List.cons_diff_of_not_mem other, ih,
        List.filter_cons_of_pos (by simp [chosen])]

/-- All pages of a kind are gone when these are taken, except for the first page of the list. -/
theorem foldl_release_filter (pages : List String) (kind : String → Bool) :
    (pages.filter kind).foldl release pages =
      pages.filter fun page => pages.head? = some page ∨ kind page = false := by
  cases pages with
  | nil => rfl
  | cons first rest =>
    have taken : ((first :: rest).filter kind).filter (· ≠ first) =
        rest.filter fun page => decide (page ≠ first) && kind page := by
      rw [List.filter_filter, List.filter_cons_of_neg (by simp)]
    rw [foldl_release_cons, taken, diff_filter, List.filter_cons_of_pos (by simp)]
    refine congrArg (first :: ·) (List.filter_congr fun page _ => ?_)
    by_cases same : first = page
    · simp [same]
    · simp [same, Ne.symm same]

theorem share_of_rooted {descriptor : Fields Json.Value} {root : String}
    (rooted : Rooted descriptor root) (index : Nat) (pages : List String) :
    let selected := pages.filter fun page => root.toList <+: page.toList
    Share.of index pages (.object descriptor) = .ok ⟨root, selected, .object
      (Fields.insert descriptor "pages" (.strings (selected.map (relativePage root))))⟩ := by
  have named : rootOf index descriptor = .ok root := by
    rw [rootOf, rooted.root]
  have chosen : select index descriptor root pages =
      .ok (pages.filter fun page => root.toList <+: page.toList) := by
    rw [select, ← filter_isPrefixOf]
    rcases rooted.unlisted with unlisted | null
    · rw [unlisted]
    · rw [null]
  exact except_bind_ok.mpr ⟨root, named, except_bind_ok.mpr ⟨_, chosen, rfl⟩⟩

/-- The pages that a root leaves to the roots behind it. -/
def leftBy (entry : Option String) (root : String) (pages : List String) : List String :=
  pages.filter fun page => entry = some page ∨ ¬root.toList <+: page.toList

theorem foldl_release_root (root : String) (pages : List String) :
    (pages.filter fun page => root.toList <+: page.toList).foldl release pages =
      leftBy pages.head? root pages := by
  rw [foldl_release_filter, leftBy]
  simp

theorem partitionFrom_of_rooted {descriptor : Fields Json.Value} {root : String}
    (rooted : Rooted descriptor root) (index : Nat) (pages : List String)
    (rest : List Json.Value) :
    let relative := (pages.filter fun page => root.toList <+: page.toList).map (relativePage root)
    let others := partitionFrom (index + 1) (leftBy pages.head? root pages) rest
    partitionFrom index pages (.object descriptor :: rest) =
      ⟨others.pages,
        .object (Fields.insert descriptor "pages" (.strings relative)) :: others.descriptors,
        others.result.map (⟨root, relative⟩ :: ·)⟩ := by
  rw [partitionFrom, share_of_rooted rooted index pages]
  simp only [foldl_release_root]
  rfl

theorem owner?_cons (root : String) (roots : List String) (page : String) :
    owner? (root :: roots) page =
      if root.toList <+: page.toList then some 0 else (owner? roots page).map (· + 1) := by
  simp [owner?, List.findIdx?_cons]

/-- A page starts with the root that it goes to. -/
theorem starts_of_owner? {roots : List String} {page root : String} {place : Nat}
    (owned : owner? roots page = some place) (there : roots[place]? = some root) :
    root.toList <+: page.toList := by
  obtain ⟨bound, starts, -⟩ := List.findIdx?_eq_some_iff_getElem.mp owned
  obtain ⟨_, rfl⟩ := List.getElem?_eq_some_iff.mp there
  exact of_decide_eq_true starts

/-- Of the pages that the first root leaves, the other roots leave what all roots together do. -/
theorem filter_owner?_none (pages : List String) (entry : Option String) (root : String)
    (roots : List String) :
    ((leftBy entry root pages).filter fun page => entry = some page ∨ owner? roots page = none) =
      pages.filter fun page => entry = some page ∨ owner? (root :: roots) page = none := by
  rw [leftBy, List.filter_filter]
  refine List.filter_congr fun page _ => ?_
  rw [owner?_cons]
  by_cases starts : root.toList <+: page.toList <;> by_cases first : entry = some page <;>
    simp [starts, first]

/-- Of the pages that the first root leaves, a later one takes those that go to it among all. -/
theorem filter_owner?_some (pages : List String) (entry : Option String) (root : String)
    {roots : List String} {place : Nat} {later : String} (there : roots[place]? = some later) :
    ((leftBy entry root pages).filter fun page =>
        owner? roots page = some place ∨ entry = some page ∧ later.toList <+: page.toList) =
      pages.filter fun page => owner? (root :: roots) page = some (place + 1) ∨
        entry = some page ∧ later.toList <+: page.toList := by
  rw [leftBy, List.filter_filter]
  refine List.filter_congr fun page _ => ?_
  have owned (found : owner? roots page = some place) := starts_of_owner? found there
  rw [owner?_cons]
  -- the entry page is not taken off the list, but a root that owns it also starts it
  by_cases starts : root.toList <+: page.toList <;> by_cases first : entry = some page <;>
    simp [starts, first]
  exact owned

/-- The pages that start with a root, each without it and then with it again. -/
theorem map_append_relativePage (root : String) (pages : List String) :
    let selected := pages.filter fun page => root.toList <+: page.toList
    (selected.map (relativePage root)).map (root ++ ·) = selected := by
  intro selected
  rw [List.map_map]
  refine (List.map_congr_left fun page member => ?_).trans (List.map_id _)
  exact append_relativePage (of_decide_eq_true (List.mem_filter.mp member).2)

/-- A partition in which every page goes to the first root that it starts with. -/
structure DealtByRoot (pages : List String) (descriptors : List (Fields Json.Value))
    (roots : List String) (outcome : Partition) (subpackages : List Subpackage) : Prop where
  ok : outcome.result = .ok subpackages
  named : subpackages.map (·.root) = roots
  written : outcome.descriptors = List.zipWith (fun descriptor subpackage =>
    .object (Fields.insert descriptor "pages" (.strings subpackage.pages))) descriptors subpackages
  kept : outcome.pages = pages.filter fun page =>
    pages.head? = some page ∨ owner? roots page = none
  owned : ∀ place subpackage, subpackages[place]? = some subpackage →
    subpackage.pages.map (subpackage.root ++ ·) = pages.filter fun page =>
      owner? roots page = some place ∨
        pages.head? = some page ∧ subpackage.root.toList <+: page.toList

theorem partitionFrom_rooted (index : Nat) {pages : List String} (distinct : pages.Nodup)
    {descriptors : List (Fields Json.Value)} {roots : List String}
    (rooted : List.Forall₂ Rooted descriptors roots) :
    ∃ subpackages, DealtByRoot pages descriptors roots
      (partitionFrom index pages (descriptors.map .object)) subpackages := by
  -- the pages that the first descriptor leaves are a list of distinct pages with the same head
  induction rooted generalizing index pages with
  | nil =>
    refine ⟨[], rfl, rfl, rfl, ?_, ?_⟩
    · exact (List.filter_eq_self.mpr fun page _ => by simp [owner?]).symm
    · intro place subpackage found
      cases found
  | @cons descriptor root descriptors roots first rest ih =>
    have head : (leftBy pages.head? root pages).head? = pages.head? := by
      rw [← foldl_release_root, foldl_release, head?_remaining]
    have apart : (leftBy pages.head? root pages).Nodup := distinct.filter _
    obtain ⟨others, dealt⟩ := ih (index + 1) apart
    rw [List.map_cons, partitionFrom_of_rooted first]
    let selected := pages.filter fun page => root.toList <+: page.toList
    refine ⟨⟨root, selected.map (relativePage root)⟩ :: others, ?_, ?_, ?_, ?_, ?_⟩
    · exact except_map_ok.mpr ⟨others, dealt.ok, rfl⟩
    · rw [List.map_cons, dealt.named]
    · rw [List.zipWith_cons_cons, ← dealt.written]
    · refine dealt.kept.trans ?_
      rw [head, filter_owner?_none]
    · intro place subpackage found
      cases place with
      | zero =>
        cases found
        refine (map_append_relativePage root pages).trans (List.filter_congr fun page _ => ?_)
        rw [owner?_cons]
        by_cases starts : root.toList <+: page.toList <;> simp [starts]
      | succ place =>
        rw [List.getElem?_cons_succ] at found
        have there : roots[place]? = some subpackage.root := by
          rw [← dealt.named, List.getElem?_map, found]
          rfl
        refine (dealt.owned place subpackage found).trans ?_
        rw [head, filter_owner?_some pages _ root there]

/--
Descriptors without lists split distinct pages: each page but the first is in one place, the
descriptor whose root is the first that it starts with, or else the root package. The first page
stays at the front and is also listed wherever it starts with the root. All pages keep their order,
and behind its root every listed page is a page of the list again.
-/
theorem partition_by_root {pages : List String} (distinct : pages.Nodup)
    {descriptors : List (Fields Json.Value)} {roots : List String}
    (rooted : List.Forall₂ Rooted descriptors roots) :
    ∃ subpackages,
      DealtByRoot pages descriptors roots (partition pages (descriptors.map .object)) subpackages ∧
      (partition pages (descriptors.map .object)).pages.head? = pages.head? ∧
      (∀ subpackage ∈ subpackages, subpackage.pages.Nodup) ∧
      ∀ page ∈ pages, pages.head? ≠ some page →
        (page ∈ (partition pages (descriptors.map .object)).pages ↔ owner? roots page = none) ∧
        ∀ place subpackage, subpackages[place]? = some subpackage →
          (page ∈ subpackage.pages.map (subpackage.root ++ ·) ↔
            owner? roots page = some place) := by
  obtain ⟨subpackages, dealt⟩ := partitionFrom_rooted 0 distinct rooted
  refine ⟨subpackages, dealt, ?_, ?_, ?_⟩
  · obtain ⟨taken, left⟩ := exists_taken 0 pages (descriptors.map .object)
    rw [partition, left, head?_remaining]
  · intro subpackage member
    obtain ⟨place, found⟩ := List.mem_iff_getElem?.mp member
    refine List.Nodup.of_map (subpackage.root ++ ·) ?_
    rw [dealt.owned place subpackage found]
    exact distinct.filter _
  · intro page member other
    constructor
    · rw [partition, dealt.kept, List.mem_filter]
      simp [member, other]
    · intro place subpackage found
      rw [dealt.owned place subpackage found, List.mem_filter]
      simp [member, other]

/-- A root below another and an empty root; the entry page starts with two of the three. -/
theorem partition_by_root_nested :
    let pages := ["s/e", "s/t/y", "b", "s/x"]
    let roots := ["s/t/", "s/", ""]
    let descriptors : List (Fields Json.Value) := roots.map fun root => [("root", .string root)]
    let subpackages : List Subpackage :=
      [⟨"s/t/", ["y"]⟩, ⟨"s/", ["e", "x"]⟩, ⟨"", ["s/e", "b"]⟩]
    pages.Nodup ∧ List.Forall₂ Rooted descriptors roots ∧
      DealtByRoot pages descriptors roots (partition pages (descriptors.map .object)) subpackages ∧
      (partition pages (descriptors.map .object)).pages = ["s/e"] := by
  intro pages roots descriptors subpackages
  have distinct : pages.Nodup := by decide
  have rooted : List.Forall₂ Rooted descriptors roots := by
    refine List.forall₂_map_left_iff.mpr (List.forall₂_same.mpr fun root _ => ?_)
    exact ⟨rfl, .inl rfl⟩
  obtain ⟨found, dealt, -⟩ := partition_by_root distinct rooted
  have ok : (partition pages (descriptors.map .object)).result = .ok subpackages := by
    cbv
  cases dealt.ok.symm.trans ok
  exact ⟨distinct, rooted, dealt, dealt.kept.trans (by decide)⟩

end Subpackage

end ConfigRecovery
