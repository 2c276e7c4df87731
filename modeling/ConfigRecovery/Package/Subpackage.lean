import ConfigRecovery.Package.Manifest
import ConfigRecovery.Text.Split

/-!
# Subpackages

The descriptors of the subpackages deal out the page list in order. Each takes the pages that it
lists itself, or else all that start with its root, and has them relative to the root afterwards.
The first page of the list is the entry page and stays there whatever is taken.
-/

namespace ConfigRecovery

/-- A subpackage with its share of the pages. -/
structure Subpackage where
  /-- The directory of the subpackage -/
  root : String
  /-- Its pages, relative to the root -/
  pages : List String
deriving Repr, DecidableEq

namespace Subpackage

/-- The root that a descriptor must have. -/
def rootOf (index : Nat) (descriptor : Fields Json.Value) : Except Failure String :=
  match Fields.get? descriptor "root" with
  | some (.string root) => .ok root
  | other => .error (.malformed (.subpackageRoot index) (.unexpected .string (other.map (·.kind))))

/-- The pages that a descriptor selects: its own list, or those in the list that start with its root. -/
def select (index : Nat) (descriptor : Fields Json.Value) (root : String) (pages : List String) :
    Except Failure (List String) :=
  match Fields.get? descriptor "pages" with
  | some (.array items) => Manifest.asStrings (.subpackagePages index) items
  | some .null | none => .ok (pages.filter fun page => root.toList.isPrefixOf page.toList)
  | some other => .error (.malformed (.subpackagePages index) (.unexpected .array other.kind))

/-- Takes one occurrence of a page off the list, unless it is the first page. -/
def release (pages : List String) (page : String) : List String :=
  match pages with
  | [] => []
  | first :: rest => if first = page then first :: rest else first :: rest.erase page

/-- A page without the first occurrence of the root. -/
def relativePage (root page : String) : String :=
  String.ofList (Text.replaceFirst root.toList [] page.toList)

structure Share where
  root : String
  /-- The pages as they are listed -/
  selected : List String
  /-- The descriptor with its pages made relative -/
  descriptor : Json.Value

def Share.subpackage (share : Share) : Subpackage :=
  ⟨share.root, share.selected.map (relativePage share.root)⟩

/-- The share of a descriptor, which must be an object with a root. -/
def Share.of (index : Nat) (pages : List String) : Json.Value → Except Failure Share
  | .object descriptor => do
    let root ← rootOf index descriptor
    let selected ← select index descriptor root pages
    let relative := selected.map (relativePage root)
    return ⟨root, selected, .object (Fields.insert descriptor "pages" (.strings relative))⟩
  | other => .error (.malformed (.subpackage index) (.unexpected .object other.kind))

/-- The outcome of a partition. After a failure the work done before it stands. -/
structure Partition where
  /-- The pages that stay in the root package -/
  pages : List String
  /-- The descriptors, with relative pages as far as the partition came -/
  descriptors : List Json.Value
  /-- The subpackages, or why there are none -/
  result : Except Failure (List Subpackage)

/-- Deals out pages to the descriptors from a position on. -/
def partitionFrom (index : Nat) (pages : List String) : List Json.Value → Partition
  | [] => ⟨pages, [], .ok []⟩
  | descriptor :: rest =>
    match Share.of index pages descriptor with
    | .error failure => ⟨pages, descriptor :: rest, .error failure⟩
    | .ok share =>
      let others := partitionFrom (index + 1) (share.selected.foldl release pages) rest
      ⟨others.pages, share.descriptor :: others.descriptors,
        others.result.map (share.subpackage :: ·)⟩

/-- Deals out pages to the descriptors in order. -/
def partition (pages : List String) (descriptors : List Json.Value) : Partition :=
  partitionFrom 0 pages descriptors

end Subpackage

end ConfigRecovery
