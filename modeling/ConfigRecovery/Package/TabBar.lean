import ConfigRecovery.Json.Value
import ConfigRecovery.Package.ContentIndex
import ConfigRecovery.Path.PageKey

/-!
# Icons of the tab bar

The items of a tab bar carry their icons as inline data. Where a file with the same bytes exists,
the item refers to the file instead and the data goes; where none exists, the item stays as it is.
-/

namespace ConfigRecovery.TabBar

structure Slot where
  data : String
  path : String
deriving Repr, DecidableEq

/-- The icons of an item. -/
def slots : List Slot := [⟨"iconData", "iconPath"⟩, ⟨"selectedIconData", "selectedIconPath"⟩]

def listField : String := "list"

def pageField : String := "pagePath"

/-- How many icons were found among the files, and how many were not. -/
structure Counts where
  /-- Icons that refer to a file now -/
  resolved : Nat := 0
  /-- Icons that keep their data -/
  unresolved : Nat := 0
deriving Repr, DecidableEq

def Counts.add (a b : Counts) : Counts := ⟨a.resolved + b.resolved, a.unresolved + b.unresolved⟩

/-- Refers an icon to a file with its bytes. -/
def linkSlot (index : ContentIndex) (item : Fields Json.Value) (slot : Slot) :
    Fields Json.Value × Counts :=
  match Fields.get? item slot.data with
  | some (.string data) =>
    if data = "" then (item, {})
    else
      match index.lookupInline data with
      | some path => (Fields.erase (Fields.insert item slot.path (.string path)) slot.data, ⟨1, 0⟩)
      | none => (item, ⟨0, 1⟩)
  | _ => (item, {})

/-- Names the page of an item by its key. -/
def linkPage (item : Fields Json.Value) : Fields Json.Value :=
  match Fields.get? item pageField with
  | some (.string page) => Fields.insert item pageField (.string (PageKey.ofPath page).name)
  | _ => item

/-- Names the page of an item by its key and refers its icons to files. -/
def linkItem (index : ContentIndex) : Json.Value → Json.Value × Counts
  | .object item =>
    let (item, counts) := slots.foldl (fun (item, counts) slot =>
      let (item, more) := linkSlot index item slot
      (item, counts.add more)) (linkPage item, {})
    (.object item, counts)
  | other => (other, {})

def items? (tabBar : Json.Value) : Option (List Json.Value) :=
  match tabBar.field? listField with
  | some (.array items) => some items
  | _ => none

/-- Refers the icons of all items to files. -/
def link (index : ContentIndex) (tabBar : Json.Value) : Json.Value × Counts :=
  match tabBar, items? tabBar with
  | .object fields, some items =>
    let linked := items.map (linkItem index)
    (.object (Fields.insert fields listField (.array (linked.map (·.1)))),
      (linked.map (·.2)).foldl .add {})
  | _, _ => (tabBar, {})

end ConfigRecovery.TabBar
