import ConfigRecovery.Failure
import ConfigRecovery.Path.PageKey
import Std.Data.ExtTreeMap

/-!
# The page table

The table holds the window of every known page and component, in the order of their keys. Two
spellings of one page in the manifest are one entry, and the first of them is kept.
-/

namespace ConfigRecovery

/-- The window of a page: what its configuration file holds. -/
abbrev Window := Fields Json.Value

namespace Window

def componentFlag : String := "component"

def usageField : String := "usingComponents"

/-- The components in use by name, if they are listed in an object. -/
def usage? (window : Window) : Option (Fields Json.Value) :=
  match Fields.get? window usageField with
  | some (.object usage) => some usage
  | _ => none

/-- The specifiers of the components in use; what is not a text is none. -/
def specifiers (window : Window) : List String :=
  ((usage? window).getD []).filterMap fun
    | (_, .string specifier) => some specifier
    | _ => none

def isComponent (window : Window) : Bool :=
  match Fields.get? window componentFlag with
  | some (.bool flag) => flag
  | _ => false

def mark (window : Window) : Window := Fields.insert window componentFlag (.bool true)

@[simp]
theorem specifiers_mark (window : Window) : specifiers (mark window) = specifiers window := by
  have h : usageField ≠ componentFlag := by decide
  simp [specifiers, usage?, mark, Fields.get?_insert_of_ne h]

end Window

/-- The windows of all known pages and components. -/
structure PageTable where
  windows : Std.ExtTreeMap PageKey Window

namespace PageTable

def empty : PageTable := ⟨∅⟩

def get? (table : PageTable) (key : PageKey) : Option Window := table.windows[key]?

def contains (table : PageTable) (key : PageKey) : Bool := table.windows.contains key

def insert (table : PageTable) (key : PageKey) (window : Window) : PageTable :=
  ⟨table.windows.insert key window⟩

/-- Sets the window of a page that is not known yet. -/
def insertNew (table : PageTable) (key : PageKey) (window : Window) : PageTable :=
  ⟨table.windows.insertIfNew key window⟩

/-- Marks a page as a component; one that is not known gets a window of its own. -/
def mark (table : PageTable) (key : PageKey) : PageTable :=
  table.insert key ((table.get? key).getD []).mark

def keys (table : PageTable) : List PageKey := table.windows.keys

/-- The keys and windows in order of the keys. -/
def toList (table : PageTable) : List (PageKey × Window) := table.windows.toList

def size (table : PageTable) : Nat := table.windows.size

/-- The window of a page in the manifest; none or `null` is an empty one. -/
def windowOf (key : String) : Json.Value → Except Failure Window
  | .object page =>
    match Fields.get? page "window" with
    | some (.object window) => .ok window
    | some .null | none => .ok []
    | some other => .error (.malformed (.window key) (.unexpected .object other.kind))
  | other => .error (.malformed (.page key) (.unexpected .object other.kind))

/-- Adds the pages of the manifest, of which each must have a window. -/
def addPages (table : PageTable) (pages : Fields Json.Value) : Except Failure PageTable :=
  pages.foldlM (fun table (key, page) =>
    return table.insertNew (PageKey.ofPath key) (← windowOf key page)) table

/-- The table of the manifest's pages, which must be an object. -/
def ofValue : Json.Value → Except Failure PageTable
  | .object pages => empty.addPages pages
  | other => .error (.malformed (.named "page") (.unexpected .object other.kind))

theorem get?_mark (table : PageTable) (marked key : PageKey) :
    (table.mark marked).get? key =
      if marked = key then some (((table.get? key).getD []).mark) else table.get? key := by
  by_cases h : marked = key <;> simp [mark, insert, get?, Std.ExtTreeMap.getElem?_insert, h]

theorem get?_eq_none {table : PageTable} {key : PageKey} (h : table.contains key = false) :
    table.get? key = none := by
  exact Std.ExtTreeMap.getElem?_eq_none_of_contains_eq_false h

end PageTable

end ConfigRecovery
