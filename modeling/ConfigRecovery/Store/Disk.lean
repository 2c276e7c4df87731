import ConfigRecovery.Store.SystemFault
import ConfigRecovery.Text.Split
import Std.Data.ExtTreeMap

/-!
# A disk

A disk holds directories, regular files and symbolic links by their place, which is a list of
names from the innermost to the outermost. Operations take paths as text and resolve them name by
name, as a file system does: `.` and empty names stay, `..` goes up, links are followed, and every
name that is passed must be that of a directory.
-/

namespace ConfigRecovery

/-- A place on a disk: names from the innermost to the outermost. -/
abbrev Place := List String

inductive Entry where
  | directory
  | file (bytes : ByteArray)
  /-- A link with the path that it leads to -/
  | link (target : String)

/-- A disk with all its entries; the place without names is a directory that is always there. -/
structure Disk where
  entries : Std.ExtTreeMap Place Entry

namespace Disk

def empty : Disk := ⟨∅⟩

def entry? (disk : Disk) (place : Place) : Option Entry :=
  if place = [] then some .directory else disk.entries[place]?

def put (disk : Disk) (place : Place) (entry : Entry) : Disk := ⟨disk.entries.insert place entry⟩

def isDirectoryAt (disk : Disk) (place : Place) : Bool :=
  match disk.entry? place with
  | some .directory => true
  | _ => false

/-! ## Paths as text -/

def maxName : Nat := 255

def maxPath : Nat := 4095

def maxLinks : Nat := 40

def names (path : String) : List String := (Text.splitOn '/' path.toList).map String.ofList

/-- Names that stay where they are. -/
def staysPut (name : String) : Bool := name = "" || name = "."

/-- Faults that show before a path is looked at. -/
def pathFault? (path : String) : Option SystemFault :=
  if path = "" then some .notFound
  else if '\x00' ∈ path.toList then some .nulInPath
  else if maxPath < path.utf8ByteSize then some .nameTooLong
  else none

/-- Where a path starts: at the top, or in the directory that holds the link with it. -/
def startOf (path : String) (place : Place) : Place :=
  if path.toList.head? = some '/' then [] else place

/-! ## Resolving -/

/-- Where the resolving of a path stands. -/
structure Cursor where
  place : Place
  /-- The number of links that may still be followed -/
  links : Nat

/-- The cursor before the first name of a path. -/
def Cursor.start : Cursor := ⟨[], maxLinks⟩

/-- Follows names from where the cursor stands. -/
def walk (disk : Disk) : Cursor → List String → Except SystemFault Cursor
  | cursor, [] => .ok cursor
  | ⟨place, links⟩, name :: rest =>
    if !disk.isDirectoryAt place then .error .notDirectory
    else if staysPut name then disk.walk ⟨place, links⟩ rest
    else if name = ".." then disk.walk ⟨place.tail, links⟩ rest
    else if maxName < name.utf8ByteSize then .error .nameTooLong
    else
      match disk.entry? (name :: place) with
      | none => .error .notFound
      | some (.link target) =>
        match links with
        | 0 => .error .tooManyLinks
        | links + 1 => disk.walk ⟨startOf target place, links⟩ (Disk.names target ++ rest)
      | some _ => disk.walk ⟨name :: place, links⟩ rest
termination_by cursor names => (cursor.links, names.length)

/-- Following names adds no links to those that may be followed. -/
theorem links_le_of_walk {disk : Disk} {start stop : Cursor} {names : List String}
    (h : disk.walk start names = .ok stop) : stop.links ≤ start.links := by
  fun_induction walk disk start names <;> grind

/-- The place that a path names, which must be there. -/
def resolve (disk : Disk) (path : String) : Except SystemFault Place :=
  match pathFault? path with
  | some fault => .error fault
  | none => (disk.walk .start (names path)).map (·.place)

def isDirectory (disk : Disk) (path : String) : Bool :=
  match disk.resolve path with
  | .ok place => disk.isDirectoryAt place
  | .error _ => false

/-- The names of a path without those behind its last slashes, last first. -/
def namesBackward (path : String) : List String := (names path).reverse.dropWhile (· = "")

/-- Follows names that must lead to a directory. -/
def walkToDirectory (disk : Disk) (cursor : Cursor) (names : List String) :
    Except SystemFault Cursor :=
  match disk.walk cursor names with
  | .ok stop => if disk.isDirectoryAt stop.place then .ok stop else .error .notDirectory
  | .error fault => .error fault

theorem links_le_of_walkToDirectory {disk : Disk} {start stop : Cursor} {names : List String}
    (h : disk.walkToDirectory start names = .ok stop) : stop.links ≤ start.links := by
  unfold walkToDirectory at h
  split at h
  · next arrived walked =>
    split at h
    · cases h
      exact links_le_of_walk walked
    · cases h
  · cases h

/-! ## Directories -/

def makeDirectory (disk : Disk) (path : String) : Except SystemFault Disk := do
  if let some fault := pathFault? path then throw fault
  match namesBackward path with
  | [] => throw .alreadyExists
  | name :: above =>
    let ⟨parent, _⟩ ← disk.walkToDirectory .start above.reverse
    if name = "." ∨ name = ".." then throw .alreadyExists
    if maxName < name.utf8ByteSize then throw .nameTooLong
    match disk.entry? (name :: parent) with
    | some _ => throw .alreadyExists
    | none => return disk.put (name :: parent) .directory

/-- Names written as a path. -/
def pathOf (names : List String) : String :=
  String.ofList (Text.join ['/'] (names.map (·.toList)))

/-- The paths of the directories above a list of names, last first, from the innermost outwards. -/
def ancestors : List String → List String
  | [] => []
  | name :: above =>
    if staysPut name then ancestors above else pathOf (name :: above).reverse :: ancestors above

/-- The path of the directory that holds what a path names; nothing if it is the starting point. -/
def parentOf (path : String) : String :=
  pathOf ((((names path).reverse.dropWhile staysPut).drop 1).dropWhile staysPut).reverse

/--
Makes the first of the directories, those further out first where they are missing. What was made
before a fault stays.
-/
def makeAll (disk : Disk) : List String → Except SystemFault Unit × Disk
  | [] => (.ok (), disk)
  | path :: outer =>
    match disk.makeDirectory path with
    | .ok disk => (.ok (), disk)
    | .error fault =>
      if fault = .notFound then
        match disk.makeAll outer with
        | (.error fault, disk) => (.error fault, disk)
        | (.ok _, disk) =>
          match disk.makeDirectory path with
          | .ok disk => (.ok (), disk)
          | .error fault => (if disk.isDirectory path then .ok () else .error fault, disk)
      else (if disk.isDirectory path then .ok () else .error fault, disk)

/-- Makes a directory and all above it that are missing. -/
def makeDirectories (disk : Disk) (path : String) : Except SystemFault Unit × Disk :=
  disk.makeAll (ancestors (names path).reverse)

/-! ## Files -/

/-- Whether a path ends in a slash, and so cannot name a file. -/
def endsInSlash (path : String) : Bool := path.toList.getLast? = some '/'

/--
Writes a file that a path leads to from where the cursor stands. A last link is followed even if it
leads to nothing, and counts with those on the way to it.
-/
def writeFrom (disk : Disk) (cursor : Cursor) (path : String) (bytes : ByteArray) :
    Except SystemFault Disk :=
  match namesBackward path with
  | [] => .error .isDirectory
  | name :: above =>
    match h : disk.walkToDirectory cursor above.reverse with
    | .error fault => .error fault
    | .ok ⟨parent, links⟩ =>
      if endsInSlash path ∨ name = "." ∨ name = ".." then .error .isDirectory
      else if maxName < name.utf8ByteSize then .error .nameTooLong
      else
        match disk.entry? (name :: parent) with
        | some .directory => .error .isDirectory
        | some (.link target) =>
          match links with
          | 0 => .error .tooManyLinks
          | links + 1 =>
            have : links < cursor.links := links_le_of_walkToDirectory h
            disk.writeFrom ⟨startOf target parent, links⟩ target bytes
        | _ => .ok (disk.put (name :: parent) (.file bytes))
termination_by cursor.links

/-- Writes a file in place of what it held before. -/
def writeFile (disk : Disk) (path : String) (bytes : ByteArray) : Except SystemFault Disk :=
  match pathFault? path with
  | some fault => .error fault
  | none => disk.writeFrom .start path bytes

/-- Makes a link, unless its path names something. -/
def makeLink (disk : Disk) (path target : String) : Except SystemFault Disk := do
  match namesBackward path with
  | [] => throw .alreadyExists
  | name :: above =>
    let ⟨parent, _⟩ ← disk.walkToDirectory .start above.reverse
    match disk.entry? (name :: parent) with
    | some _ => throw .alreadyExists
    | none => return disk.put (name :: parent) (.link target)

/-- The names from a place to one that lies below it, outermost first. -/
def below? (top place : Place) : Option (List String) :=
  if top.isSuffixOf place then some (place.take (place.length - top.length)).reverse else none

/-- The directories below a place, by the names that lead from it to them. -/
def directoriesBelow (disk : Disk) (top : Place) : List (List String) :=
  disk.entries.toList.filterMap fun
    | (place, .directory) => below? top place
    | _ => none

/-- The regular files below a place, with the names that lead from it to them. -/
def filesBelow (disk : Disk) (top : Place) : List (List String × ByteArray) :=
  disk.entries.toList.filterMap fun
    | (place, .file bytes) => (below? top place).map (·, bytes)
    | _ => none

end Disk

end ConfigRecovery
