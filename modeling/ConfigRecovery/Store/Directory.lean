import ConfigRecovery.Store.Disk
import ConfigRecovery.Store.OutputTree

/-!
# Files below a directory

A directory tree writes below its root and refuses every path that could leave it: the empty path,
a path from the top, and one that goes up anywhere. Directories are made as they are needed, and a
listing walks over all of them.
-/

namespace ConfigRecovery

/-- A part of a path as the system reads it. -/
inductive Component where
  /-- The top, in front of a path that starts there -/
  | top
  /-- The place where a path starts, if a dot in front spells it out -/
  | here
  | up
  | name (text : String)
deriving Repr, DecidableEq

/-- Whether a component can lead to a place that does not lie below the starting point. -/
def Component.leaves : Component → Bool
  | .top | .up => true
  | .here | .name _ => false

namespace Disk

/-- The component that a name between slashes stands for, if it is not passed over. -/
def component? (name : String) : Option Component :=
  if staysPut name then none else if name = ".." then some .up else some (.name name)

/-- Where a path starts, as far as its text says so. -/
def lead (path : String) : List Component :=
  if path.toList.head? = some '/' then [.top]
  else if (names path).head? = some "." then [.here]
  else []

/-- The components of a path. Doubled and last slashes add none, nor does a dot but in front. -/
def components (path : String) : List Component :=
  lead path ++ (names path).filterMap component?

end Disk

structure DirectoryTree where
  /-- The path of the directory, which need not be there yet -/
  root : String
  disk : Disk

namespace DirectoryTree

/-- Whether a path could leave the directory, or names nothing in it. -/
def escapes (path : String) : Bool := path = "" || (Disk.components path).any Component.leaves

def target (root path : String) : String :=
  if root = "" ∨ root.toList.getLast? = some '/' then root ++ path else root ++ "/" ++ path

/-- The path on the disk of a path below the root. -/
def resolve (tree : DirectoryTree) (path : String) : Except Failure String :=
  if escapes path then .error (.traversal path) else .ok (target tree.root path)

/-- Writes a file below the root and makes the directories above it. -/
def write (path : String) (content : Content) : EStateM Failure DirectoryTree Unit := fun tree =>
  match tree.resolve path with
  | .error failure => .error failure tree
  | .ok file =>
    match tree.disk.makeDirectories (Disk.parentOf file) with
    | (.error fault, disk) =>
      .error (.directoryCreate (Disk.parentOf file) fault) { tree with disk := disk }
    | (.ok _, disk) =>
      match disk.writeFile file content.encode with
      | .error fault => .error (.fileWrite file fault) { tree with disk := disk }
      | .ok disk => .ok () { tree with disk := disk }

/-! ## Listing -/

/-- The path of what names lead to below a root. -/
def pathBelow (root : String) (names : List String) : String := target root (Disk.pathOf names)

/-- Comes to what names lead to below a root. A fault of its path is blamed on the path. -/
def reach (root : String) (blame : String → SystemFault → Failure) (names : List String) :
    Except Failure Unit :=
  match Disk.pathFault? (pathBelow root names) with
  | some fault => .error (blame (pathBelow root names) fault)
  | none => .ok ()

/-- Opens a directory below a root, given from the innermost name on, after those above it. -/
def openBelow (root : String) : Place → Except Failure Unit
  | [] => .ok ()
  | name :: above => do
    openBelow root above
    reach root .walk (name :: above).reverse

/-- Reads a file below a root. -/
def readBelow (root : String) (names : List String) (bytes : ByteArray) : Except Failure File := do
  reach root .fileRead names
  return (Disk.pathOf names, bytes)

/--
The regular files below the root; links are not followed, and no root has no files. Of several
faults it is up to the system which one the walk meets; here the directories are opened before the
files are read.
-/
def files (tree : DirectoryTree) : Except Failure (List File) :=
  match tree.disk.resolve tree.root with
  | .error _ => .ok []
  | .ok top =>
    if tree.disk.isDirectoryAt top then do
      (tree.disk.directoriesBelow top).forM fun names => openBelow tree.root names.reverse
      (tree.disk.filesBelow top).mapM fun (names, bytes) => readBelow tree.root names bytes
    else .ok []

instance : OutputTree DirectoryTree := ⟨write, files⟩

end DirectoryTree

end ConfigRecovery
