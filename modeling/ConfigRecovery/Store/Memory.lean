import ConfigRecovery.Json.Reader
import ConfigRecovery.Store.OutputTree
import Std.Data.ExtTreeMap

/-!
# Files in memory

A tree in memory is a map from paths to bytes. It takes any path as it is and never refuses.
-/

namespace ConfigRecovery

structure MemoryTree where
  contents : Std.ExtTreeMap String ByteArray

namespace MemoryTree

def empty : MemoryTree := ⟨∅⟩

def insert (tree : MemoryTree) (path : String) (bytes : ByteArray) : MemoryTree :=
  ⟨tree.contents.insert path bytes⟩

def get? (tree : MemoryTree) (path : String) : Option ByteArray := tree.contents[path]?

/-- The bytes of a file as text, if they are one. -/
def text? (tree : MemoryTree) (path : String) : Option String := do
  String.fromUTF8? (← tree.get? path)

/-- The value that a file holds as text, if it holds one. -/
def json? (tree : MemoryTree) (path : String) : Option Json.Value := do
  Json.Value.ofBytes? (← tree.get? path)

def size (tree : MemoryTree) : Nat := tree.contents.size

def paths (tree : MemoryTree) : List String := tree.contents.keys

def files (tree : MemoryTree) : List File := tree.contents.toList

instance : OutputTree MemoryTree where
  write path content := modify fun tree => tree.insert path content.encode
  files tree := .ok tree.files

end MemoryTree

end ConfigRecovery
