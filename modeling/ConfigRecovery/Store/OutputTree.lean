import ConfigRecovery.Failure
import ConfigRecovery.Store.Content

/-!
# Output trees

An output tree is where recovered files go. A tree whose writes can be refused is one of them too,
so that what a failure leaves behind can be stated.
-/

namespace ConfigRecovery

/-- A place for files. A write that fails may leave traces, so there is a tree after it as well. -/
class OutputTree (τ : Type) where
  /-- Writes one file in place of what the path held before -/
  write : String → Content → EStateM Failure τ Unit
  files : τ → Except Failure (List File)

/-- A tree that refuses to write some paths, and may refuse to list its files. -/
structure Refusing (τ : Type) where
  tree : τ
  refused : List String := []
  /-- Why the files cannot be listed, if they cannot -/
  listingFault : Option String := none

namespace Refusing

variable {τ : Type} [OutputTree τ]

def write (path : String) (content : Content) : EStateM Failure (Refusing τ) Unit := fun tree =>
  if path ∈ tree.refused then .error (.fileWrite path (.custom "refused")) tree
  else
    match OutputTree.write path content tree.tree with
    | .ok done inner => .ok done { tree with tree := inner }
    | .error failure inner => .error failure { tree with tree := inner }

def files (tree : Refusing τ) : Except Failure (List File) :=
  match tree.listingFault with
  | some text => .error (.internal text)
  | none => OutputTree.files tree.tree

instance : OutputTree (Refusing τ) := ⟨write, files⟩

end Refusing

end ConfigRecovery
