import ConfigRecovery.Path.Basic
import ConfigRecovery.Store.OutputTree

/-!
# Writing every path once

A sink stands before an output tree and lets the first write of every canonical path through. A
path counts as written from the moment it is handed to the tree, whether or not the tree takes it.
-/

namespace ConfigRecovery

/-- A tree with the canonical paths that were handed to it. -/
structure Sink (τ : Type) where
  tree : τ
  /-- The paths handed to it, last first -/
  written : List String := []

namespace Sink

variable {τ : Type}

/-- Whether a path was handed to the tree, in whatever spelling. -/
def isWritten (sink : Sink τ) (path : String) : Bool := Path.canonical path ∈ sink.written

def count (sink : Sink τ) : Nat := sink.written.length

/-- Hands a file to the tree unless its path was before; the answer is whether it was handed on. -/
def save [OutputTree τ] (path : String) (content : Content) : EStateM Failure (Sink τ) Bool :=
  fun sink =>
    let name := Path.canonical path
    if name ∈ sink.written then .ok false sink
    else
      match OutputTree.write name content sink.tree with
      | .ok _ tree => .ok true ⟨tree, name :: sink.written⟩
      | .error failure tree => .error failure ⟨tree, name :: sink.written⟩

end Sink

end ConfigRecovery
