import ConfigRecovery.Bundle.Registry
import ConfigRecovery.Package.PageTable
import ConfigRecovery.Store.Sink

/-!
# Merging configurations

The configurations of the bundle are written first, in the order in which they come, and then the
windows of the page table in the order of their keys. The sink lets the first of each file through,
so the bundle's text wins over the window of the same page.
-/

namespace ConfigRecovery

abbrev Draft := String × Content

def literalDrafts (literals : List Literal) : List Draft :=
  literals.map fun literal => (Path.configFile literal.path, .text literal.source)

def windowDrafts (table : PageTable) : List Draft :=
  table.toList.map fun (key, window) => (key.configFile, .json (.object window))

/-- How many configurations were written, and how many came too late. -/
structure MergeCounts where
  /-- Configurations of the bundle that were written -/
  streamed : Nat := 0
  /-- Windows that were written -/
  fallback : Nat := 0
  /-- Files that were written before -/
  skipped : Nat := 0
deriving Repr, DecidableEq

variable {τ : Type} [OutputTree τ]

/-- Saves all files in order and counts those handed to the tree and those skipped. -/
def saveAll : List Draft → EStateM Failure (Sink τ) (Nat × Nat)
  | [] => pure (0, 0)
  | (path, content) :: drafts => do
    let isNew ← Sink.save path content
    let (saved, skipped) ← saveAll drafts
    return if isNew then (saved + 1, skipped) else (saved, skipped + 1)

/-- Writes the configurations of a bundle, and then the windows of all pages that had none. -/
def merge (table : PageTable) (literals : List Literal) :
    EStateM Failure (Sink τ) MergeCounts := do
  let (streamed, late) ← saveAll (literalDrafts literals)
  let (fallback, covered) ← saveAll (windowDrafts table)
  return ⟨streamed, fallback, late + covered⟩

end ConfigRecovery
