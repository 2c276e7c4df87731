import ConfigRecovery.Package.AppFile
import ConfigRecovery.Package.Outline
import ConfigRecovery.Package.TabBar
import ConfigRecovery.Package.Usage
import ConfigRecovery.Recovery.Merge

/-!
# Recovery of a package

A recovery runs once over one package. It writes the file of the extension platform and the file of
the application from the manifest, and then merges the configurations of the service bundle with
the page table. A game has only its manifest, which is written back as it is. What was written
before a failure stays written.
-/

namespace ConfigRecovery

variable {τ : Type} [OutputTree τ]

/-- A result as a step that leaves the state alone. -/
def ofResult {σ α : Type} : Except Failure α → EStateM Failure σ α
  | .ok value => pure value
  | .error failure => throw failure

structure Summary where
  isGame : Bool := false
  /-- The number of pages in the root package -/
  pages : Nat := 0
  subpackages : Nat := 0
  extensionWritten : Bool := false
  icons : TabBar.Counts := {}
  components : UsageCounts := {}
  merge : MergeCounts := {}
deriving Repr, DecidableEq

/-! ## The application -/

/-- Writes the file of the extension platform if there is one; the answer is whether it is new. -/
def writeExtension (settings : Settings) : Option Json.Value → EStateM Failure (Sink τ) Bool
  | none => pure false
  | some body => Sink.save settings.extFile (.json body)

/-- Refers the icons of a tab bar to files written so far. Only a tab bar with items looks at them. -/
def linkTabBar (settings : Settings) :
    Option Json.Value → EStateM Failure (Sink τ) (Option Json.Value × TabBar.Counts)
  | none => pure (none, {})
  | some tabBar =>
    match TabBar.items? tabBar with
    | none => pure (some tabBar, {})
    | some _ => do
      let files ← ofResult (OutputTree.files (← get).tree)
      let (linked, counts) := TabBar.link (ContentIndex.ofFiles settings files) tabBar
      return (some linked, counts)

/-- The page table of a manifest; no pages are an empty one. -/
def pageTable : Option Json.Value → Except Failure PageTable
  | none => .ok .empty
  | some pages => PageTable.ofValue pages

/-- The file of the application before it is saved, and what was found on the way to it. -/
structure Assembly where
  /-- The content of the extension's file -/
  extension : Option Json.Value
  /-- The fields of the application's file -/
  app : Fields Json.Value
  /-- The windows of all pages and components -/
  table : PageTable
  summary : Summary

/-- Writes the file of the extension platform and puts the file of the application together. -/
def assemble (settings : Settings) (source : String) : EStateM Failure (Sink τ) Assembly := do
  let manifest ← ofResult (Manifest.ofSource source settings.policy)
  let outline ← ofResult (Outline.ofManifest manifest)
  let extensionWritten ← writeExtension settings outline.extension
  let (tabBar, rest) := outline.rest.take "tabBar"
  let (tabBar, icons) ← linkTabBar settings tabBar
  let (pages, rest) := rest.take "page"
  let table ← ofResult (pageTable pages)
  let (_, rest) := rest.take "renderer"
  let (table, components) := table.markComponents
  return {
    extension := outline.extension
    app := AppFile.fields rest.fields tabBar outline.subpackages outline.global outline.pages
    table
    summary := {
      pages := outline.pages.length
      subpackages := outline.subpackageCount
      extensionWritten, icons, components } }

/-- Writes the files of the application and gives its page table. -/
def writeApp (settings : Settings) (source : String) :
    EStateM Failure (Sink τ) (PageTable × Summary) := do
  let assembly ← assemble settings source
  let _ ← Sink.save settings.appFile (.json (.object assembly.app))
  return (assembly.table, assembly.summary)

/-! ## Games -/

/-- The number of subpackages that a game's manifest declares. -/
def declaredSubpackages (manifest : Json.Value) : Nat :=
  match manifest.field? "subPackages" with
  | some (.array subpackages) => subpackages.length
  | _ => 0

/-- Writes the manifest of a game as it is. -/
def writeGame (settings : Settings) (source : String) : EStateM Failure (Sink τ) Summary := do
  let manifest ← ofResult (Json.Value.ofSource source)
  let _ ← Sink.save settings.gameFile (.text source)
  return { isGame := true, subpackages := declaredSubpackages manifest }

/-! ## Runs -/

inductive Stage where
  | idle | done | failed
deriving Repr, DecidableEq

/-- Where the configurations of the bundle come from. -/
inductive LiteralSource where
  /-- They are given -/
  | stream (literals : List Literal)
  /-- They are found in the bundle's program -/
  | program (reader : ProgramReader)

def LiteralSource.literals (source : LiteralSource) (registry service : String) :
    Except Failure (List Literal) :=
  match source with
  | .stream literals => .ok literals
  | .program reader => reader.literals registry service

structure Recovery where
  settings : Settings := {}
  manifest : Option String := none
  service : Option String := none
  isGame : Bool := false
  stage : Stage := .idle

namespace Recovery

def setManifest (recovery : Recovery) (text : String) : Recovery :=
  { recovery with manifest := some text }

def setService (recovery : Recovery) (text : String) : Recovery :=
  { recovery with service := some text }

def setGame (recovery : Recovery) (isGame : Bool) : Recovery := { recovery with isGame }

/-- The text of the bundle, which must not be empty. -/
def requireService : Option String → Except Failure String
  | none => .error .missingService
  | some service => if service = "" then .error .missingService else .ok service

def work (recovery : Recovery) (source : LiteralSource) : EStateM Failure (Sink τ) Summary :=
  match recovery.manifest with
  | none => throw .missingManifest
  | some manifest =>
    if recovery.isGame then writeGame recovery.settings manifest
    else do
      let (table, summary) ← writeApp recovery.settings manifest
      let service ← ofResult (requireService recovery.service)
      let literals ← ofResult (source.literals recovery.settings.registry service)
      let counts ← merge table literals
      return { summary with merge := counts }

structure Outcome (τ : Type) where
  /-- The summary, or why there is none -/
  result : Except Failure Summary
  recovery : Recovery
  sink : Sink τ

/-- Runs a recovery that has not run yet. -/
def run (recovery : Recovery) (source : LiteralSource) (sink : Sink τ) : Outcome τ :=
  if recovery.stage ≠ .idle then ⟨.error .alreadyRun, recovery, sink⟩
  else
    match recovery.work source sink with
    | .ok summary sink => ⟨.ok summary, { recovery with stage := .done }, sink⟩
    | .error failure sink => ⟨.error failure.abort, { recovery with stage := .failed }, sink⟩

end Recovery

end ConfigRecovery
