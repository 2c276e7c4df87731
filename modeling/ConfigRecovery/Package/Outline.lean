import ConfigRecovery.Package.EntryPage
import ConfigRecovery.Package.Extension
import ConfigRecovery.Package.Subpackage

/-!
# The outline of a package

The outline is what the manifest says before anything is written: the pages with the entry page in
front, dealt out to the subpackages, the fields for all pages, and the file of the extension
platform.
-/

namespace ConfigRecovery

/-- What the manifest says before anything is written. -/
structure Outline where
  /-- The pages of the root package, the entry page first -/
  pages : List String
  /-- The fields that are spread over the application's file -/
  global : Option Json.Value
  subpackages : Option Json.Value
  subpackageCount : Nat
  /-- The content of the extension's file -/
  extension : Option Json.Value
  /-- The fields not taken yet -/
  rest : Manifest

namespace Outline

/-- Deals out pages to the subpackages, which must be a list if they are there. -/
def dealPages (pages : List String) :
    Option Json.Value → Except Failure (List String × Option Json.Value × Nat)
  | none => .ok (pages, none, 0)
  | some (.array descriptors) => do
    let dealt := Subpackage.partition pages descriptors
    let subpackages ← dealt.result
    return (dealt.pages, some (.array dealt.descriptors), subpackages.length)
  | some _ => .error (.malformed (.named "subPackages") .subpackagesNotArray)

/-- Puts the entry page first, if there is one. -/
def orderPages (pages : List String) : Option String → List String
  | none => pages
  | some entry => (moveEntryFirst pages entry).2

/-- Takes the fields of the outline from a manifest. -/
def ofManifest (m : Manifest) : Except Failure Outline := do
  let (entry, m) := m.takeString "entryPagePath"
  let entry ← entry
  let (listed, m) := m.takeStrings "pages"
  let some listed ← listed | throw (.malformed (.named "pages") .missingPageList)
  let (global, m) := m.take "global"
  let (declared, m) := m.take "subPackages"
  let (pages, subpackages, subpackageCount) ← dealPages (orderPages listed entry) declared
  let (id, m) := m.take "extAppid"
  let (extension, m) := m.take "ext"
  return {
    pages, global, subpackages, subpackageCount
    extension := extensionBody id extension
    rest := m }

end Outline

end ConfigRecovery
