import ConfigRecovery.Json.Value

/-!
# The application's file

The file holds what was never taken from the manifest, then the tab bar and the subpackages, then
the fields for all pages, and the page list. A field that is there already keeps its place and gets
the new value.
-/

namespace ConfigRecovery.AppFile

/-- Sets a field if there is a value for it. -/
def setOptional (fields : Fields Json.Value) (key : String) :
    Option Json.Value → Fields Json.Value
  | none => fields
  | some value => Fields.insert fields key value

/-- Sets the fields of a value if it is an object. -/
def spread (fields : Fields Json.Value) : Option Json.Value → Fields Json.Value
  | some (.object more) => Fields.extend fields more
  | _ => fields

def fields (rest : Fields Json.Value) (tabBar subpackages global : Option Json.Value)
    (pages : List String) : Fields Json.Value :=
  let fields := setOptional rest "tabBar" tabBar
  let fields := setOptional fields "subPackages" subpackages
  let fields := spread fields global
  Fields.insert fields "pages" (.strings pages)

end ConfigRecovery.AppFile
