import ConfigRecovery.Json.Value

/-!
# Settings of a recovery

Which values of the manifest count as present, how the service bundle names its registry, which
files cannot be icons, and where the output goes.
-/

namespace ConfigRecovery

inductive Policy where
  /-- All but the falsy ones -/
  | truthy
  /-- All but `null` -/
  | presence
deriving Repr, DecidableEq

def Policy.accepts (policy : Policy) (value : Json.Value) : Bool :=
  match policy with
  | .truthy => value.isTruthy
  | .presence => value.kind ≠ .null

structure Settings where
  /-- Which values of the manifest count as present -/
  policy : Policy := .truthy
  /-- The identifier to whose members the bundle assigns configurations -/
  registry : String := "__wxAppCode__"
  /-- Extensions of files that are never icons -/
  ignoredExtensions : List String := ["wxml", "wxs", "wxss", "html", "json"]
  appFile : String := "app.json"
  gameFile : String := "game.json"
  extFile : String := "ext.json"
deriving Repr

/-- Equality of texts up to the case of ASCII letters. -/
def equalIgnoringCase (a b : String) : Bool :=
  a.toList.map Char.toLower = b.toList.map Char.toLower

/-- Whether files with an extension are never icons. -/
def Settings.ignores (settings : Settings) (extension : String) : Bool :=
  settings.ignoredExtensions.any fun ignored => equalIgnoringCase ignored extension

end ConfigRecovery
