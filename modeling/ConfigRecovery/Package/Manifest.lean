import ConfigRecovery.Failure
import ConfigRecovery.Json.Reader
import ConfigRecovery.Settings

/-!
# The manifest of a package

A package carries one object that describes the whole application. A `Manifest` is a working copy
of it from which fields are taken one at a time; what is never taken passes through in its
former order. A field that is taken is gone, whether or not its value counts as present.
-/

namespace ConfigRecovery

structure Manifest where
  fields : Fields Json.Value
  /-- Which values count as present -/
  policy : Policy

def Json.Value.ofSource (source : String) : Except Failure Json.Value :=
  (ofText source).mapError .invalidJson

namespace Manifest

/-- Reads a manifest, which must be an object. -/
def ofSource (source : String) (policy : Policy) : Except Failure Manifest := do
  match ← Json.Value.ofSource source with
  | .object fields => return ⟨fields, policy⟩
  | other => throw (.malformed .root (.unexpected .object other.kind))

/-- The stored value of a field, present or not. -/
def get? (m : Manifest) (key : String) : Option Json.Value := m.fields.get? key

/-- Whether a field was there and not taken yet. -/
def contains (m : Manifest) (key : String) : Bool := m.fields.contains key

/-- Removes a field and gives its value if that counts as present. -/
def take (m : Manifest) (key : String) : Option Json.Value × Manifest :=
  ((m.get? key).filter m.policy.accepts, { m with fields := m.fields.erase key })

/-- Removes a field and gives its value, or the default in place of an absent one. -/
def takeOr (m : Manifest) (key : String) (default : Json.Value) : Json.Value × Manifest :=
  ((m.take key).1.getD default, (m.take key).2)

/-- The text of a value that must be one. -/
def asString (field : Field) : Json.Value → Except Failure String
  | .string text => .ok text
  | other => .error (.malformed field (.unexpected .string other.kind))

/-- The items of a list that must be texts. -/
def asStrings (field : Field) (items : List Json.Value) : Except Failure (List String) :=
  items.mapM fun
    | .string text => .ok text
    | other => .error (.malformed field (.unexpected .strings other.kind))

/-- The texts of a value that must be a list of them. -/
def asStringList (field : Field) : Json.Value → Except Failure (List String)
  | .array items => asStrings field items
  | other => .error (.malformed field (.unexpected .array other.kind))

/-- Removes a field that must be a text. -/
def takeString (m : Manifest) (key : String) : Except Failure (Option String) × Manifest :=
  ((m.take key).1.mapM (asString (.named key)), (m.take key).2)

/-- Removes a field that must be a list of texts. -/
def takeStrings (m : Manifest) (key : String) :
    Except Failure (Option (List String)) × Manifest :=
  ((m.take key).1.mapM (asStringList (.named key)), (m.take key).2)

end Manifest

end ConfigRecovery
