import ConfigRecovery.Json.Printer

/-!
# Files and what is written to them
-/

namespace ConfigRecovery

abbrev File := String × ByteArray

/-- The content of a file before it is turned into bytes. -/
inductive Content where
  | text (text : String)
  /-- A value, which is written as text with an item a line -/
  | json (value : Json.Value)
  | bytes (bytes : ByteArray)

def Content.encode : Content → ByteArray
  | .text s => s.toUTF8
  | .json v => v.pretty.toUTF8
  | .bytes b => b

end ConfigRecovery
