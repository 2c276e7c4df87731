/-!
# Faults of JSON text

A `Stop` is a fault found while text was read from the front; it counts the bytes that were still
ahead. `Stop.locate` turns it into a line and a column of the whole text.
-/

namespace ConfigRecovery.Json

inductive Fault where
  | endInValue | endInList | endInObject | endInString
  | expectedValue | expectedWord | expectedColon | expectedInList | expectedInObject
  | keyNotString | trailingComma | trailingCharacters
  | invalidNumber | numberOutOfRange
  | invalidEscape | loneSurrogate | missingSurrogate | controlCharacter
  | tooDeep
deriving Repr, DecidableEq

def Fault.message : Fault → String
  | .endInValue => "EOF while parsing a value"
  | .endInList => "EOF while parsing a list"
  | .endInObject => "EOF while parsing an object"
  | .endInString => "EOF while parsing a string"
  | .expectedValue => "expected value"
  | .expectedWord => "expected ident"
  | .expectedColon => "expected `:`"
  | .expectedInList => "expected `,` or `]`"
  | .expectedInObject => "expected `,` or `\x7d`"
  | .keyNotString => "key must be a string"
  | .trailingComma => "trailing comma"
  | .trailingCharacters => "trailing characters"
  | .invalidNumber => "invalid number"
  | .numberOutOfRange => "number out of range"
  | .invalidEscape => "invalid escape"
  | .loneSurrogate => "lone leading surrogate in hex escape"
  | .missingSurrogate => "unexpected end of hex escape"
  | .controlCharacter => "control character (\\u0000-\\u001F) found while parsing a string"
  | .tooDeep => "recursion limit exceeded"

/-- A fault and where the text shows it. -/
structure SyntaxError where
  fault : Fault
  /-- The line, counted from one -/
  line : Nat
  /-- The number of bytes of the line up to and with the faulty one -/
  column : Nat
deriving Repr, DecidableEq

def SyntaxError.message (error : SyntaxError) : String :=
  error.fault.message ++ " at line " ++ toString error.line ++ " column " ++ toString error.column

def byteLength (text : List Char) : Nat := text.foldl (fun n c => n + c.utf8Size) 0

/-- A fault and the number of bytes behind the faulty one. -/
structure Stop where
  fault : Fault
  /-- The bytes not looked at -/
  ahead : Nat
deriving Repr, DecidableEq

/-- A fault of the first byte of what is left of the text, or of its end. -/
def Stop.at (fault : Fault) (rest : List Char) : Stop := ⟨fault, byteLength rest - 1⟩

/-- A fault of the byte just before what is left of the text. -/
def Stop.before (fault : Fault) (rest : List Char) : Stop := ⟨fault, byteLength rest⟩

/-- Line and column after a number of bytes, from the line and column at the start. -/
def position (line column : Nat) : List Char → Nat → Nat × Nat
  | [], _ => (line, column)
  | c :: rest, bytes =>
    if bytes = 0 then (line, column)
    else if c = '\n' then position (line + 1) 0 rest (bytes - 1)
    else position line (column + min bytes c.utf8Size) rest (bytes - c.utf8Size)

/-- The place of a fault in the whole text. -/
def Stop.locate (stop : Stop) (text : List Char) : SyntaxError :=
  let (line, column) := position 1 0 text (byteLength text - stop.ahead)
  ⟨stop.fault, line, column⟩

end ConfigRecovery.Json
