import ConfigRecovery.Json.Token

/-!
# Reading JSON text

The reader takes one token after the other. Its state says what is expected next and which
containers are still open; `step` is the grammar, `finish` the end of the text, and `ofText` gives
the value of a whole text or the place of its first fault.
-/

namespace ConfigRecovery.Json

namespace Reader

inductive Frame where
  /-- A list with its items so far, last first -/
  | list (items : List Value)
  /-- An object with its fields so far and the key of the value -/
  | object (fields : Fields Value) (key : String)

/-- What the grammar expects next, inside the open containers, innermost first. -/
inductive State where
  | value (stack : List Frame)
  /-- The first item of a list, or its end -/
  | firstItem (stack : List Frame)
  /-- An item of a list behind a comma -/
  | nextItem (items : List Value) (stack : List Frame)
  /-- The first key of an object, or its end -/
  | firstKey (stack : List Frame)
  /-- A key of an object behind a comma -/
  | nextKey (fields : Fields Value) (stack : List Frame)
  /-- The colon behind a key -/
  | colon (fields : Fields Value) (key : String) (stack : List Frame)
  /-- What may follow a complete value -/
  | after (value : Value) (stack : List Frame)

/-- The number of containers that may be open at a time. -/
def maxDepth : Nat := 127

/-- Opens a container, unless too many are open. -/
def deeper (stack : List Frame) (token : Token) (state : State) : Except Stop State :=
  if stack.length < maxDepth then .ok state else .error (.at .tooDeep token.source)

/-- Takes the token that starts a value. -/
def startValue (stack : List Frame) (token : Token) : Except Stop State :=
  match token.lexeme with
  | .openList => deeper stack token (.firstItem stack)
  | .openObject => deeper stack token (.firstKey stack)
  | .string text => .ok (.after (.string text) stack)
  | .scalar value => .ok (.after value stack)
  | .badString stop | .badScalar stop => .error stop
  | .closeList | .closeObject | .comma | .colon | .stray =>
    .error (.at .expectedValue token.source)

/-- Takes the token that must be a key. -/
def startKey (fields : Fields Value) (stack : List Frame) (token : Token) : Except Stop State :=
  match token.lexeme with
  | .string key => .ok (.colon fields key stack)
  | .badString stop => .error stop
  | _ => .error (.at .keyNotString token.source)

/-- Takes the token behind a complete value. -/
def afterValue (value : Value) (token : Token) : List Frame → Except Stop State
  | [] => .error (.at .trailingCharacters token.source)
  | .list items :: stack =>
    match token.lexeme with
    | .comma => .ok (.nextItem (value :: items) stack)
    | .closeList => .ok (.after (.array (value :: items).reverse) stack)
    | _ => .error (.at .expectedInList token.source)
  | .object fields key :: stack =>
    match token.lexeme with
    | .comma => .ok (.nextKey (Fields.insert fields key value) stack)
    | .closeObject => .ok (.after (.object (Fields.insert fields key value)) stack)
    | _ => .error (.at .expectedInObject token.source)

def step (state : State) (token : Token) : Except Stop State :=
  match state with
  | .value stack => startValue stack token
  | .firstItem stack =>
    match token.lexeme with
    | .closeList => .ok (.after (.array []) stack)
    | _ => startValue (.list [] :: stack) token
  | .nextItem items stack =>
    match token.lexeme with
    | .closeList => .error (.at .trailingComma token.source)
    | _ => startValue (.list items :: stack) token
  | .firstKey stack =>
    match token.lexeme with
    | .closeObject => .ok (.after (.object []) stack)
    | _ => startKey [] stack token
  | .nextKey fields stack =>
    match token.lexeme with
    | .closeObject => .error (.at .trailingComma token.source)
    | _ => startKey fields stack token
  | .colon fields key stack =>
    match token.lexeme with
    | .colon => .ok (.value (.object fields key :: stack))
    | _ => .error (.at .expectedColon token.source)
  | .after value stack => afterValue value token stack

/-- The value of a text that ends in a state, or what is missing. -/
def finish : State → Except Stop Value
  | .after value [] => .ok value
  | .after _ (.list _ :: _) | .firstItem _ => .error (.at .endInList [])
  | .after _ (.object _ _ :: _) | .firstKey _ | .colon _ _ _ => .error (.at .endInObject [])
  | .value _ | .nextItem _ _ | .nextKey _ _ => .error (.at .endInValue [])

def read (text : List Char) : Except Stop Value := do
  finish (← (Token.scan text).foldlM step (.value []))

end Reader

namespace Value

/-- The value of a text, or the place of its first fault. -/
def ofText (text : String) : Except SyntaxError Value :=
  (Reader.read text.toList).mapError fun stop => stop.locate text.toList

/-- The value of a file's bytes, if they are the text of one. -/
def ofBytes? (bytes : ByteArray) : Option Value := do
  (ofText (← String.fromUTF8? bytes)).toOption

end Value

end ConfigRecovery.Json
