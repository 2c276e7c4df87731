import ConfigRecovery.Json.Fields

/-!
# JSON values

An object keeps its fields in order of insertion. Numbers are integers of 64 bits or doubles, and
the two are told apart: `1` and `1.0` are different values.
-/

namespace ConfigRecovery.Json

inductive Number where
  | int (value : Int)
  | float (value : Float)
deriving Repr, Inhabited

/-- Zero of either kind and either sign. -/
def Number.isZero : Number → Bool
  | .int value => value = 0
  | .float value => value == 0.0

inductive Value where
  | null
  | bool (value : Bool)
  | number (value : Number)
  | string (text : String)
  | array (items : List Value)
  | object (fields : List (String × Value))
deriving Repr, Inhabited

/-- The sorts of values that a message can name. -/
inductive Kind where
  | null | boolean | number | string | array | object
deriving Repr, DecidableEq

def Kind.name : Kind → String
  | .null => "null"
  | .boolean => "boolean"
  | .number => "number"
  | .string => "string"
  | .array => "array"
  | .object => "object"

namespace Value

def kind : Value → Kind
  | .null => .null
  | .bool _ => .boolean
  | .number _ => .number
  | .string _ => .string
  | .array _ => .array
  | .object _ => .object

/-- Falsy are `null`, `false`, zero and the empty text; arrays and objects never are. -/
def isTruthy : Value → Bool
  | .null => false
  | .bool b => b
  | .number n => !n.isZero
  | .string s => s ≠ ""
  | .array _ => true
  | .object _ => true

/-- A field of an object; other values have none. -/
def field? (value : Value) (key : String) : Option Value :=
  match value with
  | .object fields => Fields.get? fields key
  | _ => none

def strings (texts : List String) : Value := .array (texts.map .string)

end Value

end ConfigRecovery.Json
