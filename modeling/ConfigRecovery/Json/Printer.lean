import ConfigRecovery.Json.NumberText
import ConfigRecovery.Json.Quoted
import ConfigRecovery.Text.Split

/-!
# Writing JSON text

A value is written in one of two layouts that differ in the blanks between tokens only: `compact`
has none, `pretty` gives each item and each field a line of its own. Empty containers stay on one
line.
-/

namespace ConfigRecovery.Json

/-- The blanks between the tokens of a container. -/
structure Layout where
  /-- What stands before an item and before the closing bracket, by depth of nesting -/
  lineBreak : Nat → List Char
  /-- What stands between a colon and its value -/
  gap : List Char

def Layout.compact : Layout := ⟨fun _ => [], []⟩

/-- One item a line, indented by two blanks for each level. -/
def Layout.pretty : Layout := ⟨fun depth => '\n' :: List.replicate (2 * depth) ' ', [' ']⟩

/-- The pieces of a container between its brackets, at the depth of the container itself. -/
def Layout.enclose (layout : Layout) (opening closing : Char) (depth : Nat)
    (pieces : List (List Char)) : List Char :=
  if pieces.isEmpty then [opening, closing]
  else
    opening :: layout.lineBreak (depth + 1) ++
      Text.join (',' :: layout.lineBreak (depth + 1)) pieces ++
      layout.lineBreak depth ++ [closing]

mutual

/-- The text of a value at a depth of nesting. -/
def Layout.write (layout : Layout) (depth : Nat) : Value → List Char
  | .null => "null".toList
  | .bool true => "true".toList
  | .bool false => "false".toList
  | .number n => n.text
  | .string text => Quoted.encode text.toList
  | .array items => layout.enclose '[' ']' depth (layout.writeItems (depth + 1) items)
  | .object fields => layout.enclose '\x7b' '\x7d' depth (layout.writeFields (depth + 1) fields)

def Layout.writeItems (layout : Layout) (depth : Nat) : List Value → List (List Char)
  | [] => []
  | item :: items => layout.write depth item :: layout.writeItems depth items

def Layout.writeFields (layout : Layout) (depth : Nat) : List (String × Value) → List (List Char)
  | [] => []
  | (key, value) :: fields =>
    (Quoted.encode key.toList ++ ':' :: layout.gap ++ layout.write depth value) ::
      layout.writeFields depth fields

end

namespace Value

def compact (value : Value) : String := String.ofList (Layout.compact.write 0 value)

/-- The text of a value with an item a line. -/
def pretty (value : Value) : String := String.ofList (Layout.pretty.write 0 value)

end Value

end ConfigRecovery.Json
