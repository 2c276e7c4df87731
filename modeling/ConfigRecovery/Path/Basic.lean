import ConfigRecovery.Text.Split

/-!
# Paths of recovered files

A file is named by a path relative to the root of the output, with `/` between its segments. Any
spelling of a path, with backslashes, doubled separators, `.` and `..`, has one canonical path:
`segments` runs over the parts with a stack, and `canonical` writes the stack down.
-/

namespace ConfigRecovery.Path

/-- One part of a path between separators. -/
abbrev Segment := List Char

/-- A backslash separates parts just as a slash does. -/
def unifySeparator (c : Char) : Char := if c = '\\' then '/' else c

/-- The parts of a raw path, in order, empty and dot parts included. -/
def parts (raw : List Char) : List Segment := Text.splitOn '/' (raw.map unifySeparator)

/-- Applies one part to the open segments, innermost first. A `..` above the top level is ignored. -/
def push (stack : List Segment) (part : Segment) : List Segment :=
  if part = [] ∨ part = ['.'] then stack
  else if part = ['.', '.'] then stack.tail
  else part :: stack

/-- The segments that a raw path names, outermost first. -/
def segments (raw : List Char) : List Segment := ((parts raw).foldl push []).reverse

/-- The canonical spelling of a list of segments. -/
def render (segments : List Segment) : List Char := Text.join ['/'] segments

def canonical (raw : String) : String := String.ofList (render (segments raw.toList))

/-- Characters that end neither a name nor its extension. -/
def isNameChar (c : Char) : Bool := c ≠ '.' && c ≠ '/'

/--
A path cut at the last dot of its final segment, the dot itself left out. A dot at the very start
of the segment does not begin an extension.
-/
def cutExtension (path : List Char) : Option (List Char × List Char) :=
  match path.reverse.dropWhile isNameChar with
  | '.' :: c :: front =>
    if c = '/' then none
    else some ((c :: front).reverse, (path.reverse.takeWhile isNameChar).reverse)
  | _ => none

def extension? (path : String) : Option String :=
  (cutExtension path.toList).map fun cut => String.ofList cut.2

def stem (path : String) : String :=
  match cutExtension path.toList with
  | some (front, _) => String.ofList front
  | none => path

def configSuffix : String := ".json"

/-- Whether a path already names a configuration file. -/
def isConfigFile (path : String) : Bool := configSuffix.toList.isSuffixOf path.toList

/-- The configuration file of a raw path: its canonical path, with the ending if that is missing. -/
def configFile (raw : String) : String :=
  if isConfigFile (canonical raw) then canonical raw else canonical raw ++ configSuffix

end ConfigRecovery.Path
