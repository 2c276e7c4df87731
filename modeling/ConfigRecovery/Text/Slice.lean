/-!
# Slices of a text by bytes

Places in a program's text are counted in bytes of its encoding. A slice is a text only if both
ends stand between characters.
-/

namespace ConfigRecovery.Text

/-- The text without its first bytes, if these are whole characters. -/
def dropBytes (bytes : Nat) : List Char → Option (List Char)
  | [] => if bytes = 0 then some [] else none
  | c :: rest =>
    if bytes = 0 then some (c :: rest)
    else if bytes < c.utf8Size then none
    else dropBytes (bytes - c.utf8Size) rest

/-- The first bytes of the text, if these are whole characters. -/
def takeBytes (bytes : Nat) : List Char → Option (List Char)
  | [] => if bytes = 0 then some [] else none
  | c :: rest =>
    if bytes = 0 then some []
    else if bytes < c.utf8Size then none
    else (takeBytes (bytes - c.utf8Size) rest).map (c :: ·)

/-- The bytes of a text from a start to a stop, if both stand between characters in this order. -/
def slice? (text : String) (start stop : Nat) : Option String := do
  guard (start ≤ stop)
  String.ofList <$> takeBytes (stop - start) (← dropBytes start text.toList)

end ConfigRecovery.Text
