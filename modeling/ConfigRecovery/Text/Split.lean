/-!
# Cutting and joining text

Texts are lists of characters here. `splitOn` cuts at every separator and keeps empty parts, `join`
puts the parts together again, and `replaceFirst` exchanges the leftmost occurrence of a pattern.
-/

namespace ConfigRecovery.Text

/-- The parts of a text between separators; there is always one part more than separators. -/
def splitOn (separator : Char) : List Char → List (List Char)
  | [] => [[]]
  | c :: rest =>
    if c = separator then [] :: splitOn separator rest
    else
      match splitOn separator rest with
      | [] => [[c]]
      | part :: parts => (c :: part) :: parts

/-- Parts written one after the other with a filler between neighbours. -/
def join (filler : List Char) : List (List Char) → List Char
  | [] => []
  | [part] => part
  | part :: next :: parts => part ++ filler ++ join filler (next :: parts)

/-- Exchanges the leftmost occurrence of the pattern; an empty pattern occurs at the very start. -/
def replaceFirst (pattern replacement : List Char) : List Char → List Char
  | [] => if pattern.isEmpty then replacement else []
  | c :: rest =>
    if pattern.isPrefixOf (c :: rest) then replacement ++ (c :: rest).drop pattern.length
    else c :: replaceFirst pattern replacement rest

end ConfigRecovery.Text
