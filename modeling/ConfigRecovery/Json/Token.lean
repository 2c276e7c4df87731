import ConfigRecovery.Json.Numeral
import ConfigRecovery.Json.Quoted

/-!
# Tokens of JSON text

`Token.scan` cuts a text into tokens and keeps with each the text it was read from, which is where
a fault of the grammar is reported. A faulty token is the last one: what a fault means depends on
what the grammar expects there.
-/

namespace ConfigRecovery.Json

inductive Lexeme where
  | openList | closeList | openObject | closeObject | comma | colon
  | string (text : String)
  | scalar (value : Value)
  | badString (stop : Stop)
  | badScalar (stop : Stop)
  | stray
deriving Inhabited

/-- A token with the text that starts at it. -/
structure Token where
  lexeme : Lexeme
  /-- The text from its first character on -/
  source : List Char
deriving Inhabited

/-- Characters that may stand between tokens. -/
def isBlank (c : Char) : Bool := c = ' ' || c = '\t' || c = '\n' || c = '\r'

/-- Reads what is left of a word and gives what stands behind it. -/
def readWord : List Char → List Char → Except Stop (List Char)
  | [], text => .ok text
  | _ :: _, [] => .error (.at .endInValue [])
  | w :: word, c :: rest =>
    if c = w then readWord word rest else .error (.at .expectedWord (c :: rest))

/-- Reads a number and gives what stands behind it. -/
def readNumber (text : List Char) : Except Stop (Value × List Char) := do
  let (numeral, rest) ← Numeral.read text
  match numeral.value with
  | .ok number => return (.number number, rest)
  | .error unread => throw ⟨.numberOutOfRange, unread + byteLength rest⟩

namespace Lexeme

/-- A scalar that was read, or the fault in it. -/
def ofScalar : Except Stop (Value × List Char) → Lexeme × List Char
  | .ok (value, rest) => (.scalar value, rest)
  | .error stop => (.badScalar stop, [])

/-- A string that was read, or the fault in it. -/
def ofString : Except Stop (List Char × List Char) → Lexeme × List Char
  | .ok (text, rest) => (.string (String.ofList text), rest)
  | .error stop => (.badString stop, [])

/-- Reads the token that starts with a character and gives what stands behind it. -/
def read (c : Char) (rest : List Char) : Lexeme × List Char :=
  if c = '[' then (.openList, rest)
  else if c = ']' then (.closeList, rest)
  else if c = '\x7b' then (.openObject, rest)
  else if c = '\x7d' then (.closeObject, rest)
  else if c = ',' then (.comma, rest)
  else if c = ':' then (.colon, rest)
  else if c = '"' then ofString (Quoted.read [] rest)
  else if c = 'n' then ofScalar ((readWord "ull".toList rest).map (.null, ·))
  else if c = 't' then ofScalar ((readWord "rue".toList rest).map (.bool true, ·))
  else if c = 'f' then ofScalar ((readWord "alse".toList rest).map (.bool false, ·))
  else if c = '-' || c.isDigit then
    ofScalar (readNumber (c :: rest))
  else (.stray, [])

end Lexeme

/-! ## No token gives characters back -/

theorem readWord_length {word text rest : List Char} (h : readWord word text = .ok rest) :
    rest.length ≤ text.length := by
  induction word generalizing text with
  | nil => simp_all [readWord]
  | cons w word ih =>
    cases text with
    | nil => simp [readWord] at h
    | cons c text =>
      simp only [readWord] at h
      split at h
      · have := ih h
        simp only [List.length_cons]
        omega
      · cases h

theorem readNumber_length {text rest : List Char} {value : Value}
    (h : readNumber text = .ok (value, rest)) : rest.length < text.length := by
  unfold readNumber at h
  match hn : Numeral.read text with
  | .error _ =>
    rw [hn] at h
    cases h
  | .ok (numeral, rest') =>
    rw [hn] at h
    simp only [bind, Except.bind] at h
    split at h <;> cases h
    exact Numeral.read_length hn

theorem Lexeme.ofScalar_length {result : Except Stop (Value × List Char)} {text : List Char}
    (h : ∀ value rest, result = .ok (value, rest) → rest.length ≤ text.length) :
    (ofScalar result).2.length ≤ text.length := by
  match result with
  | .ok (value, rest) => exact h value rest rfl
  | .error _ => exact Nat.zero_le _

theorem Lexeme.ofString_length {result : Except Stop (List Char × List Char)} {text : List Char}
    (h : ∀ value rest, result = .ok (value, rest) → rest.length ≤ text.length) :
    (ofString result).2.length ≤ text.length := by
  match result with
  | .ok (value, rest) => exact h value rest rfl
  | .error _ => exact Nat.zero_le _

theorem Lexeme.ofScalar_word_length (word : List Char) (value : Value) (text : List Char) :
    (ofScalar ((readWord word text).map (value, ·))).2.length ≤ text.length := by
  apply ofScalar_length
  intro v rest h
  match hw : readWord word text with
  | .ok rest' =>
    rw [hw] at h
    cases h
    exact readWord_length hw
  | .error _ =>
    rw [hw] at h
    cases h

theorem Lexeme.ite_length {p : Prop} [Decidable p] {a b : Lexeme × List Char} {n : Nat}
    (ha : a.2.length ≤ n) (hb : b.2.length ≤ n) : (if p then a else b).2.length ≤ n := by
  split <;> assumption

theorem Lexeme.read_length (c : Char) (rest : List Char) :
    (Lexeme.read c rest).2.length ≤ rest.length := by
  unfold Lexeme.read
  repeat' apply ite_length
  all_goals try exact Nat.le_refl _
  · exact ofString_length fun _ _ h => Quoted.read_length h
  · exact ofScalar_word_length _ _ _
  · exact ofScalar_word_length _ _ _
  · exact ofScalar_word_length _ _ _
  · exact ofScalar_length fun _ _ h => Nat.le_of_lt_succ (readNumber_length h)
  · exact Nat.zero_le _

/-! ## Scanning -/

/-- The tokens of a text up to its end or its first faulty token. -/
def Token.scan (text : List Char) : List Token :=
  match text with
  | [] => []
  | c :: rest =>
    if isBlank c then scan rest
    else
      have := Lexeme.read_length c rest
      ⟨(Lexeme.read c rest).1, text⟩ :: scan (Lexeme.read c rest).2
termination_by text.length

end ConfigRecovery.Json
