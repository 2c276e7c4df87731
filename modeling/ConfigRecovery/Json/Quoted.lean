import ConfigRecovery.Json.SyntaxError

/-!
# Quoted texts

`encode` escapes the quote, the backslash and control characters and nothing else; `read` accepts
every escape of JSON, pairs of surrogates included, and stops at the closing quote.
-/

namespace ConfigRecovery.Json.Quoted

def hexChar (n : Nat) : Char :=
  if n < 10 then Char.ofNat ('0'.toNat + n) else Char.ofNat ('a'.toNat + (n - 10))

def hexValue? (c : Char) : Option Nat :=
  if '0' ≤ c && c ≤ '9' then some (c.toNat - '0'.toNat)
  else if 'a' ≤ c && c ≤ 'f' then some (c.toNat - 'a'.toNat + 10)
  else if 'A' ≤ c && c ≤ 'F' then some (c.toNat - 'A'.toNat + 10)
  else none

def shortEscape? (c : Char) : Option Char :=
  if c = '"' then some '"'
  else if c = '\\' then some '\\'
  else if c = '\x08' then some 'b'
  else if c = '\x0c' then some 'f'
  else if c = '\n' then some 'n'
  else if c = '\r' then some 'r'
  else if c = '\t' then some 't'
  else none

/-- The character that a short escape stands for; a slash may be escaped and need not be. -/
def ofShortEscape? (letter : Char) : Option Char :=
  if letter = '"' then some '"'
  else if letter = '\\' then some '\\'
  else if letter = '/' then some '/'
  else if letter = 'b' then some '\x08'
  else if letter = 'f' then some '\x0c'
  else if letter = 'n' then some '\n'
  else if letter = 'r' then some '\r'
  else if letter = 't' then some '\t'
  else none

/-- Characters that may not stand in a text unescaped. -/
def isControl (c : Char) : Bool := c.toNat < 0x20

/-- One character as it is written inside quotes. -/
def encodeChar (c : Char) : List Char :=
  match shortEscape? c with
  | some letter => ['\\', letter]
  | none =>
    if isControl c then ['\\', 'u', '0', '0', hexChar (c.toNat / 16), hexChar (c.toNat % 16)]
    else [c]

/-- A text as it is written, quotes included. -/
def encode (text : List Char) : List Char := '"' :: text.flatMap encodeChar ++ ['"']

/-- The code unit of four hexadecimal digits. -/
def unit? (a b c d : Char) : Option Nat := do
  return (((← hexValue? a) * 16 + (← hexValue? b)) * 16 + (← hexValue? c)) * 16 + (← hexValue? d)

/-- Units that open a surrogate pair. -/
def isHighSurrogate (unit : Nat) : Bool := 0xD800 ≤ unit && unit ≤ 0xDBFF

/-- Units that close a surrogate pair. -/
def isLowSurrogate (unit : Nat) : Bool := 0xDC00 ≤ unit && unit ≤ 0xDFFF

/-- The character that a surrogate pair stands for. -/
def ofPair (high low : Nat) : Char := Char.ofNat (0x10000 + (high - 0xD800) * 0x400 + (low - 0xDC00))

/-- Four bytes are taken for the digits, whatever they are; fewer are an end of the text. -/
def badUnit (rest : List Char) : Stop :=
  if byteLength rest < 4 then .at .endInString []
  else ⟨.invalidEscape, byteLength rest - 4⟩

/--
Reads a text from behind its opening quote, given the characters read so far in reverse, and gives
what stands behind the closing quote.
-/
def read (done : List Char) : List Char → Except Stop (List Char × List Char)
  | [] => .error (.at .endInString [])
  | '"' :: rest => .ok (done.reverse, rest)
  | '\\' :: [] => .error (.at .endInString [])
  | '\\' :: 'u' :: a :: b :: c :: d :: rest =>
    match unit? a b c d with
    | none => .error (badUnit (a :: b :: c :: d :: rest))
    | some unit =>
      if isLowSurrogate unit then .error (.before .loneSurrogate rest)
      else if isHighSurrogate unit then
        match rest with
        | '\\' :: 'u' :: e :: f :: g :: h :: rest =>
          match unit? e f g h with
          | none => .error (badUnit (e :: f :: g :: h :: rest))
          | some low =>
            if isLowSurrogate low then read (ofPair unit low :: done) rest
            else .error (.before .loneSurrogate rest)
        | '\\' :: 'u' :: rest => .error (badUnit rest)
        | '\\' :: rest => .error (.at (if rest.isEmpty then .endInString else .missingSurrogate) rest)
        | rest => .error (.at (if rest.isEmpty then .endInString else .missingSurrogate) rest)
      else read (Char.ofNat unit :: done) rest
  | '\\' :: 'u' :: rest => .error (badUnit rest)
  | '\\' :: letter :: rest =>
    match ofShortEscape? letter with
    | some c => read (c :: done) rest
    | none => .error (.at .invalidEscape (letter :: rest))
  | c :: rest => if isControl c then .error (.at .controlCharacter (c :: rest)) else read (c :: done) rest

theorem read_length {done text result rest : List Char} (h : read done text = .ok (result, rest)) :
    rest.length ≤ text.length := by
  fun_induction read done text <;> simp_all <;> omega

end ConfigRecovery.Json.Quoted
