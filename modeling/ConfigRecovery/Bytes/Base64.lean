/-!
# Base64

Three bytes are four characters of six bits each; a last group of one or two bytes is filled up
with `=`. `encode` writes this form, and `decode` reads nothing else: the fill must be there, and
the bits that it leaves unused must be zero.
-/

namespace ConfigRecovery.Base64

def sextetChar (n : Nat) : Char :=
  if n < 26 then Char.ofNat ('A'.toNat + n)
  else if n < 52 then Char.ofNat ('a'.toNat + (n - 26))
  else if n < 62 then Char.ofNat ('0'.toNat + (n - 52))
  else if n = 62 then '+'
  else '/'

def sextet? (c : Char) : Option Nat :=
  if 'A' ≤ c && c ≤ 'Z' then some (c.toNat - 'A'.toNat)
  else if 'a' ≤ c && c ≤ 'z' then some (c.toNat - 'a'.toNat + 26)
  else if '0' ≤ c && c ≤ '9' then some (c.toNat - '0'.toNat + 52)
  else if c = '+' then some 62
  else if c = '/' then some 63
  else none

def fill : Char := '='

def encode : List UInt8 → List Char
  | [] => []
  | [a] => [sextetChar (a.toNat / 4), sextetChar (a.toNat % 4 * 16), fill, fill]
  | [a, b] =>
    [sextetChar (a.toNat / 4), sextetChar (a.toNat % 4 * 16 + b.toNat / 16),
      sextetChar (b.toNat % 16 * 4), fill]
  | a :: b :: c :: rest =>
    sextetChar (a.toNat / 4) :: sextetChar (a.toNat % 4 * 16 + b.toNat / 16) ::
      sextetChar (b.toNat % 16 * 4 + c.toNat / 64) :: sextetChar (c.toNat % 64) :: encode rest

/-- The one byte of a group with two characters of fill. -/
def decodeOne (a b : Char) : Option (List UInt8) := do
  let (x, y) := (← sextet? a, ← sextet? b)
  guard (y % 16 = 0)
  return [UInt8.ofNat (x * 4 + y / 16)]

/-- The two bytes of a group with one character of fill. -/
def decodeTwo (a b c : Char) : Option (List UInt8) := do
  let (x, y, z) := (← sextet? a, ← sextet? b, ← sextet? c)
  guard (z % 4 = 0)
  return [UInt8.ofNat (x * 4 + y / 16), UInt8.ofNat (y % 16 * 16 + z / 4)]

/-- The three bytes of a full group. -/
def decodeThree (a b c d : Char) : Option (List UInt8) := do
  let (x, y, z, w) := (← sextet? a, ← sextet? b, ← sextet? c, ← sextet? d)
  return [UInt8.ofNat (x * 4 + y / 16), UInt8.ofNat (y % 16 * 16 + z / 4),
    UInt8.ofNat (z % 4 * 64 + w)]

def decode : List Char → Option (List UInt8)
  | [] => some []
  | a :: b :: c :: d :: rest =>
    if rest = [] ∧ d = fill then
      if c = fill then decodeOne a b else decodeTwo a b c
    else return (← decodeThree a b c d) ++ (← decode rest)
  | _ => none

end ConfigRecovery.Base64
