/-!
# Decimal digits

Digits are numbers below ten, the most significant first. `ofNat` writes a number without leading
zeros, `absorb` reads digits back as long as the value stays within a bound.
-/

namespace ConfigRecovery.Decimal

def digitChar (d : Nat) : Char := Char.ofNat ('0'.toNat + d)

def digit? (c : Char) : Option Nat := if c.isDigit then some (c.toNat - '0'.toNat) else none

/-- The digits of a number; zero has one digit. -/
def ofNat (n : Nat) : List Nat := if n < 10 then [n] else ofNat (n / 10) ++ [n % 10]
termination_by n
decreasing_by omega

def text (n : Nat) : List Char := (ofNat n).map digitChar

/-- Reads the digits at the front of a text and gives what stands behind them. -/
def readDigits (text : List Char) : List Nat × List Char :=
  (text.takeWhile Char.isDigit |>.filterMap digit?, text.dropWhile Char.isDigit)

/-- Appends digits to a number while it stays within the bound, and gives the digits left over. -/
def absorb (bound : Nat) (n : Nat) : List Nat → Nat × List Nat
  | [] => (n, [])
  | d :: rest => if n * 10 + d ≤ bound then absorb bound (n * 10 + d) rest else (n, d :: rest)

end ConfigRecovery.Decimal
