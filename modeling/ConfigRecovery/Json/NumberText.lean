import ConfigRecovery.Decimal.Shortest
import ConfigRecovery.Json.Value

/-!
# Numbers as they are written

Integers are written plainly. A double is written with the fewest digits that read back, with an
exponent only when it is very large or very small, and never without a point or an exponent, so
that it is not taken for an integer.
-/

namespace ConfigRecovery.Json.Number

/-- Scientific exponents from which on a double is written with an exponent. -/
def positionalBelow : Int := 16

/-- Scientific exponents below which a double is written with an exponent. -/
def positionalFrom : Int := -5

/-- The text of a decimal with these digits, the first of which counts `10 ^ exponent`. -/
def decimalText (digits : List Nat) (exponent : Int) : List Char :=
  let chars := digits.map Decimal.digitChar
  if exponent < positionalFrom ∨ positionalBelow ≤ exponent then
    let fraction := if chars.length ≤ 1 then [] else '.' :: chars.drop 1
    let sign := if exponent < 0 then '-' else '+'
    chars.take 1 ++ fraction ++ 'e' :: sign :: Decimal.text exponent.natAbs
  else if exponent < 0 then
    '0' :: '.' :: List.replicate (exponent.natAbs - 1) '0' ++ chars
  else
    let whole := exponent.toNat + 1
    if chars.length ≤ whole then
      chars ++ List.replicate (whole - chars.length) '0' ++ ['.', '0']
    else chars.take whole ++ '.' :: chars.drop whole

/-- The text of a finite double; zero keeps its sign. -/
def floatText (f : Float) : List Char :=
  let bits := f.toBits
  let sign := if bits.toNat < UInt64.size / 2 then [] else ['-']
  let magnitude := Decimal.Binary.ofBits bits
  if magnitude.mantissa = 0 then sign ++ ['0', '.', '0']
  else
    let (digits, power) := magnitude.shortest
    sign ++ decimalText digits (power + digits.length - 1)

def intText (n : Int) : List Char :=
  if n < 0 then '-' :: Decimal.text n.natAbs else Decimal.text n.natAbs

def text : Number → List Char
  | .int n => intText n
  | .float f => floatText f

end ConfigRecovery.Json.Number
