import ConfigRecovery.Decimal.Digits

/-!
# Shortest decimal of a binary fraction

A finite positive double is `mantissa * 2 ^ exponent`. Every decimal in the interval of reals that
round to it reads back as the same double; `shortest` is the one with the fewest digits, and of
those the one nearest to the value. All arithmetic is exact.
-/

namespace ConfigRecovery.Decimal

/-- A positive binary fraction `mantissa * 2 ^ exponent` as a double stores it. -/
structure Binary where
  /-- The significant bits -/
  mantissa : Nat
  /-- The power of two that they count -/
  exponent : Int
deriving Repr, DecidableEq

/-- The significant bits of a full double: those stored and the leading one. -/
def Binary.leadingBit : Nat := 1 <<< 52

/-- The exponent of the smallest doubles, the only ones without a leading one. -/
def Binary.leastExponent : Int := -1074

/-- The magnitude that the bits of a finite double stand for. -/
def Binary.ofBits (bits : UInt64) : Binary :=
  let fraction := bits.toNat % leadingBit
  let biased := bits.toNat / leadingBit % (1 <<< 11)
  if biased = 0 then ⟨fraction, leastExponent⟩
  else ⟨leadingBit + fraction, leastExponent + (biased - 1 : Nat)⟩

/-- The interval of reals that round to a double, in units of a quarter of its last bit. -/
structure Interval where
  low : Nat
  value : Nat
  high : Nat
  /-- Whether the ends belong to it -/
  closed : Bool

/--
Half the gap to each neighbour. Below a power of two the gap is half as wide, and the ends belong
to the interval if ties go to this double, that is if its mantissa is even.
-/
def Binary.interval (b : Binary) : Interval :=
  let below := if b.mantissa = leadingBit ∧ leastExponent < b.exponent then 1 else 2
  ⟨4 * b.mantissa - below, 4 * b.mantissa, 4 * b.mantissa + 2, b.mantissa % 2 = 0⟩

/-- Whether a point of the scaled line lies in the interval scaled by the same factor. -/
def Interval.contains (i : Interval) (scale point : Nat) : Bool :=
  if i.closed then i.low * scale ≤ point && point ≤ i.high * scale
  else i.low * scale < point && point < i.high * scale

/--
The multiple of ten to the given power that lies in the interval nearest to the value; of two
equally near ones the even one.
-/
def Binary.onGrid? (b : Binary) (power : Int) : Option Nat :=
  let i := b.interval
  -- both sides are scaled to integers: one interval unit is `scale`, one grid step is `step`
  let scale := (1 <<< (b.exponent - 2).toNat) * Nat.pow 10 (-power).toNat
  let step := (1 <<< (2 - b.exponent).toNat) * Nat.pow 10 power.toNat
  let value := i.value * scale
  let below := value / step
  let above := below + 1
  let fits (n : Nat) : Bool := n ≠ 0 && i.contains scale (n * step)
  match fits below, fits above with
  | false, false => none
  | true, false => some below
  | false, true => some above
  | true, true =>
    let down := value - below * step
    let up := above * step - value
    if down < up || (down = up && below % 2 = 0) then some below else some above

/-- A power of ten above the value. -/
def Binary.topPower (b : Binary) : Int :=
  (b.mantissa.log2 + b.exponent + 1) * 30103 / 100000 + 1

/-- The number of grids to try: seventeen digits always suffice. -/
def Binary.gridCount : Nat := 20

/-- The digits of the shortest decimal and the power of ten that the last of them counts. -/
def Binary.shortest (b : Binary) : List Nat × Int :=
  let found := (List.range gridCount).findSome? fun (i : Nat) =>
    (b.onGrid? (b.topPower - i)).map fun n => (ofNat n, b.topPower - i)
  found.getD ([0], 0)

end ConfigRecovery.Decimal
