import ConfigRecovery.Decimal.Digits
import ConfigRecovery.Json.SyntaxError
import ConfigRecovery.Json.Value

/-!
# Numerals

A numeral is a number as it stands in a text, and `Numeral.value` is the number that it means.
Integers of 64 bits are exact. All other numerals become doubles: the digits that fit into 64 bits
are converted first and then scaled by powers of ten, with a rounding at every step.
-/

namespace ConfigRecovery.Json

/-- The digits of a number as they are written. -/
structure Numeral where
  negative : Bool
  /-- The digits before the point -/
  whole : List Nat
  /-- The digits behind the point; none if there is no point -/
  fraction : List Nat
  /-- Whether a minus sign stands before the exponent -/
  down : Bool
  /-- The digits of the exponent; none if there is no exponent -/
  exponent : List Nat
deriving Repr, DecidableEq

namespace Numeral

/-! ## Reading -/

/-- Reads the digits at the front of a text, of which there must be one. -/
def readDigits (text : List Char) : Except Stop (List Nat × List Char) :=
  match Decimal.readDigits text with
  | ([], []) => .error (.at .endInValue [])
  | ([], rest) => .error (.at .invalidNumber rest)
  | found => .ok found

/-- Reads the digits before the point; a leading zero stands alone. -/
def readWhole (text : List Char) : Except Stop (List Nat × List Char) := do
  match ← readDigits text with
  | (0 :: _ :: _, _) => throw (.at .invalidNumber text.tail)
  | found => return found

/-- Reads the fraction, if a point follows. -/
def readFraction : List Char → Except Stop (List Nat × List Char)
  | '.' :: text => readDigits text
  | text => .ok ([], text)

/-- Reads a sign that may be left out; the answer is whether it is a minus. -/
def readSign : List Char → Bool × List Char
  | '-' :: text => (true, text)
  | '+' :: text => (false, text)
  | text => (false, text)

/-- Reads the sign and the digits of the exponent, if its letter follows. -/
def readExponent : List Char → Except Stop ((Bool × List Nat) × List Char)
  | 'e' :: text | 'E' :: text => do
    let (digits, rest) ← readDigits (readSign text).2
    return (((readSign text).1, digits), rest)
  | text => .ok ((false, []), text)

/-- Reads a numeral behind its sign and gives what stands behind it. -/
def readUnsigned (negative : Bool) (text : List Char) : Except Stop (Numeral × List Char) := do
  let (whole, text) ← readWhole text
  let (fraction, text) ← readFraction text
  let ((down, exponent), text) ← readExponent text
  return (⟨negative, whole, fraction, down, exponent⟩, text)

/-- Reads the numeral at the front of a text and gives what stands behind it. -/
def read : List Char → Except Stop (Numeral × List Char)
  | '-' :: text => readUnsigned true text
  | text => readUnsigned false text

/-! ## Meaning -/

/-- The largest number whose digits are all kept. -/
def maxSignificand : Nat := UInt64.size - 1

/-- The largest exponent that can be written. -/
def maxExponent : Nat := 0x7fffffff

def maxPower : Nat := 308

def powerOfTen (k : Nat) : Float := Float.ofScientific 1 false k

/-- The double `f * 10 ^ exponent` with a rounding at every step, unless it exceeds all doubles. -/
def scale (f : Float) (exponent : Int) : Option Float :=
  if exponent.natAbs ≤ maxPower then
    if 0 ≤ exponent then
      let product := f * powerOfTen exponent.natAbs
      if product.isInf then none else some product
    else some (f / powerOfTen exponent.natAbs)
  else if f == 0.0 then some f
  else if 0 ≤ exponent then none
  else scale (f / powerOfTen maxPower) (exponent + maxPower)
termination_by exponent.natAbs
decreasing_by
  have : maxPower = 308 := rfl
  omega

/-- The sign is put before a double last, so that it can stand before zero. -/
def signed (negative : Bool) (f : Float) : Number := .float (if negative then -f else f)

/--
A numeral that is an integer and whose digits were all kept. Minus zero and what is below the
integers of 64 bits are doubles.
-/
def ofSignificand (negative : Bool) (n : Nat) : Number :=
  if !negative then .int n
  else if n = 0 ∨ UInt64.size / 2 < n then signed negative (Float.ofScientific n false 0)
  else .int (-n)

/-- The digits that are kept, as a number, and the power of ten that its last digit counts. -/
def significand (n : Numeral) : Nat × Int :=
  let (whole, dropped) := Decimal.absorb maxSignificand 0 n.whole
  let (kept, ignored) := Decimal.absorb maxSignificand whole n.fraction
  (kept, dropped.length - (n.fraction.length - ignored.length : Nat))

/-- Whether a numeral has neither fraction nor exponent and all its digits are kept. -/
def isInteger (n : Numeral) : Bool :=
  n.fraction.isEmpty && n.exponent.isEmpty && (Decimal.absorb maxSignificand 0 n.whole).2.isEmpty

/--
The number that a numeral means. If it exceeds all doubles the answer is the number of exponent
digits that were not needed to see that.
-/
def value (n : Numeral) : Except Nat Number :=
  let (kept, power) := n.significand
  if n.isInteger then .ok (ofSignificand n.negative kept)
  else
    match Decimal.absorb maxExponent 0 n.exponent with
    | (_, _ :: unread) =>
      if kept = 0 ∨ n.down then .ok (signed n.negative 0.0) else .error unread.length
    | (exponent, []) =>
      let total := if n.down then power - exponent else power + exponent
      match scale (Float.ofScientific kept false 0) total with
      | some f => .ok (signed n.negative f)
      | none => .error 0

/-! ## Reading gives no characters back -/

theorem readDigits_length {text rest : List Char} {digits : List Nat}
    (h : readDigits text = .ok (digits, rest)) : rest.length < text.length := by
  unfold readDigits Decimal.readDigits at h
  match text with
  | [] => simp at h
  | c :: text =>
    by_cases hc : c.isDigit
    · have := (List.dropWhile_sublist Char.isDigit (l := text)).length_le
      simp only [List.takeWhile_cons, List.dropWhile_cons, hc, if_true] at h
      split at h <;> cases h
      exact Nat.lt_succ_of_le this
    · simp [hc] at h

theorem readWhole_ok {text rest : List Char} {digits : List Nat}
    (h : readWhole text = .ok (digits, rest)) : readDigits text = .ok (digits, rest) := by
  unfold readWhole at h
  match hd : readDigits text with
  | .error _ =>
    rw [hd] at h
    cases h
  | .ok found =>
    rw [hd] at h
    simp only [bind, Except.bind] at h
    split at h <;> cases h
    rfl

theorem readFraction_length {text rest : List Char} {digits : List Nat}
    (h : readFraction text = .ok (digits, rest)) : rest.length ≤ text.length := by
  unfold readFraction at h
  split at h
  · exact Nat.le_succ_of_le (Nat.le_of_lt (readDigits_length h))
  · cases h
    exact Nat.le_refl _

theorem readSign_length (text : List Char) : (readSign text).2.length ≤ text.length := by
  unfold readSign
  split <;> simp

theorem readExponent_length {text rest : List Char} {found : Bool × List Nat}
    (h : readExponent text = .ok (found, rest)) : rest.length ≤ text.length := by
  have letter (text : List Char) (h : (do
      let (digits, rest) ← readDigits (readSign text).2
      return (((readSign text).1, digits), rest)) = Except.ok (ε := Stop) (found, rest)) :
      rest.length ≤ text.length := by
    match hd : readDigits (readSign text).2 with
    | .error _ =>
      rw [hd] at h
      cases h
    | .ok (digits, rest') =>
      rw [hd] at h
      cases h
      exact Nat.le_trans (Nat.le_of_lt (readDigits_length hd)) (readSign_length text)
  unfold readExponent at h
  split at h
  · exact Nat.le_succ_of_le (letter _ h)
  · exact Nat.le_succ_of_le (letter _ h)
  · cases h
    exact Nat.le_refl _

theorem readUnsigned_length {negative : Bool} {text rest : List Char} {n : Numeral}
    (h : readUnsigned negative text = .ok (n, rest)) : rest.length < text.length := by
  unfold readUnsigned at h
  match hw : readWhole text with
  | .error _ =>
    rw [hw] at h
    cases h
  | .ok (whole, text₁) =>
    match hf : readFraction text₁ with
    | .error _ =>
      rw [hw] at h
      simp only [bind, Except.bind, hf] at h
      cases h
    | .ok (fraction, text₂) =>
      match he : readExponent text₂ with
      | .error _ =>
        rw [hw] at h
        simp only [bind, Except.bind, hf, he] at h
        cases h
      | .ok (exponent, text₃) =>
        rw [hw] at h
        simp only [bind, Except.bind, hf, he] at h
        cases h
        exact Nat.lt_of_le_of_lt (readExponent_length he)
          (Nat.lt_of_le_of_lt (readFraction_length hf) (readDigits_length (readWhole_ok hw)))

theorem read_length {text rest : List Char} {n : Numeral} (h : read text = .ok (n, rest)) :
    rest.length < text.length := by
  unfold read at h
  split at h
  · exact Nat.lt_succ_of_lt (readUnsigned_length h)
  · exact readUnsigned_length h

end Numeral

end ConfigRecovery.Json
