import Mathlib
import ConfigRecovery.Bytes.Base64

/-!
# Bits in groups of six

The padded text of some bytes is told by their bits alone: they are cut into groups of six, the last
of which is filled up with zeros. Every list of bytes has one such text, and the text of no bytes is
read as anything but these bytes.
-/

namespace ConfigRecovery.Base64

/-! ## Bits -/

/-- The lowest bits of a number, the most significant of them first. -/
def bits : Nat → Nat → List Bool
  | 0, _ => []
  | width + 1, n => n.testBit width :: bits width n

theorem length_bits (width n : Nat) : (bits width n).length = width := by
  induction width with
  | zero => rfl
  | succ width ih => rw [bits, List.length_cons, ih]

theorem bits_add (width more : Nat) {x y : Nat} (small : y < 2 ^ more) :
    bits (width + more) (x * 2 ^ more + y) = bits width x ++ bits more y := by
  have split (i : Nat) : (x * 2 ^ more + y).testBit i =
      if i < more then y.testBit i else x.testBit (i - more) := by
    rw [Nat.mul_comm]
    exact Nat.testBit_two_pow_mul_add x small i
  induction width with
  | zero =>
    have low (i : Nat) (within : i ≤ more) : bits i (x * 2 ^ more + y) = bits i y := by
      induction i with
      | zero => rfl
      | succ i ih => rw [bits, bits, split, if_pos (by omega), ih (by omega)]
    rw [Nat.zero_add, low more (Nat.le_refl more)]
    rfl
  | succ width ih =>
    rw [Nat.add_right_comm, bits, split, if_neg (by omega), Nat.add_sub_cancel, ih]
    rfl

theorem bits_zero (width : Nat) : bits width 0 = List.replicate width false := by
  induction width with
  | zero => rfl
  | succ width ih => rw [bits, ih, Nat.zero_testBit, List.replicate_succ]

theorem bits_mul (width more x : Nat) :
    bits (width + more) (x * 2 ^ more) = bits width x ++ List.replicate more false := by
  rw [← bits_zero, ← bits_add width more (Nat.two_pow_pos more), Nat.add_zero]

theorem eq_of_bits_eq {width x y : Nat} (hx : x < 2 ^ width) (hy : y < 2 ^ width)
    (same : bits width x = bits width y) : x = y := by
  have low (i : Nat) (less : i < width) : x.testBit i = y.testBit i := by
    clear hx hy
    induction width with
    | zero => omega
    | succ width ih =>
      obtain ⟨top, rest⟩ := List.cons_eq_cons.mp same
      rcases Nat.lt_succ_iff_lt_or_eq.mp less with less | rfl
      · exact ih rest less
      · exact top
  apply Nat.eq_of_testBit_eq
  intro i
  by_cases less : i < width
  · exact low i less
  · have high : 2 ^ width ≤ 2 ^ i := Nat.pow_le_pow_right (by omega) (by omega)
    rw [Nat.testBit_lt_two_pow (hx.trans_le high), Nat.testBit_lt_two_pow (hy.trans_le high)]

theorem bits_div_mod (width more n : Nat) :
    bits (width + more) n = bits width (n / 2 ^ more) ++ bits more (n % 2 ^ more) := by
  conv_lhs => rw [← Nat.div_add_mod' n (2 ^ more)]
  exact bits_add width more (Nat.mod_lt n (Nat.two_pow_pos more))

/-! ## The standard form -/

def alphabet : List Char :=
  "ABCDEFGHIJKLMNOPQRSTUVWXYZabcdefghijklmnopqrstuvwxyz0123456789+/".toList

def byteBits (bytes : List UInt8) : List Bool := bytes.flatMap fun byte => bits 8 byte.toNat

def digitBits (digits : List (Fin alphabet.length)) : List Bool :=
  digits.flatMap fun digit => bits 6 digit.val

/--
The padded text of some bytes. Their bits and some zeros are the digits, six bits each, and the
digits by their characters and some `=` are the text, a multiple of four characters.
-/
def Standard (bytes : List UInt8) (text : List Char) : Prop :=
  ∃ digits zeros fills, digitBits digits = byteBits bytes ++ List.replicate zeros false ∧
    zeros < 6 ∧ text = digits.map alphabet.get ++ List.replicate fills '=' ∧ fills < 4 ∧
    4 ∣ text.length

theorem length_alphabet : alphabet.length = 64 := by decide

theorem length_byteBits (bytes : List UInt8) : (byteBits bytes).length = 8 * bytes.length := by
  simp [byteBits, List.length_flatMap, length_bits, Nat.mul_comm]

theorem length_digitBits (digits : List (Fin alphabet.length)) :
    (digitBits digits).length = 6 * digits.length := by
  simp [digitBits, List.length_flatMap, length_bits, Nat.mul_comm]

theorem digitBits_inj {digits digits' : List (Fin alphabet.length)}
    (same : digitBits digits = digitBits digits') : digits = digits' := by
  have length := congrArg List.length same
  rw [length_digitBits, length_digitBits] at length
  induction digits generalizing digits' with
  | nil => exact (List.length_eq_zero_iff.mp (by simpa using length.symm)).symm
  | cons digit digits ih =>
    cases digits' with
    | nil => simp at length
    | cons digit' digits' =>
      rw [digitBits, digitBits, List.flatMap_cons, List.flatMap_cons] at same
      obtain ⟨first, rest⟩ := List.append_inj same (by rw [length_bits, length_bits])
      have small (digit : Fin alphabet.length) : digit.val < 2 ^ 6 :=
        digit.isLt.trans_eq length_alphabet
      have here := eq_of_bits_eq (small digit) (small digit') first
      rw [ih rest (by simpa using length), Fin.ext here]

/-- Zeros and fill are what is missing and no more, so some bytes have one text at most. -/
theorem Standard.unique {bytes : List UInt8} {text text' : List Char}
    (standard : Standard bytes text) (standard' : Standard bytes text') : text = text' := by
  obtain ⟨digits, zeros, fills, cut, fewZeros, rfl, fewFills, whole⟩ := standard
  obtain ⟨digits', zeros', fills', cut', fewZeros', rfl, fewFills', whole'⟩ := standard'
  have length := congrArg List.length cut
  have length' := congrArg List.length cut'
  rw [List.length_append, List.length_replicate, length_digitBits, length_byteBits]
    at length length'
  have zeros_eq : zeros = zeros' := by omega
  have digits_eq : digits = digits' := digitBits_inj (by rw [cut, cut', zeros_eq])
  rw [List.length_append, List.length_map, List.length_replicate] at whole whole'
  have fills_eq : fills = fills' := by
    rw [digits_eq] at whole
    omega
  rw [digits_eq, fills_eq]

/-! ## Writing -/

def digit (n : Nat) (h : n < 64) : Fin alphabet.length := ⟨n, h.trans_eq length_alphabet.symm⟩

theorem get_digit {n : Nat} (h : n < 64) : alphabet.get (digit n h) = sextetChar n := by
  have all : ∀ d : Fin alphabet.length, alphabet.get d = sextetChar d := by decide
  exact all _

section

variable (a b c : UInt8)

theorem bits_one :
    bits 6 (a.toNat / 4) ++ bits 6 (a.toNat % 4 * 16) =
      bits 8 a.toNat ++ List.replicate 4 false := by
  have first : bits 8 a.toNat = bits 6 (a.toNat / 4) ++ bits 2 (a.toNat % 4) := bits_div_mod 6 2 _
  have second : bits 6 (a.toNat % 4 * 16) = bits 2 (a.toNat % 4) ++ List.replicate 4 false :=
    bits_mul 2 4 _
  rw [first, second, List.append_assoc]

/-- Where a byte ends within a group of six, the next one goes on. -/
theorem bits_across :
    bits 6 (a.toNat / 4) ++ bits 6 (a.toNat % 4 * 16 + b.toNat / 16) =
      bits 8 a.toNat ++ bits 4 (b.toNat / 16) := by
  have := b.toNat_lt
  have first : bits 8 a.toNat = bits 6 (a.toNat / 4) ++ bits 2 (a.toNat % 4) := bits_div_mod 6 2 _
  have second : bits 6 (a.toNat % 4 * 16 + b.toNat / 16) =
      bits 2 (a.toNat % 4) ++ bits 4 (b.toNat / 16) := bits_add 2 4 (by omega)
  rw [first, second, List.append_assoc]

theorem bits_two :
    bits 6 (a.toNat / 4) ++ bits 6 (a.toNat % 4 * 16 + b.toNat / 16) ++ bits 6 (b.toNat % 16 * 4) =
      bits 8 a.toNat ++ bits 8 b.toNat ++ List.replicate 2 false := by
  have second : bits 8 b.toNat = bits 4 (b.toNat / 16) ++ bits 4 (b.toNat % 16) :=
    bits_div_mod 4 4 _
  have last : bits 6 (b.toNat % 16 * 4) = bits 4 (b.toNat % 16) ++ List.replicate 2 false :=
    bits_mul 4 2 _
  rw [bits_across, second, last]
  simp only [List.append_assoc]

theorem bits_three :
    bits 6 (a.toNat / 4) ++ bits 6 (a.toNat % 4 * 16 + b.toNat / 16) ++
        bits 6 (b.toNat % 16 * 4 + c.toNat / 64) ++ bits 6 (c.toNat % 64) =
      bits 8 a.toNat ++ bits 8 b.toNat ++ bits 8 c.toNat := by
  have := c.toNat_lt
  have second : bits 8 b.toNat = bits 4 (b.toNat / 16) ++ bits 4 (b.toNat % 16) :=
    bits_div_mod 4 4 _
  have third : bits 8 c.toNat = bits 2 (c.toNat / 64) ++ bits 6 (c.toNat % 64) := bits_div_mod 2 6 _
  have last : bits 6 (b.toNat % 16 * 4 + c.toNat / 64) =
      bits 4 (b.toNat % 16) ++ bits 2 (c.toNat / 64) := bits_add 4 2 (by omega)
  rw [bits_across, second, third, last]
  simp only [List.append_assoc]

end

theorem encode_standard (bytes : List UInt8) : Standard bytes (encode bytes) := by
  fun_induction encode bytes with
  | case1 => exact ⟨[], 0, 0, rfl, by decide, rfl, by decide, by decide⟩
  | case2 a =>
    have := a.toNat_lt
    refine ⟨[digit (a.toNat / 4) (by omega), digit (a.toNat % 4 * 16) (by omega)], 4, 2, ?_,
      by decide, ?_, by decide, by simp⟩
    · simpa [digitBits, byteBits, digit] using bits_one a
    · simp only [List.map_cons, List.map_nil, get_digit]
      rfl
  | case3 a b =>
    have := a.toNat_lt
    have := b.toNat_lt
    refine ⟨[digit (a.toNat / 4) (by omega), digit (a.toNat % 4 * 16 + b.toNat / 16) (by omega),
      digit (b.toNat % 16 * 4) (by omega)], 2, 1, ?_, by decide, ?_, by decide, by simp⟩
    · simpa [digitBits, byteBits, digit] using bits_two a b
    · simp only [List.map_cons, List.map_nil, get_digit]
      rfl
  | case4 a b c rest ih =>
    have := a.toNat_lt
    have := b.toNat_lt
    have := c.toNat_lt
    obtain ⟨digits, zeros, fills, cut, fewZeros, text, fewFills, whole⟩ := ih
    refine ⟨digit (a.toNat / 4) (by omega) :: digit (a.toNat % 4 * 16 + b.toNat / 16) (by omega) ::
      digit (b.toNat % 16 * 4 + c.toNat / 64) (by omega) :: digit (c.toNat % 64) (by omega) ::
      digits,
      zeros, fills, ?_, fewZeros, ?_, fewFills, ?_⟩
    · have group := congrArg (· ++ digitBits digits) (bits_three a b c)
      rw [digitBits, byteBits] at cut
      simpa [digitBits, byteBits, digit, cut] using group
    · simp only [List.map_cons, get_digit, List.cons_append, text]
    · simp only [List.length_cons]
      omega

theorem standard_iff {bytes : List UInt8} {text : List Char} :
    Standard bytes text ↔ text = encode bytes :=
  ⟨fun standard => standard.unique (encode_standard bytes),
    fun equal => equal ▸ encode_standard bytes⟩

/-! ## Reading -/

theorem sextet?_sextetChar {n : Nat} (h : n < 64) : sextet? (sextetChar n) = some n := by
  have all : ∀ n : Fin 64, sextet? (sextetChar n) = some n.val := by decide
  exact all ⟨n, h⟩

theorem sextetChar_ne_fill {n : Nat} (h : n < 64) : sextetChar n ≠ fill := by
  have all : ∀ n : Fin 64, sextetChar n ≠ fill := by decide
  exact all ⟨n, h⟩

theorem of_within {low high c : Char} (within : (low ≤ c && c ≤ high) = true) :
    c.toNat - low.toNat ≤ high.toNat - low.toNat ∧
      Char.ofNat (low.toNat + (c.toNat - low.toNat)) = c := by
  simp only [Bool.and_eq_true, decide_eq_true_eq] at within
  have least : low.toNat ≤ c.toNat := within.1
  have most : c.toNat ≤ high.toNat := within.2
  rw [Nat.add_sub_of_le least, Char.ofNat_toNat]
  exact ⟨Nat.sub_le_sub_right most _, rfl⟩

/-- A character stands for six bits only if they are written by it. -/
theorem sextet?_eq_some {c : Char} {n : Nat} :
    sextet? c = some n ↔ n < 64 ∧ c = sextetChar n := by
  constructor
  · intro read
    unfold sextet? at read
    split_ifs at read with upper lower digit plus slash
    · obtain ⟨place, back⟩ := of_within upper
      have : c.toNat - 'A'.toNat ≤ 25 := place
      cases read
      rw [sextetChar, if_pos (by omega), back]
      exact ⟨by omega, rfl⟩
    · obtain ⟨place, back⟩ := of_within lower
      have : c.toNat - 'a'.toNat ≤ 25 := place
      cases read
      rw [sextetChar, if_neg (by omega), if_pos (by omega), Nat.add_sub_cancel, back]
      exact ⟨by omega, rfl⟩
    · obtain ⟨place, back⟩ := of_within digit
      have : c.toNat - '0'.toNat ≤ 9 := place
      cases read
      rw [sextetChar, if_neg (by omega), if_neg (by omega), if_pos (by omega),
        Nat.add_sub_cancel, back]
      exact ⟨by omega, rfl⟩
    · cases read
      exact ⟨by decide, plus⟩
    · cases read
      exact ⟨by decide, slash⟩
  · rintro ⟨bound, rfl⟩
    exact sextet?_sextetChar bound

theorem ofNat_eq {n : Nat} {byte : UInt8} (h : n = byte.toNat) : UInt8.ofNat n = byte := by
  rw [h, UInt8.ofNat_toNat]

theorem toNat_ofNat {n : Nat} (h : n < 256) : (UInt8.ofNat n).toNat = n := by
  rw [UInt8.toNat_ofNat']
  exact Nat.mod_eq_of_lt h

section

variable {a b c d : Char} {bytes : List UInt8}

theorem decodeOne_eq_some : decodeOne a b = some bytes ↔
    ∃ p, bytes = [p] ∧ [a, b, fill, fill] = encode [p] := by
  simp only [decodeOne, Option.bind_eq_bind, Option.bind_eq_some_iff, Option.pure_def,
    Option.some.injEq, Option.guard_eq_some', exists_const, sextet?_eq_some]
  constructor
  · rintro ⟨x, ⟨hx, rfl⟩, y, ⟨hy, rfl⟩, unused, rfl⟩
    have first : (x * 4 + y / 16) / 4 = x := by omega
    have second : (x * 4 + y / 16) % 4 * 16 = y := by omega
    refine ⟨_, rfl, ?_⟩
    rw [encode, toNat_ofNat (by omega), first, second]
  · rintro ⟨p, rfl, equal⟩
    rw [encode] at equal
    cases equal
    have := p.toNat_lt
    refine ⟨_, ⟨by omega, rfl⟩, _, ⟨by omega, rfl⟩, by omega, ?_⟩
    rw [ofNat_eq (show _ = p.toNat by omega)]

theorem decodeTwo_eq_some : decodeTwo a b c = some bytes ↔
    ∃ p q, bytes = [p, q] ∧ [a, b, c, fill] = encode [p, q] := by
  simp only [decodeTwo, Option.bind_eq_bind, Option.bind_eq_some_iff, Option.pure_def,
    Option.some.injEq, Option.guard_eq_some', exists_const, sextet?_eq_some]
  constructor
  · rintro ⟨x, ⟨hx, rfl⟩, y, ⟨hy, rfl⟩, z, ⟨hz, rfl⟩, unused, rfl⟩
    have first : (x * 4 + y / 16) / 4 = x := by omega
    have second : (x * 4 + y / 16) % 4 * 16 + (y % 16 * 16 + z / 4) / 16 = y := by omega
    have third : (y % 16 * 16 + z / 4) % 16 * 4 = z := by omega
    refine ⟨_, _, rfl, ?_⟩
    rw [encode, toNat_ofNat (by omega), toNat_ofNat (by omega), first, second, third]
  · rintro ⟨p, q, rfl, equal⟩
    rw [encode] at equal
    cases equal
    have := p.toNat_lt
    have := q.toNat_lt
    refine ⟨_, ⟨by omega, rfl⟩, _, ⟨by omega, rfl⟩, _, ⟨by omega, rfl⟩, by omega, ?_⟩
    rw [ofNat_eq (show _ = p.toNat by omega), ofNat_eq (show _ = q.toNat by omega)]

theorem decodeThree_eq_some : decodeThree a b c d = some bytes ↔
    ∃ p q r, bytes = [p, q, r] ∧ [a, b, c, d] = encode [p, q, r] := by
  simp only [decodeThree, Option.bind_eq_bind, Option.bind_eq_some_iff, Option.pure_def,
    Option.some.injEq, sextet?_eq_some]
  constructor
  · rintro ⟨x, ⟨hx, rfl⟩, y, ⟨hy, rfl⟩, z, ⟨hz, rfl⟩, w, ⟨hw, rfl⟩, rfl⟩
    have first : (x * 4 + y / 16) / 4 = x := by omega
    have second : (x * 4 + y / 16) % 4 * 16 + (y % 16 * 16 + z / 4) / 16 = y := by omega
    have third : (y % 16 * 16 + z / 4) % 16 * 4 + (z % 4 * 64 + w) / 64 = z := by omega
    have fourth : (z % 4 * 64 + w) % 64 = w := by omega
    refine ⟨_, _, _, rfl, ?_⟩
    rw [encode, toNat_ofNat (by omega), toNat_ofNat (by omega), toNat_ofNat (by omega), first,
      second, third, fourth, encode]
  · rintro ⟨p, q, r, rfl, equal⟩
    rw [encode] at equal
    cases equal
    have := p.toNat_lt
    have := q.toNat_lt
    have := r.toNat_lt
    refine ⟨_, ⟨by omega, rfl⟩, _, ⟨by omega, rfl⟩, _, ⟨by omega, rfl⟩, _, ⟨by omega, rfl⟩, ?_⟩
    rw [ofNat_eq (show _ = p.toNat by omega), ofNat_eq (show _ = q.toNat by omega),
      ofNat_eq (show _ = r.toNat by omega)]

end

theorem decode_encode (bytes : List UInt8) : decode (encode bytes) = some bytes := by
  fun_induction encode bytes with
  | case1 => rfl
  | case2 a =>
    rw [decode, if_pos ⟨rfl, rfl⟩, if_pos rfl]
    exact decodeOne_eq_some.mpr ⟨a, rfl, rfl⟩
  | case3 a b =>
    have := b.toNat_lt
    rw [decode, if_pos ⟨rfl, rfl⟩, if_neg (sextetChar_ne_fill (by omega))]
    exact decodeTwo_eq_some.mpr ⟨a, b, rfl, rfl⟩
  | case4 a b c rest ih =>
    have group := decodeThree_eq_some.mpr ⟨a, b, c, rfl, rfl⟩
    have full : sextetChar (c.toNat % 64) ≠ fill := sextetChar_ne_fill (by omega)
    rw [decode, if_neg fun last => full last.2, group, ih]
    rfl

/-- What is read is the text of some bytes, and it is read as these. -/
theorem decode_eq_some_iff {text : List Char} {bytes : List UInt8} :
    decode text = some bytes ↔ text = encode bytes := by
  constructor
  · intro read
    fun_induction decode text generalizing bytes with
    | case1 =>
      cases read
      rfl
    | case2 a b d rest last =>
      obtain ⟨rfl, rfl⟩ := last
      obtain ⟨p, rfl, equal⟩ := decodeOne_eq_some.mp read
      exact equal
    | case3 a b c d rest last short =>
      obtain ⟨rfl, rfl⟩ := last
      obtain ⟨p, q, rfl, equal⟩ := decodeTwo_eq_some.mp read
      exact equal
    | case4 a b c d rest more ih =>
      simp only [Option.bind_eq_bind, Option.bind_eq_some_iff, Option.pure_def,
        Option.some.injEq] at read
      obtain ⟨group, first, behind, others, rfl⟩ := read
      obtain ⟨p, q, r, rfl, equal⟩ := decodeThree_eq_some.mp first
      calc a :: b :: c :: d :: rest
        _ = [a, b, c, d] ++ encode behind := by rw [ih others]; rfl
        _ = encode ([p, q, r] ++ behind) := by rw [equal]; rfl
    | case5 => cases read
  · rintro rfl
    exact decode_encode bytes

end ConfigRecovery.Base64
