import Mathlib
import ConfigRecovery.Json.Printer
import ConfigRecovery.Json.Token

/-!
# Scalars read back

An integer of 64 bits, written in decimal, and a text in quotes are read as themselves, and reading
stops just behind them. A numeral ends only where no digit, point or exponent follows it.
-/

namespace ConfigRecovery

/-! ## Digits -/

namespace Decimal

theorem digit?_digitChar {d : Nat} (small : d < 10) : digit? (digitChar d) = some d := by
  interval_cases d <;> rfl

theorem isDigit_digitChar {d : Nat} (small : d < 10) : (digitChar d).isDigit = true := by
  interval_cases d <;> rfl

theorem lt_of_mem_ofNat {n d : Nat} (member : d ∈ ofNat n) : d < 10 := by
  fun_induction ofNat n with
  | case1 n small =>
    rw [List.mem_singleton.mp member]
    exact small
  | case2 n large ih =>
    rcases List.mem_append.mp member with front | last
    · exact ih front
    · rw [List.mem_singleton.mp last]
      exact Nat.mod_lt n (by decide)

theorem ofNat_ne_nil (n : Nat) : ofNat n ≠ [] := by
  rw [ofNat]
  split <;> simp

theorem exists_text_cons (n : Nat) : ∃ c rest, text n = c :: rest ∧ c.isDigit = true := by
  obtain ⟨d, digits, whole⟩ := List.exists_cons_of_ne_nil (ofNat_ne_nil n)
  have small : d < 10 := lt_of_mem_ofNat (whole ▸ List.mem_cons_self)
  refine ⟨digitChar d, digits.map digitChar, ?_, isDigit_digitChar small⟩
  rw [text, whole, List.map_cons]

/-- The first digit of a number that is not zero is not zero. -/
theorem ofNat_eq_zero_cons {n : Nat} {rest : List Nat} (digits : ofNat n = 0 :: rest) : n = 0 := by
  fun_induction ofNat n generalizing rest with
  | case1 n small => exact (List.cons.inj digits).1
  | case2 n large ih =>
    cases front : ofNat (n / 10) with
    | nil => exact absurd front (ofNat_ne_nil _)
    | cons d more =>
      rw [front, List.cons_append] at digits
      rw [(List.cons.inj digits).1] at front
      have := ih front
      omega

/-- Digits that are absorbed give the number back, and go on to whatever follows them. -/
theorem absorb_ofNat {bound n : Nat} (within : n ≤ bound) (more : List Nat) :
    absorb bound 0 (ofNat n ++ more) = absorb bound n more := by
  fun_induction ofNat n generalizing more with
  | case1 n small =>
    rw [List.singleton_append, absorb, Nat.zero_mul, Nat.zero_add, if_pos within]
  | case2 n large ih =>
    have whole : n / 10 * 10 + n % 10 = n := Nat.div_add_mod' n 10
    rw [List.append_assoc, ih (by omega), List.singleton_append, absorb, whole, if_pos within]

theorem readDigits_text (n : Nat) {rest : List Char}
    (ends : ∀ c ∈ rest.head?, c.isDigit = false) :
    readDigits (text n ++ rest) = (ofNat n, rest) := by
  have digits : ∀ c ∈ text n, c.isDigit = true := by
    intro c member
    obtain ⟨d, there, rfl⟩ := List.mem_map.mp member
    exact isDigit_digitChar (lt_of_mem_ofNat there)
  have values : (text n).filterMap digit? = ofNat n := by
    rw [text, List.filterMap_map]
    exact (List.filterMap_congr fun d member => digit?_digitChar (lt_of_mem_ofNat member)).trans
      List.filterMap_some
  have stop : rest.takeWhile Char.isDigit = [] ∧ rest.dropWhile Char.isDigit = rest := by
    cases rest with
    | nil => exact ⟨rfl, rfl⟩
    | cons c rest => simp [ends c rfl]
  rw [readDigits, List.takeWhile_append_of_pos digits, List.dropWhile_append_of_pos digits, stop.1,
    stop.2, List.append_nil, values]

end Decimal

namespace Json

/-! ## Integers -/

/-- No number goes on in this text. -/
def Ends (rest : List Char) : Prop :=
  ∀ c ∈ rest.head?, c.isDigit = false ∧ c ≠ '.' ∧ c ≠ 'e' ∧ c ≠ 'E'

/-- Integers of 64 bits, with a sign or without. -/
def Number.IsWord : Number → Prop
  | .int n => -2 ^ 63 ≤ n ∧ n < 2 ^ 64
  | .float _ => False

namespace Numeral

theorem readDigits_text (n : Nat) {rest : List Char} (ends : Ends rest) :
    readDigits (Decimal.text n ++ rest) = .ok (Decimal.ofNat n, rest) := by
  rw [readDigits, Decimal.readDigits_text n fun c first => (ends c first).1]
  split
  · rename_i empty
    exact absurd (Prod.mk.inj empty).1 (Decimal.ofNat_ne_nil n)
  · rename_i empty
    exact absurd (Prod.mk.inj empty).1 (Decimal.ofNat_ne_nil n)
  · rfl

theorem readWhole_text (n : Nat) {rest : List Char} (ends : Ends rest) :
    readWhole (Decimal.text n ++ rest) = .ok (Decimal.ofNat n, rest) := by
  simp only [readWhole, readDigits_text n ends, bind, Except.bind]
  split
  · rename_i zero
    have digits := (Prod.mk.inj zero).1
    rw [Decimal.ofNat_eq_zero_cons digits, Decimal.ofNat] at digits
    cases digits
  · rfl

theorem readFraction_of_ends {rest : List Char} (ends : Ends rest) :
    readFraction rest = .ok ([], rest) := by
  unfold readFraction
  split
  · exact absurd rfl (ends '.' rfl).2.1
  · rfl

theorem readExponent_of_ends {rest : List Char} (ends : Ends rest) :
    readExponent rest = .ok ((false, []), rest) := by
  unfold readExponent
  split
  · exact absurd rfl (ends 'e' rfl).2.2.1
  · exact absurd rfl (ends 'E' rfl).2.2.2
  · rfl

theorem readUnsigned_text (negative : Bool) (n : Nat) {rest : List Char} (ends : Ends rest) :
    readUnsigned negative (Decimal.text n ++ rest) =
      .ok (⟨negative, Decimal.ofNat n, [], false, []⟩, rest) := by
  simp only [readUnsigned, readWhole_text n ends, readFraction_of_ends ends,
    readExponent_of_ends ends, bind, Except.bind, pure, Except.pure]

theorem value_ofNat (negative : Bool) {n : Nat} (within : n ≤ maxSignificand) :
    value ⟨negative, Decimal.ofNat n, [], false, []⟩ = .ok (ofSignificand negative n) := by
  have absorbed : Decimal.absorb maxSignificand 0 (Decimal.ofNat n) = (n, []) := by
    have whole := Decimal.absorb_ofNat within []
    rwa [List.append_nil] at whole
  simp [value, significand, isInteger, absorbed, Decimal.absorb]

theorem read_intText (n : Int) {rest : List Char} (ends : Ends rest) :
    read (Number.intText n ++ rest) =
      .ok (⟨decide (n < 0), Decimal.ofNat n.natAbs, [], false, []⟩, rest) := by
  rw [Number.intText]
  by_cases negative : n < 0
  · rw [if_pos negative, List.cons_append, read, readUnsigned_text true n.natAbs ends,
      decide_eq_true negative]
  · obtain ⟨c, digits, whole, digit⟩ := Decimal.exists_text_cons n.natAbs
    have plain : ∀ text, Decimal.text n.natAbs ++ rest ≠ '-' :: text := by
      intro text minus
      rw [whole, List.cons_append] at minus
      rw [(List.cons.inj minus).1] at digit
      cases digit
    rw [if_neg negative, read.eq_2 _ plain, readUnsigned_text false n.natAbs ends,
      decide_eq_false negative]

theorem ofSignificand_natAbs {n : Int} (low : -2 ^ 63 ≤ n) :
    ofSignificand (decide (n < 0)) n.natAbs = .int n := by
  have half : UInt64.size / 2 = 2 ^ 63 := by decide
  unfold ofSignificand
  by_cases negative : n < 0
  · rw [decide_eq_true negative, if_neg (by decide), if_neg (by omega)]
    congr 1
    omega
  · rw [decide_eq_false negative, if_pos (by decide)]
    congr 1
    omega

end Numeral

theorem readNumber_text {number : Number} (word : number.IsWord) {rest : List Char}
    (ends : Ends rest) : readNumber (number.text ++ rest) = .ok (.number number, rest) := by
  cases number with
  | float f => exact word.elim
  | int n =>
    have within : n.natAbs ≤ Numeral.maxSignificand := by
      have size : Numeral.maxSignificand = 2 ^ 64 - 1 := by decide
      have bounds : -2 ^ 63 ≤ n ∧ n < 2 ^ 64 := word
      omega
    simp only [readNumber, Number.text, Numeral.read_intText n ends, Numeral.value_ofNat _ within,
      Numeral.ofSignificand_natAbs word.1, bind, Except.bind, pure, Except.pure]

theorem exists_text_cons {number : Number} (word : number.IsWord) :
    ∃ c rest, number.text = c :: rest ∧ (c = '-' ∨ c.isDigit = true) := by
  cases number with
  | float f => exact word.elim
  | int n =>
    rw [Number.text, Number.intText]
    split
    · exact ⟨'-', _, rfl, .inl rfl⟩
    · obtain ⟨c, rest, whole, digit⟩ := Decimal.exists_text_cons n.natAbs
      exact ⟨c, rest, whole, .inr digit⟩

/-! ## Quoted texts -/

namespace Quoted

theorem hexValue?_hexChar {n : Nat} (small : n < 16) : hexValue? (hexChar n) = some n := by
  interval_cases n <;> rfl

theorem shortEscape?_eq_some {c letter : Char} (short : shortEscape? c = some letter) :
    ofShortEscape? letter = some c ∧ letter ≠ 'u' := by
  unfold shortEscape? at short
  split_ifs at short with h₁ h₂ h₃ h₄ h₅ h₆ h₇
  all_goals
    cases short
    subst c
    exact ⟨rfl, by decide⟩

/-- A control character is the code unit of its four digits. -/
theorem unit?_control {c : Char} (control : isControl c = true) :
    unit? '0' '0' (hexChar (c.toNat / 16)) (hexChar (c.toNat % 16)) = some c.toNat := by
  have small : c.toNat < 32 := of_decide_eq_true control
  have zero : hexValue? '0' = some 0 := rfl
  rw [unit?, zero, hexValue?_hexChar (by omega), hexValue?_hexChar (by omega)]
  simp only [bind, Option.bind, pure, Option.some.injEq]
  omega

theorem read_encodeChar (done : List Char) (c : Char) (rest : List Char) :
    read done (encodeChar c ++ rest) = read (c :: done) rest := by
  unfold encodeChar
  cases short : shortEscape? c with
  | some letter =>
    -- a letter other than `u` leaves the reader only the short escapes
    obtain ⟨back, other⟩ := shortEscape?_eq_some short
    simp only [List.cons_append, List.nil_append]
    rw [read.eq_6 _ _ _ (fun _ _ _ _ _ equal => absurd equal other) (absurd · other), back]
  | none =>
    cases control : isControl c with
    | true =>
      -- the code unit stands for itself: it is far below the surrogates
      have small : c.toNat < 32 := of_decide_eq_true control
      have low : isLowSurrogate c.toNat = false := by
        rw [isLowSurrogate, decide_eq_false (by omega), Bool.false_and]
      have high : isHighSurrogate c.toNat = false := by
        rw [isHighSurrogate, decide_eq_false (by omega), Bool.false_and]
      simp only [if_true, List.cons_append, List.nil_append]
      rw [read]
      simp only [unit?_control control, low, high, Bool.false_eq_true, if_false, Char.ofNat_toNat]
    | false =>
      have quote : c ≠ '"' := by
        rintro rfl
        cases short
      have backslash : c ≠ '\\' := by
        rintro rfl
        cases short
      simp only [Bool.false_eq_true, if_false, List.cons_append, List.nil_append]
      rw [read.eq_7 _ _ _ quote (absurd · backslash) (fun _ _ _ _ _ equal => absurd equal backslash)
        (fun _ equal => absurd equal backslash) (fun _ _ equal => absurd equal backslash), control,
        if_neg Bool.false_ne_true]

theorem read_encode (text rest done : List Char) :
    read done (text.flatMap encodeChar ++ '"' :: rest) = .ok (done.reverse ++ text, rest) := by
  induction text generalizing done with
  | nil => simp [read]
  | cons c text ih =>
    rw [List.flatMap_cons, List.append_assoc, read_encodeChar, ih, List.reverse_cons,
      List.append_assoc, List.singleton_append]

end Quoted

/-! ## Tokens -/

theorem readWord_append (word rest : List Char) : readWord word (word ++ rest) = .ok rest := by
  induction word with
  | nil => rfl
  | cons w word ih => rw [List.cons_append, readWord, if_pos rfl, ih]

theorem ne_of_starts_number {c d : Char} (starts : c = '-' ∨ c.isDigit = true) (hyphen : d ≠ '-')
    (digit : d.isDigit = false) : c ≠ d := by
  rintro rfl
  rcases starts with equal | found
  · exact hyphen equal
  · rw [digit] at found
    cases found

theorem not_blank_of_starts_number {c : Char} (starts : c = '-' ∨ c.isDigit = true) :
    isBlank c = false := by
  simp [isBlank, ne_of_starts_number starts]

namespace Lexeme

theorem read_number {c : Char} (starts : c = '-' ∨ c.isDigit = true) (rest : List Char) :
    Lexeme.read c rest = ofScalar (readNumber (c :: rest)) := by
  have number : (c = '-' || c.isDigit) = true := by simpa using starts
  simp [Lexeme.read, ne_of_starts_number starts, number]

theorem read_string (text : String) (rest : List Char) :
    Lexeme.read '"' (text.toList.flatMap Quoted.encodeChar ++ '"' :: rest) =
      (.string text, rest) := by
  simp [Lexeme.read, Quoted.read_encode, ofString]

end Lexeme

end Json

end ConfigRecovery
