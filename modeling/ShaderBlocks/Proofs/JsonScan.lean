import Mathlib.Data.Nat.Digits.Defs
import ShaderBlocks.Json.Reader
import ShaderBlocks.Json.Writer

/-!
# Written strings and whole numbers are read again

A reader takes a text off if it gives a value and leaves what stands behind the text, provided that
this may stand behind a value. A string in quotes is taken off as the string that was written, since
each escape stands for its character. The digits of a whole number are taken off as this number if
it fits into 64 bits, since no digit and no sign of a fraction stands behind them.
-/

namespace ShaderBlocks.Json

/-! ## Readers -/

/-- What may stand behind a value: nothing, a comma or a closing bracket. -/
def Closes (rest : List Char) : Prop :=
  ∀ c ∈ rest.head?, c = ',' ∨ c = ']' ∨ c = '}'

/-- A reader gives `value` for `text` and leaves what closes it. -/
def Takes {α : Type} (reader : Reader α) (text : List Char) (value : α) : Prop :=
  ∀ rest, Closes rest → reader (text ++ rest) = .ok (value, rest)

/-- A reader goes on where the reader before it has stopped. -/
theorem bind_of_ok {α β : Type} {first : Reader α} {next : α → Reader β} {text rest : List Char}
    {value : α} (reads : first text = .ok (value, rest)) :
    (first >>= next) text = next value rest := by
  change (first text >>= fun result => next result.1 result.2) = _
  rw [reads]
  rfl

/-- A character that is no blank comes next. -/
theorem peek?_cons {c : Char} (solid : isJsonBlank c = false) (rest : List Char) :
    peek? (c :: rest) = .ok (some c, c :: rest) := by
  rw [peek?, List.dropWhile_cons_of_neg (by simp [solid])]
  rfl

/-- The characters that are expected are taken off. -/
theorem expect_append (wanted rest : List Char) :
    expect wanted (wanted ++ rest) = .ok ((), rest) := by
  induction wanted with
  | nil => rfl
  | cons c wanted ih =>
    have isNext : (get : Reader (List Char)) (c :: (wanted ++ rest)) =
        .ok (c :: (wanted ++ rest), c :: (wanted ++ rest)) := rfl
    have taken : (set (wanted ++ rest) : Reader PUnit) (c :: (wanted ++ rest)) =
        .ok (PUnit.unit, wanted ++ rest) := rfl
    rw [List.cons_append, expect, bind_of_ok isNext]
    simp only [if_true]
    rw [bind_of_ok taken]
    exact ih

/-! ## Strings -/

/-- The digits of a number below 16 have its value. -/
theorem hexValue?_hexDigit {n : Nat} (small : n < 16) : hexValue? (hexDigit n) = some n := by
  have each : ∀ m ∈ List.range 16, hexValue? (hexDigit m) = some m := by decide
  exact each n (List.mem_range.mpr small)

/-- The numeric escape of a control character has its code. -/
theorem codeUnit?_control {code : Nat} (control : code < 32) :
    codeUnit? '0' '0' (hexDigit (code / 16)) (hexDigit (code % 16)) = some code := by
  have zero : hexValue? '0' = some 0 := rfl
  have high := hexValue?_hexDigit (show code / 16 < 16 by omega)
  have low := hexValue?_hexDigit (show code % 16 < 16 by omega)
  have sum : ((0 * 16 + 0) * 16 + code / 16) * 16 + code % 16 = code := by omega
  simp only [codeUnit?, zero, high, low, bind, Option.bind, pure, sum]

/-- A short escape stands for its character. -/
theorem stringTail_short {letter c : Char} (short : shortEscape? letter = some c)
    (noCode : letter ≠ 'u') (rest : List Char) :
    stringTail true ('\\' :: letter :: rest) = prepend c (stringTail true rest) := by
  rw [stringTail.eq_def]
  simp [short, noCode]

/-- The numeric escape of a control character stands for it. -/
theorem stringTail_control {c : Char} (control : c.toNat < 32) (rest : List Char) :
    stringTail true ('\\' :: 'u' :: '0' :: '0' :: hexDigit (c.toNat / 16) ::
      hexDigit (c.toNat % 16) :: rest) = prepend c (stringTail true rest) := by
  have noTrailing : isTrailing c.toNat = false := by
    simp only [isTrailing, Bool.and_eq_false_iff, decide_eq_false_iff_not]
    omega
  have noLeading : isLeading c.toNat = false := by
    simp only [isLeading, Bool.and_eq_false_iff, decide_eq_false_iff_not]
    omega
  rw [stringTail, codeUnit?_control control]
  simp [noTrailing, noLeading]

/-- A character that is not escaped stands for itself. -/
theorem stringTail_plain {c : Char} (noQuote : c ≠ '"') (noBackslash : c ≠ '\\')
    (noControl : ¬ c.toNat < 32) (rest : List Char) :
    stringTail true (c :: rest) = prepend c (stringTail true rest) := by
  rw [stringTail, if_neg noControl]
  all_goals grind

/-- What a character becomes inside quotes is read as this character. -/
theorem stringTail_escape (c : Char) (rest : List Char) :
    stringTail true (escape c ++ rest) = prepend c (stringTail true rest) := by
  by_cases short : c ∈ ['"', '\\', '\x08', '\x0c', '\n', '\r', '\t']
  · simp only [List.mem_cons, List.not_mem_nil, or_false] at short
    rcases short with rfl | rfl | rfl | rfl | rfl | rfl | rfl <;>
      exact stringTail_short rfl (by decide) rest
  · simp only [List.mem_cons, List.not_mem_nil, or_false, not_or] at short
    simp only [escape, short, if_false]
    split
    · rename_i control
      exact stringTail_control control rest
    · rename_i noControl
      exact stringTail_plain short.1 short.2.1 noControl rest

/-- A string is read from behind its opening quote as it was written. -/
theorem keepString_escape (text : String) (rest : List Char) :
    keepString (text.toList.flatMap escape ++ '"' :: rest) = .ok (text, rest) := by
  have tail : ∀ letters, stringTail true (letters.flatMap escape ++ '"' :: rest) =
      .ok (letters, rest) := by
    intro letters
    induction letters with
    | nil => rw [List.flatMap_nil, List.nil_append, stringTail]
    | cons c letters ih =>
      rw [List.flatMap_cons, List.append_assoc, stringTail_escape, ih]
      rfl
  rw [keepString, tail]
  simp [Except.map]

/-! ## Whole numbers -/

/-- The value of the digits of a number is the number. -/
theorem digitsValue_toDigits (n : Nat) : digitsValue (Nat.toDigits 10 n) = n := by
  have commuted : (fun (value : Nat) (c : Char) => value * 10 + (c.toNat - '0'.toNat)) =
      fun value c => 10 * value + (c.toNat - '0'.toNat) := by
    funext value c
    rw [Nat.mul_comm]
  rw [digitsValue, commuted, ← Nat.ofDigitChars_eq_foldl]
  exact Nat.ofDigitChars_ten_toDigits

/-- Only zero is written with a zero in front. -/
theorem eq_zero_of_head?_toDigits {n : Nat} (first : (Nat.toDigits 10 n).head? = some '0') :
    n = 0 := by
  induction n using Nat.strong_induction_on with
  | _ n ih =>
    by_cases small : n < 10
    · rw [Nat.toDigits_of_lt_base small, List.head?_cons] at first
      exact Nat.digitChar_eq_zero.mp (Option.some.inj first)
    · obtain ⟨c, others, front⟩ := List.exists_cons_of_ne_nil
        (Nat.toDigits_ne_nil : Nat.toDigits 10 (n / 10) ≠ [])
      rw [Nat.toDigits_of_base_le (by decide) (by omega), front, List.cons_append,
        List.head?_cons] at first
      have quotient := ih (n / 10) (by omega) (by rw [front, List.head?_cons, first])
      omega

/-- Digits are taken off up to what closes them. -/
theorem takeSomeDigits_append {digits rest : List Char} (some : digits ≠ [])
    (areDigits : ∀ c ∈ digits, c.isDigit = true) (closes : Closes rest) :
    takeSomeDigits (digits ++ rest) = .ok (digits, rest) := by
  have stops : rest.takeWhile Char.isDigit = [] ∧ rest.dropWhile Char.isDigit = rest := by
    cases rest with
    | nil => exact ⟨rfl, rfl⟩
    | cons c behind => rcases closes c rfl with rfl | rfl | rfl <;> exact ⟨rfl, rfl⟩
  have taken : takeDigits (digits ++ rest) = .ok (digits, rest) := by
    rw [takeDigits, List.takeWhile_append_of_pos areDigits, List.dropWhile_append_of_pos areDigits,
      stops.1, stops.2, List.append_nil]
  have notEmpty : digits.isEmpty = false := by simpa using some
  rw [takeSomeDigits, bind_of_ok taken]
  simp only [notEmpty]
  rfl

/-- The digits of a whole number are taken off up to what closes it. -/
theorem scanNumber_toDigits (n : Nat) {rest : List Char} (closes : Closes rest) :
    scanNumber (Nat.toDigits 10 n ++ rest) = .ok (⟨Nat.toDigits 10 n, none, none⟩, rest) := by
  have taken := takeSomeDigits_append Nat.toDigits_ne_nil
    (fun c member => Nat.isDigit_of_mem_toDigits (by decide) (by decide) member :
      ∀ c ∈ Nat.toDigits 10 n, c.isDigit = true) closes
  have noZero : ¬ ((Nat.toDigits 10 n).head? = some '0' ∧ 1 < (Nat.toDigits 10 n).length) := by
    rintro ⟨first, more⟩
    rw [eq_zero_of_head?_toDigits first, Nat.toDigits_zero] at more
    exact absurd more (by decide)
  have noPoint : rest.head? ≠ some '.' := by
    intro isPoint
    rcases closes '.' isPoint with same | same | same <;> exact absurd same (by decide)
  have noExponent : ¬ (rest.head? = some 'e' ∨ rest.head? = some 'E') := by
    rintro (isExponent | isExponent) <;>
      rcases closes _ isExponent with same | same | same <;> exact absurd same (by decide)
  have isNext : (get : Reader (List Char)) rest = .ok (rest, rest) := rfl
  rw [scanNumber, bind_of_ok taken]
  simp only [noZero, if_false]
  rw [bind_of_ok isNext]
  simp only [noPoint, if_false]
  rw [bind_of_ok rfl, bind_of_ok isNext]
  simp only [noExponent, if_false]
  rfl

/-- A natural number that fits into 64 bits is kept. -/
theorem takes_keepNumber {n : Nat} (fits : n ≤ 0xFFFFFFFFFFFFFFFF) :
    Takes (keepNumber false) (Nat.toDigits 10 n) (.integer n) := by
  intro rest closes
  have within : ¬ greatestInteger < n := Nat.not_lt.mpr fits
  have kept : NumberText.number? ⟨Nat.toDigits 10 n, none, none⟩ false = some (.integer n) := by
    simp [NumberText.number?, digitsValue_toDigits, within]
  rw [keepNumber, bind_of_ok (scanNumber_toDigits n closes)]
  simp only [kept]
  rfl

/-- A negative number that fits into 64 bits is kept. -/
theorem takes_keepNumber_negative {n : Nat} (positive : 0 < n) (fits : n ≤ 0x8000000000000000) :
    Takes (keepNumber true) (Nat.toDigits 10 n) (.integer (-n)) := by
  intro rest closes
  have within : ¬ greatestInteger < n := Nat.not_lt.mpr (Nat.le_trans fits (by decide))
  have kept : NumberText.number? ⟨Nat.toDigits 10 n, none, none⟩ true = some (.integer (-n)) := by
    simp [NumberText.number?, digitsValue_toDigits, within, positive, fits]
  rw [keepNumber, bind_of_ok (scanNumber_toDigits n closes)]
  simp only [kept]
  rfl

end ShaderBlocks.Json
