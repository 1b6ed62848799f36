import ListQuery.Number.Numeral
import Mathlib.Algebra.Group.Int.Defs

set_option autoImplicit false

/-!
What numerals of any length denote, and which of them are read: exactly those of the signed 64-bit
numbers (`Number.readInt64_eq_ok_iff`), however many zeros they start with.
-/

namespace ListQuery.Number

/-- Digits of ASCII, at least one of them and nothing else. -/
def IsDigits (text : List Char) : Prop := text ≠ [] ∧ ∀ c ∈ text, c.isDigit = true

/-- The whole number that a numeral denotes: at most one sign, then digits. -/
inductive Denotes : List Char → Int → Prop
  | bare {digits : List Char} : IsDigits digits → Denotes digits (Nat.ofDigitChars 10 digits 0)
  | plus {digits : List Char} : IsDigits digits →
    Denotes ('+' :: digits) (Nat.ofDigitChars 10 digits 0)
  | minus {digits : List Char} : IsDigits digits →
    Denotes ('-' :: digits) (-(Nat.ofDigitChars 10 digits 0 : Int))

theorem digitValue?_of_isDigit {c : Char} (digit : c.isDigit = true) :
    digitValue? c = some (c.toNat - '0'.toNat) := by
  have range : '0' ≤ c ∧ c ≤ '9' := Char.isDigit_iff_toNat.mp digit
  rw [digitValue?, if_pos range]

theorem digitValue?_of_not_isDigit {c : Char} (other : c.isDigit = false) :
    digitValue? c = none := by
  have outside : ¬ ('0' ≤ c ∧ c ≤ '9') := by
    intro range
    have digit : c.isDigit = true := Char.isDigit_iff_toNat.mpr range
    rw [other] at digit
    cases digit
  rw [digitValue?, if_neg outside]

theorem le_ofDigitChars (digits : List Char) (value : Nat) :
    value ≤ Nat.ofDigitChars 10 digits value := by
  induction digits generalizing value with
  | nil => exact Nat.le_refl value
  | cons c rest ih =>
    have step := ih (10 * value + (c.toNat - '0'.toNat))
    rw [Nat.ofDigitChars_cons]
    omega

/-- The limit is passed on the way exactly if the whole number is past it. -/
theorem readDigits_eq_ok_iff {limit value number : Nat} {beyond : NumeralFault}
    (within : value ≤ limit) {text : List Char} :
    readDigits limit beyond value text = .ok number ↔
      (∀ c ∈ text, c.isDigit = true) ∧ number = Nat.ofDigitChars 10 text value ∧
        number ≤ limit := by
  induction text generalizing value with
  | nil =>
    simp only [readDigits, Except.ok.injEq, List.not_mem_nil, false_implies, implies_true, true_and,
      Nat.ofDigitChars_nil]
    omega
  | cons c rest ih =>
    cases digit : c.isDigit with
    | false => simp [readDigits, digitValue?_of_not_isDigit digit, digit]
    | true =>
      have grown := le_ofDigitChars rest (10 * value + (c.toNat - '0'.toNat))
      simp only [readDigits, digitValue?_of_isDigit digit, List.forall_mem_cons, digit, true_and,
        Nat.ofDigitChars_cons]
      split
      · rename_i next
        exact ih next
      · rename_i past
        -- Past the limit is past it for good, since further digits make no value smaller.
        simp only [reduceCtorEq, false_iff, not_and]
        intro _ whole
        omega

theorem readMagnitude_eq_ok_iff {limit number : Nat} {beyond : NumeralFault} {text : List Char} :
    readMagnitude limit beyond text = .ok number ↔
      IsDigits text ∧ number = Nat.ofDigitChars 10 text 0 ∧ number ≤ limit := by
  cases text with
  | nil => simp [readMagnitude, IsDigits]
  | cons c rest =>
    have read := @readDigits_eq_ok_iff limit 0 number beyond (Nat.zero_le limit) (c :: rest)
    simp only [readMagnitude, read, IsDigits, ne_eq, reduceCtorEq, not_false_eq_true, true_and]

theorem map_readMagnitude_eq_ok_iff {limit : Nat} {beyond : NumeralFault} {text : List Char}
    {sign : Nat → Int64} {number : Int64} :
    (readMagnitude limit beyond text).map sign = .ok number ↔
      IsDigits text ∧ Nat.ofDigitChars 10 text 0 ≤ limit ∧
        sign (Nat.ofDigitChars 10 text 0) = number := by
  have read := @readMagnitude_eq_ok_iff limit (Nat.ofDigitChars 10 text 0) beyond text
  constructor
  · intro success
    cases found : readMagnitude limit beyond text with
    | error fault =>
      rw [found] at success
      cases success
    | ok magnitude =>
      obtain ⟨digits, rfl, within⟩ := readMagnitude_eq_ok_iff.mp found
      rw [found] at success
      exact ⟨digits, within, Except.ok.inj success⟩
  · rintro ⟨digits, within, rfl⟩
    rw [read.mpr ⟨digits, rfl, within⟩]
    rfl

theorem denotes_nil_iff {value : Int} : Denotes [] value ↔ False := by
  rw [iff_false]
  intro denotes
  cases denotes with
  | bare digits => exact digits.1 rfl

theorem denotes_plus_iff {digits : List Char} {value : Int} :
    Denotes ('+' :: digits) value ↔
      IsDigits digits ∧ value = Nat.ofDigitChars 10 digits 0 := by
  constructor
  · intro denotes
    cases denotes with
    | bare digits => exact absurd (digits.2 '+' (List.mem_cons_self ..)) (by decide)
    | plus digits => exact ⟨digits, rfl⟩
  · rintro ⟨digits, rfl⟩
    exact .plus digits

theorem denotes_minus_iff {digits : List Char} {value : Int} :
    Denotes ('-' :: digits) value ↔
      IsDigits digits ∧ value = -(Nat.ofDigitChars 10 digits 0 : Int) := by
  constructor
  · intro denotes
    cases denotes with
    | bare digits => exact absurd (digits.2 '-' (List.mem_cons_self ..)) (by decide)
    | minus digits => exact ⟨digits, rfl⟩
  · rintro ⟨digits, rfl⟩
    exact .minus digits

theorem denotes_bare_iff {text : List Char} (plus : ∀ rest, text ≠ '+' :: rest)
    (minus : ∀ rest, text ≠ '-' :: rest) {value : Int} :
    Denotes text value ↔ IsDigits text ∧ value = Nat.ofDigitChars 10 text 0 := by
  constructor
  · intro denotes
    cases denotes with
    | bare digits => exact ⟨digits, rfl⟩
    | plus digits => exact absurd rfl (plus _)
    | minus digits => exact absurd rfl (minus _)
  · rintro ⟨digits, rfl⟩
    exact .bare digits

theorem Denotes.unique {text : List Char} {first second : Int} (one : Denotes text first)
    (two : Denotes text second) : first = second := by
  cases one with
  | bare digits =>
    have unsigned : ∀ sign : Char, sign.isDigit = false → ∀ rest, text ≠ sign :: rest := by
      rintro sign other rest rfl
      rw [digits.2 sign (List.mem_cons_self ..)] at other
      cases other
    exact ((denotes_bare_iff (unsigned '+' (by decide)) (unsigned '-' (by decide))).mp two).2.symm
  | plus digits => exact (denotes_plus_iff.mp two).2.symm
  | minus digits => exact (denotes_minus_iff.mp two).2.symm

theorem ofInt_eq_iff {value : Int} (least : -2 ^ 63 ≤ value) (greatest : value < 2 ^ 63)
    {number : Int64} : Int64.ofInt value = number ↔ number.toInt = value := by
  have same := Int64.toInt_ofInt_of_le least greatest
  rw [← Int64.toInt_inj, same, eq_comm]

theorem map_readMagnitude_ofInt_eq_ok_iff {text : List Char} {number : Int64} :
    (readMagnitude ((1 <<< 63) - 1) .tooLarge text).map
        (fun magnitude : Nat => Int64.ofInt magnitude) = .ok number ↔
      IsDigits text ∧ number.toInt = Nat.ofDigitChars 10 text 0 := by
  have limit : (1 <<< 63) - 1 = 9223372036854775807 := rfl
  have greatest := number.toInt_lt
  rw [map_readMagnitude_eq_ok_iff, limit]
  refine and_congr_right fun _ => ⟨?_, ?_⟩
  · rintro ⟨within, equal⟩
    exact (ofInt_eq_iff (by omega) (by omega)).mp equal
  · intro equal
    exact ⟨by omega, (ofInt_eq_iff (by omega) (by omega)).mpr equal⟩

/-- The numerals that are read are those of the signed 64-bit numbers. -/
theorem readInt64_eq_ok_iff {text : List Char} {number : Int64} :
    readInt64 text = .ok number ↔ Denotes text number.toInt := by
  unfold readInt64
  split
  · rw [denotes_nil_iff]
    exact ⟨nofun, nofun⟩
  · rename_i digits
    have limit : 1 <<< 63 = 9223372036854775808 := rfl
    have least := number.le_toInt
    rw [map_readMagnitude_eq_ok_iff, denotes_minus_iff, limit]
    refine and_congr_right fun _ => ⟨?_, ?_⟩
    · rintro ⟨within, equal⟩
      exact (ofInt_eq_iff (by omega) (by omega)).mp equal
    · intro equal
      exact ⟨by omega, (ofInt_eq_iff (by omega) (by omega)).mpr equal⟩
  · rw [map_readMagnitude_ofInt_eq_ok_iff, denotes_plus_iff]
  · rename_i minus plus
    rw [map_readMagnitude_ofInt_eq_ok_iff, denotes_bare_iff plus minus]

theorem readInt64_error_iff {text : List Char} :
    (∃ fault, readInt64 text = .error fault) ↔
      ¬ ∃ value, Denotes text value ∧ -2 ^ 63 ≤ value ∧ value < 2 ^ 63 := by
  constructor
  · rintro ⟨fault, refused⟩ ⟨value, denotes, least, greatest⟩
    have same := Int64.toInt_ofInt_of_le least greatest
    have read : readInt64 text = .ok (Int64.ofInt value) := by
      rw [readInt64_eq_ok_iff, same]
      exact denotes
    rw [refused] at read
    cases read
  · intro beyond
    cases read : readInt64 text with
    | error fault => exact ⟨fault, rfl⟩
    | ok number =>
      have denotes := readInt64_eq_ok_iff.mp read
      exact absurd ⟨number.toInt, denotes, number.le_toInt, number.toInt_lt⟩ beyond

example : readInt64 "-9223372036854775808".toList = .ok Int64.minValue := rfl
example : readInt64 "+09223372036854775807".toList = .ok Int64.maxValue := rfl
example : readInt64 "9223372036854775808".toList = .error .tooLarge := rfl

end ListQuery.Number
