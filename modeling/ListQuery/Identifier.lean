set_option autoImplicit false

/-!
Document identifiers: twelve bytes, written as 24 hexadecimal digits. Digits of either case are
read and lowercase ones are written.
-/

namespace ListQuery

namespace Hex

/-- The value of a hexadecimal digit of ASCII. -/
def value? (c : Char) : Option Nat :=
  if '0' ≤ c ∧ c ≤ '9' then some (c.toNat - 48)
  else if 'a' ≤ c ∧ c ≤ 'f' then some (c.toNat - 87)
  else if 'A' ≤ c ∧ c ≤ 'F' then some (c.toNat - 55)
  else none

def isDigit (c : Char) : Bool := (value? c).isSome

/-- The digits of each byte, the high one first. -/
def encode : List UInt8 → List Char
  | [] => []
  | byte :: rest =>
    Nat.digitChar (byte.toNat / 16) :: Nat.digitChar (byte.toNat % 16) :: encode rest

/-- The bytes of a text that is pairs of digits. -/
def decode? : List Char → Option (List UInt8)
  | [] => some []
  | [_] => none
  | high :: low :: rest =>
    match value? high, value? low, decode? rest with
    | some upper, some lower, some bytes => some (UInt8.ofNat (16 * upper + lower) :: bytes)
    | _, _, _ => none

theorem length_of_decode? {text : List Char} {bytes : List UInt8}
    (read : decode? text = some bytes) : text.length = 2 * bytes.length := by
  fun_induction decode? text generalizing bytes with
  | case1 => simp_all
  | case2 => simp at read
  | case3 high low rest upper lower tail others _ _ ih =>
    simp only [Option.some.injEq] at read
    subst read
    simp only [List.length_cons, ih others]
    omega
  | case4 => simp at read

theorem decode?_encode (bytes : List UInt8) : decode? (encode bytes) = some bytes := by
  have digit : ∀ n < 16, value? (Nat.digitChar n) = some n := by decide
  induction bytes with
  | nil => rfl
  | cons byte rest ih =>
    have bound := byte.toNat_lt
    have upper := digit (byte.toNat / 16) (by omega)
    have lower := digit (byte.toNat % 16) (by omega)
    simp only [encode, decode?, upper, lower, ih, Option.some.injEq, List.cons.injEq, and_true]
    rw [Nat.div_add_mod]
    exact UInt8.ofNat_toNat

theorem isSome_decode?_iff (text : List Char) :
    (decode? text).isSome = true ↔ text.length % 2 = 0 ∧ text.all isDigit = true := by
  fun_induction decode? text with
  | case1 => simp
  | case2 => simp
  | case3 high low rest upper lower bytes tail second first ih =>
    have length : (high :: low :: rest).length % 2 = rest.length % 2 := by
      simp only [List.length_cons]
      omega
    rw [tail] at ih
    rw [length, List.all_cons, List.all_cons, isDigit, isDigit, first, second]
    simpa using ih
  | case4 high low rest unread ih =>
    have length : (high :: low :: rest).length % 2 = rest.length % 2 := by
      simp only [List.length_cons]
      omega
    rw [length, List.all_cons, List.all_cons, isDigit, isDigit]
    cases first : value? high with
    | none => simp
    | some upper =>
      cases second : value? low with
      | none => simp
      | some lower =>
        cases tail : decode? rest with
        | none => simpa [tail] using ih
        | some bytes => exact absurd tail (unread upper lower bytes first second)

end Hex

structure Identifier where
  bytes : List UInt8
  length_bytes : bytes.length = 12
  deriving DecidableEq

namespace Identifier

def toHex (id : Identifier) : String := String.ofList (Hex.encode id.bytes)

/-- Whether a text has the shape of an identifier: 24 hexadecimal digits and nothing else. -/
def hasShape (text : String) : Bool := text.toList.length == 24 && text.toList.all Hex.isDigit

def ofHex? (text : String) : Option Identifier :=
  match Hex.decode? text.toList with
  | none => none
  | some bytes => if twelve : bytes.length = 12 then some ⟨bytes, twelve⟩ else none

theorem ofHex?_toHex (id : Identifier) : ofHex? id.toHex = some id := by
  simp [ofHex?, toHex, Hex.decode?_encode, id.length_bytes]

theorem isSome_ofHex?_iff (text : String) :
    (ofHex? text).isSome = true ↔ hasShape text = true := by
  have pairs := Hex.isSome_decode?_iff text.toList
  simp only [hasShape, Bool.and_eq_true, beq_iff_eq]
  unfold ofHex?
  cases read : Hex.decode? text.toList with
  | none =>
    rw [read] at pairs
    constructor
    · intro impossible
      cases impossible
    · intro ⟨length, digits⟩
      exact absurd (pairs.mpr ⟨by omega, digits⟩) (by simp)
  | some bytes =>
    rw [read] at pairs
    have length := Hex.length_of_decode? read
    have digits := (pairs.mp rfl).2
    by_cases twelve : bytes.length = 12
    · simp only [twelve, dite_true, Option.isSome_some, true_iff]
      exact ⟨by omega, digits⟩
    · simp only [twelve, dite_false, Option.isSome_none, Bool.false_eq_true, false_iff, not_and]
      intro wrong
      omega

end Identifier

end ListQuery
