import ListQuery.Identifier
import ListQuery.Proofs.PatternMeaning
import ListQuery.Text.Offset

set_option autoImplicit false

/-!
The texts of identifiers. The pattern of 24 hexadecimal digits, the test of the shape and the reader
agree on which they are; reading them pair by pair at byte offsets meets no fault
(`Identifier.ofOffsets_eq`); and an identifier is written as the small letters of any text that it
is read from (`Identifier.text_laws`).
-/

namespace ListQuery

namespace Hex

/-- A number of base sixteen that fits into a byte. A plus sign may stand before the digits. -/
def byte? (text : List Char) : Option UInt8 :=
  let digits := if text.head? = some '+' then text.tail else text
  if digits.isEmpty then none
  else
    match digits.foldlM (fun total c => (value? c).map (16 * total + ·)) 0 with
    | some total => if total < 256 then some (UInt8.ofNat total) else none
    | none => none

theorem isDigit_iff {c : Char} :
    isDigit c = true ↔
      ('0' ≤ c ∧ c ≤ '9') ∨ ('a' ≤ c ∧ c ≤ 'f') ∨ ('A' ≤ c ∧ c ≤ 'F') := by
  unfold isDigit value?
  by_cases decimal : '0' ≤ c ∧ c ≤ '9'
  · simp [decimal]
  · by_cases small : 'a' ≤ c ∧ c ≤ 'f'
    · simp [decimal, small]
    · simp [decimal, small]

theorem isDigit_eq_isHexDigit (c : Char) : isDigit c = c.isHexDigit := by
  apply Bool.eq_iff_iff.mpr
  rw [isDigit_iff]
  simp only [Char.isHexDigit, Char.isDigit, Bool.or_eq_true, Bool.and_eq_true, decide_eq_true_eq,
    ge_iff_le, or_assoc]
  rfl

theorem toNat_le_of_isDigit {c : Char} (digit : isDigit c = true) : c.toNat ≤ 102 := by
  have bound : ∀ last : Char, c ≤ last → c.toNat ≤ last.toNat := fun _ le => le
  rcases isDigit_iff.mp digit with ⟨-, last⟩ | ⟨-, last⟩ | ⟨-, last⟩
  · exact Nat.le_trans (bound '9' last) (by decide)
  · exact bound 'f' last
  · exact Nat.le_trans (bound 'F' last) (by decide)

theorem utf8Size_of_isDigit {c : Char} (digit : isDigit c = true) : c.utf8Size = 1 := by
  apply Char.utf8Size_eq_one_iff.mpr
  exact Nat.le_trans (toNat_le_of_isDigit digit) (by decide)

/-- A digit is written as its small form. -/
theorem digitChar_of_value? {c : Char} {value : Nat} (read : value? c = some value) :
    value < 16 ∧ Nat.digitChar value = c.toLower := by
  have each : ∀ code ≤ 102, (value? (Char.ofNat code)).all fun held =>
      decide (held < 16 ∧ Nat.digitChar held = (Char.ofNat code).toLower) := by decide
  have digit : isDigit c = true := by
    rw [isDigit, read]
    rfl
  have written := each c.toNat (toNat_le_of_isDigit digit)
  rw [Char.ofNat_toNat, read] at written
  exact of_decide_eq_true written

/-- What bytes are read from is their text, small letters for capital ones. -/
theorem encode_of_decode? {text : List Char} {bytes : List UInt8}
    (read : decode? text = some bytes) : encode bytes = text.map Char.toLower := by
  fun_induction decode? text generalizing bytes with
  | case1 => cases read; rfl
  | case2 => cases read
  | case3 high low rest upper lower tail others second first ih =>
    obtain rfl := Option.some.inj read
    obtain ⟨upperBound, upperText⟩ := digitChar_of_value? first
    obtain ⟨lowerBound, lowerText⟩ := digitChar_of_value? second
    have value : (UInt8.ofNat (16 * upper + lower)).toNat = 16 * upper + lower := by
      rw [UInt8.toNat_ofNat']
      omega
    have front : (16 * upper + lower) / 16 = upper := by omega
    have back : (16 * upper + lower) % 16 = lower := by omega
    rw [encode, value, front, back, upperText, lowerText, ih others]
    rfl
  | case4 => cases read

theorem byte?_of_digits {high low : Char} {upper lower : Nat} (first : value? high = some upper)
    (second : value? low = some lower) :
    byte? [high, low] = some (UInt8.ofNat (16 * upper + lower)) := by
  have unsigned : high ≠ '+' := by
    rintro rfl
    cases first
  have upperBound := (digitChar_of_value? first).1
  have lowerBound := (digitChar_of_value? second).1
  have small : 16 * upper + lower < 256 := by omega
  simp [byte?, unsigned, first, second, small]

end Hex

namespace Identifier

/-- What goes wrong with the pair of digits at an index. -/
inductive PairFault where
  /-- The offsets are not in the text or not between two characters. -/
  | offsets (index : Nat)
  /-- The slice is no number of base sixteen. -/
  | digits (index : Nat)
  deriving DecidableEq, Repr

/-- The bytes of so many pairs of digits, from the pair at the index on. Each pair is cut out by its
byte offsets and read on its own. -/
def readPairs (text : String) (index : Nat) :
    (count : Nat) → Except PairFault { bytes : List UInt8 // bytes.length = count }
  | 0 => .ok ⟨[], rfl⟩
  | count + 1 =>
    match Text.slice? text (2 * index) (2 * index + 2) with
    | none => .error (.offsets index)
    | some pair =>
      match Hex.byte? pair.toList with
      | none => .error (.digits index)
      | some byte =>
        (readPairs text (index + 1) count).map fun rest =>
          ⟨byte :: rest.1, congrArg (· + 1) rest.2⟩

/-- The identifier of a text, once the shape is tested, by the byte offsets of its pairs. -/
def ofOffsets (text : String) : Except PairFault (Option Identifier) :=
  if hasShape text then (readPairs text 0 12).map fun bytes => some ⟨bytes.1, bytes.2⟩
  else .ok none

theorem ofHex?_eq_some_iff {text : String} {id : Identifier} :
    ofHex? text = some id ↔ Hex.decode? text.toList = some id.bytes := by
  obtain ⟨bytes, twelve⟩ := id
  unfold ofHex?
  cases Hex.decode? text.toList with
  | none => simp
  | some read =>
    simp only [Option.some.injEq]
    constructor
    · intro found
      split at found
      · exact congrArg Identifier.bytes (Option.some.inj found)
      · cases found
    · rintro rfl
      rw [dif_pos twelve]

theorem slice?_pair {text : String} {before rest : List Char} {high low : Char}
    (split : text.toList = before ++ high :: low :: rest)
    (single : ∀ c ∈ text.toList, c.utf8Size = 1) :
    Text.slice? text before.length (before.length + 2) = some (String.ofList [high, low]) := by
  rw [split] at single
  have front : (String.ofList before).utf8ByteSize = before.length := by
    apply Text.utf8ByteSize_ofList
    intro c inside
    exact single c (List.mem_append_left _ inside)
  have pair : (String.ofList [high, low]).utf8ByteSize = 2 := by
    apply Text.utf8ByteSize_ofList
    intro c inside
    apply single c
    apply List.mem_append_right
    rw [List.mem_cons, List.mem_singleton] at inside
    rcases inside with rfl | rfl <;> simp
  refine Text.slice?_eq_some_iff.mpr ⟨String.ofList before, String.ofList rest, ?_, front, ?_⟩
  · apply String.toList_inj.mp
    simp [split]
  · rw [String.utf8ByteSize_append, front, pair]

/-- Reading pair by pair meets no fault on digits and gives the bytes that they stand for. -/
theorem readPairs_eq {text : String} {before rest : List Char} {bytes : List UInt8}
    {index count : Nat} (split : text.toList = before ++ rest) (offset : before.length = 2 * index)
    (single : ∀ c ∈ text.toList, c.utf8Size = 1) (read : Hex.decode? rest = some bytes)
    (counted : bytes.length = count) : readPairs text index count = .ok ⟨bytes, counted⟩ := by
  subst counted
  -- Each pair goes over to what is before, so the induction is for every place in the text.
  fun_induction Hex.decode? rest generalizing before bytes index with
  | case1 => cases read; rfl
  | case2 => cases read
  | case3 high low rest upper lower tail others second first ih =>
    obtain rfl := Option.some.inj read
    have pair := slice?_pair split single
    rw [offset] at pair
    have moved : text.toList = (before ++ [high, low]) ++ rest := by simp [split]
    have further : (before ++ [high, low]).length = 2 * (index + 1) := by
      simp only [List.length_append, List.length_cons, List.length_nil, offset]
      omega
    have later := ih moved further others
    simp only [List.length_cons, readPairs, pair, String.toList_ofList,
      Hex.byte?_of_digits first second, later]
    rfl
  | case4 => cases read

theorem ofOffsets_eq (text : String) : ofOffsets text = .ok (ofHex? text) := by
  have shape := isSome_ofHex?_iff text
  unfold ofOffsets
  cases fits : hasShape text with
  | false =>
    rw [fits] at shape
    have none : ofHex? text = none := by simpa using shape
    rw [none]
    rfl
  | true =>
    obtain ⟨id, read⟩ := Option.isSome_iff_exists.mp (shape.mpr fits)
    rw [read]
    simp only [hasShape, Bool.and_eq_true, List.all_eq_true] at fits
    have single : ∀ c ∈ text.toList, c.utf8Size = 1 := by
      intro c inside
      exact Hex.utf8Size_of_isDigit (fits.2 c inside)
    have split : text.toList = [] ++ text.toList := rfl
    rw [if_pos rfl, readPairs_eq split rfl single (ofHex?_eq_some_iff.mp read) id.length_bytes]
    rfl

/-- The shape as a pattern: 24 hexadecimal digits from the start of the text to its end. -/
def shapePattern : String := "^[0-9a-fA-F]\x7b24\x7d$"

section

open Pattern Pattern.Term

theorem finds_shapePattern_iff (text : List Char) :
    Finds id shapePattern.toList text ↔ text.length = 24 ∧ ∀ c ∈ text, Hex.isDigit c = true := by
  have read : read? shapePattern.toList = some (sequence
      [.start, times 24 (.within [('0', '9'), ('a', 'f'), ('A', 'F')]), .finish]) := by decide
  have digits : ∀ c : Char, (∃ d, id c = id d ∧
      ∃ range ∈ [('0', '9'), ('a', 'f'), ('A', 'F')], range.1 ≤ d ∧ d ≤ range.2) ↔
        Hex.isDigit c = true := by
    intro c
    rw [Hex.isDigit_iff]
    simp
  rw [finds_iff read]
  simp only [FoundIn, leaves_cons, leaves_times_within, leaves_nil, digits]
  constructor
  · rintro ⟨before, rest, after, split, _, ⟨rfl, whole⟩, _, ⟨part, rfl, length, all⟩, _, ⟨_, rfl⟩, _⟩
    rw [List.append_nil] at whole
    exact whole ▸ ⟨length, all⟩
  · rintro ⟨length, all⟩
    exact ⟨[], text, [], rfl, text, ⟨rfl, rfl⟩, [], ⟨text, (List.append_nil text).symm, length, all⟩,
      [], ⟨rfl, rfl⟩, rfl⟩

end

theorem toLower_eq_iff {text small : String} :
    text.toLower = small ↔ text.toList.map Char.toLower = small.toList := by
  have mapped : text.toLower = text.map Char.toLower := rfl
  rw [← String.toList_inj, mapped, String.toList_map]

theorem toHex_of_ofHex? {text : String} {id : Identifier} (read : ofHex? text = some id) :
    id.toHex = text.toLower := by
  apply Eq.symm
  apply toLower_eq_iff.mpr
  rw [toHex, String.toList_ofList, Hex.encode_of_decode? (ofHex?_eq_some_iff.mp read)]

theorem toHex_inj {first second : Identifier} : first.toHex = second.toHex ↔ first = second := by
  constructor
  · intro same
    have read := ofHex?_toHex first
    rw [same, ofHex?_toHex] at read
    exact (Option.some.inj read).symm
  · rintro rfl
    rfl

/-- The texts of identifiers are those of 24 hexadecimal digits, which is what the pattern of the
shape finds and what the reader takes; reading by byte offsets meets no fault on any text. What is
read is written as the small letters of the text, what is written is read back, and two texts are
of one identifier exactly if they are equal up to case. -/
theorem text_laws (text : String) :
    (hasShape text = true ↔ text.length = 24 ∧ ∀ c ∈ text.toList, c.isHexDigit = true) ∧
    (hasShape text = true ↔ Pattern.Finds id shapePattern.toList text.toList) ∧
    ((ofHex? text).isSome = true ↔ hasShape text = true) ∧
    ofOffsets text = .ok (ofHex? text) ∧
    (∀ id, ofHex? text = some id → id.toHex = text.toLower) ∧
    (∀ id : Identifier, ofHex? id.toHex = some id) ∧
    ∀ other first second, ofHex? text = some first → ofHex? other = some second →
      (first = second ↔ text.toLower = other.toLower) := by
  have shape : hasShape text = true ↔
      text.toList.length = 24 ∧ ∀ c ∈ text.toList, Hex.isDigit c = true := by
    simp only [hasShape, Bool.and_eq_true, beq_iff_eq, List.all_eq_true]
  refine ⟨?_, ?_, isSome_ofHex?_iff text, ofOffsets_eq text, ?_, ofHex?_toHex, ?_⟩
  · rw [shape, String.length_toList]
    simp only [Hex.isDigit_eq_isHexDigit]
  · rw [shape, finds_shapePattern_iff]
  · intro id read
    exact toHex_of_ofHex? read
  · intro other first second readFirst readSecond
    rw [← toHex_inj, toHex_of_ofHex? readFirst, toHex_of_ofHex? readSecond]

/-- Capital and small letters read as one identifier, which is written in small ones. -/
theorem text_laws_of_capitals :
    ∃ id, ofHex? "507F1F77BCF86CD799439011" = some id ∧
      ofHex? "507f1f77bcf86cd799439011" = some id ∧ id.toHex = "507f1f77bcf86cd799439011" := by
  obtain ⟨-, -, readCapitals, -, written, -, same⟩ := text_laws "507F1F77BCF86CD799439011"
  obtain ⟨-, -, readSmall, -⟩ := text_laws "507f1f77bcf86cd799439011"
  obtain ⟨first, capitals⟩ := Option.isSome_iff_exists.mp (readCapitals.mpr (by decide))
  obtain ⟨second, small⟩ := Option.isSome_iff_exists.mp (readSmall.mpr (by decide))
  have lowered : "507F1F77BCF86CD799439011".toLower = "507f1f77bcf86cd799439011" :=
    toLower_eq_iff.mpr (by decide)
  have fixed : "507f1f77bcf86cd799439011".toLower = "507f1f77bcf86cd799439011" :=
    toLower_eq_iff.mpr (by decide)
  obtain rfl := (same _ first second capitals small).mpr (lowered.trans fixed.symm)
  exact ⟨first, capitals, small, (written first capitals).trans lowered⟩

example : hasShape "507f1f77bcf86cd799439011\n" = false := by decide

end Identifier

end ListQuery
