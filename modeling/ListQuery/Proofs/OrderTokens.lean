import ListQuery.SortKey
import ListQuery.Text.Letters
import Mathlib.Data.List.Forall2

set_option autoImplicit false

/-!
Which tokens name an order. A token writes a sort key as the field, an underscore and a word for the
direction, in which letters of ASCII stand for each other in either case (`SortKey.WrittenAs`). The
word has no underscore, so the last one of the token divides it and no token writes two keys;
tokens that write one are read as it, and all others are refused (`SortKey.token_grammar`).
-/

namespace ListQuery

/-- The word of the direction, with letters of either case. -/
def Direction.SpelledAs (direction : Direction) (word : String) : Prop :=
  List.Forall₂ Text.SameLetter word.toList direction.word.toList

/-- The token is the field, an underscore and a word for the direction. -/
structure SortKey.WrittenAs (key : SortKey) (token : String) : Prop where
  present : key.field ≠ ""
  divided : ∃ word, token = key.field ++ "_" ++ word ∧ key.direction.SpelledAs word

namespace Direction

theorem spelledAs_iff {direction : Direction} {word : String} :
    direction.SpelledAs word ↔ word.toList.map Char.toLower = direction.word.toList := by
  have small : direction.word.toList.map Char.toLower = direction.word.toList := by
    cases direction <;> decide
  have letters : Text.SameLetter = fun c d => c.toLower = d.toLower := by
    funext c d
    exact propext Text.sameLetter_iff
  rw [SpelledAs, letters, ← List.forall₂_map_right_iff, ← List.forall₂_map_left_iff,
    List.forall₂_eq_eq_eq, small]

theorem SpelledAs.unmarked {direction : Direction} {word : String}
    (spelled : direction.SpelledAs word) : '_' ∉ word.toList := by
  intro inside
  have lowered : '_'.toLower ∈ direction.word.toList := by
    rw [← spelledAs_iff.mp spelled]
    exact List.mem_map_of_mem inside
  cases direction <;> exact absurd lowered (by decide)

theorem ofWord?_eq_some_iff {direction : Direction} {word : List Char} :
    ofWord? word = some direction ↔ direction.SpelledAs (String.ofList word) := by
  rw [spelledAs_iff, String.toList_ofList]
  simp only [ofWord?]
  by_cases first : word.map Char.toLower = "asc".toList
  · rw [if_pos first, first]
    cases direction with
    | ascending => simp [Direction.word]
    | descending => simp [Direction.word]
  · rw [if_neg first]
    cases direction with
    | ascending => simpa [Direction.word] using first
    | descending => simp [Direction.word]

end Direction

namespace SortKey

theorem ofToken?_eq_some_iff {token : String} {key : SortKey} :
    ofToken? token = some key ↔ key.WrittenAs token := by
  unfold ofToken?
  constructor
  · intro read
    split at read
    · rename_i first rest word split
      obtain ⟨direction, known, rfl⟩ := Option.map_eq_some_iff.mp read
      obtain ⟨whole, -⟩ := Text.splitLast?_eq_some_iff.mp split
      refine ⟨?_, String.ofList word, ?_, Direction.ofWord?_eq_some_iff.mp known⟩
      · intro empty
        simpa using congrArg String.toList empty
      · apply String.toList_inj.mp
        simpa using whole
    · cases read
  · rintro ⟨present, word, rfl, spelled⟩
    have split : Text.splitLast? '_' (key.field ++ "_" ++ word).toList =
        some (key.field.toList, word.toList) := by
      apply Text.splitLast?_eq_some_iff.mpr
      exact ⟨by simp, spelled.unmarked⟩
    have known : Direction.ofWord? word.toList = some key.direction := by
      rw [Direction.ofWord?_eq_some_iff, String.ofList_toList]
      exact spelled
    rw [split]
    cases letters : key.field.toList with
    | nil => exact absurd (String.toList_inj.mp (by simpa using letters)) present
    | cons first rest => simp [known, ← letters]

theorem ofRequest_eq_ok_some_iff {token : String} {key : SortKey} :
    ofRequest (some token) = .ok (some key) ↔ key.WrittenAs token := by
  rw [← ofToken?_eq_some_iff, ofRequest]
  cases ofToken? token <;> simp

theorem ofRequest_eq_error_iff_unwritten {token : String} {violation : Violation} :
    ofRequest (some token) = .error violation ↔
      violation = .invalidOrder token ∧ ∀ key : SortKey, ¬ key.WrittenAs token := by
  simp only [← ofToken?_eq_some_iff, ← Option.eq_none_iff_forall_ne_some, ofRequest]
  cases ofToken? token with
  | none => simp [eq_comm]
  | some key => simp

/-- A token is read as a sort key exactly if it is a field that is not empty, an underscore and the
word of a direction with letters of ASCII in either case. No token writes two keys, whatever
underscores the field has, and a token that writes none is refused as it is. So every field but the
empty one comes back from a token with either direction. -/
theorem token_grammar (token : String) :
    (∀ key, ofRequest (some token) = .ok (some key) ↔ key.WrittenAs token) ∧
    (∀ first second : SortKey, first.WrittenAs token → second.WrittenAs token →
      first = second) ∧
    (∀ violation, ofRequest (some token) = .error violation ↔
      violation = .invalidOrder token ∧ ∀ key : SortKey, ¬ key.WrittenAs token) ∧
    ∀ field, field ≠ "" →
      ofRequest (some (field ++ "_ASC")) = .ok (some ⟨field, .ascending⟩) ∧
      ofRequest (some (field ++ "_DESC")) = .ok (some ⟨field, .descending⟩) := by
  refine ⟨fun _ => ofRequest_eq_ok_some_iff, ?_, fun _ => ofRequest_eq_error_iff_unwritten, ?_⟩
  · intro first second written other
    have read := ofToken?_eq_some_iff.mpr written
    rw [ofToken?_eq_some_iff.mpr other] at read
    exact (Option.some.inj read).symm
  · intro field present
    have comesBack (direction : Direction) (word : String) (spelled : direction.SpelledAs word) :
        ofRequest (some (field ++ "_" ++ word)) = .ok (some ⟨field, direction⟩) :=
      ofRequest_eq_ok_some_iff.mpr ⟨present, word, rfl, spelled⟩
    have capitals := comesBack .ascending "ASC" (Direction.spelledAs_iff.mpr (by decide))
    have others := comesBack .descending "DESC" (Direction.spelledAs_iff.mpr (by decide))
    rw [String.append_assoc] at capitals others
    exact ⟨capitals, others⟩

/-- The field has an ending of its own, and a long s is no letter of a direction. -/
theorem token_grammar_of_stacked_endings :
    SortKey.WrittenAs ⟨"last_DESC", .ascending⟩ "last_DESC_aSc" ∧
    (∀ key : SortKey, key.WrittenAs "last_DESC_aSc" → key = ⟨"last_DESC", .ascending⟩) ∧
    ofRequest (some "a_deſc") = .error (.invalidOrder "a_deſc") ∧
    "_" ≠ "" ∧ ofRequest (some "__DESC") = .ok (some ⟨"_", .descending⟩) := by
  obtain ⟨read, unique, -⟩ := token_grammar "last_DESC_aSc"
  obtain ⟨accepted, -, refused, back⟩ := token_grammar "a_deſc"
  have stacked : SortKey.WrittenAs ⟨"last_DESC", .ascending⟩ "last_DESC_aSc" :=
    (read _).mp (by decide)
  have present : "_" ≠ "" := by decide
  refine ⟨stacked, fun key written => unique _ _ written stacked, ?_, present, ?_⟩
  · refine (refused _).mpr ⟨rfl, fun key written => ?_⟩
    have none : ofToken? "a_deſc" = none := by decide
    rw [ofToken?_eq_some_iff.mpr written] at none
    cases none
  · exact (back "_" present).2

end SortKey

end ListQuery
