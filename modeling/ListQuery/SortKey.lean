import ListQuery.Document.Encoding
import ListQuery.Text.Split
import ListQuery.Violation

set_option autoImplicit false

/-!
The order of a query: one field and a direction, read from a token such as `createdAt_DESC`.
-/

namespace ListQuery

inductive Direction where
  | ascending
  | descending
  deriving DecidableEq, Repr

namespace Direction

def word : Direction → String
  | .ascending => "asc"
  | .descending => "desc"

def name : Direction → String
  | .ascending => "Asc"
  | .descending => "Desc"

/-- What formats write for a direction: its name in small letters. -/
def label (direction : Direction) : String :=
  String.ofList (direction.name.toList.map Char.toLower)

theorem label_eq_word (direction : Direction) : direction.label = direction.word := by
  cases direction <;> decide

/-- The letters of ASCII count in either case. -/
def ofWord? (word : List Char) : Option Direction :=
  let small := word.map Char.toLower
  if small = "asc".toList then some .ascending
  else if small = "desc".toList then some .descending
  else none

end Direction

structure SortKey where
  field : String
  direction : Direction
  deriving DecidableEq, Repr

namespace SortKey

/-- Reads a field and a direction on the two sides of the last underscore. -/
def ofToken? (token : String) : Option SortKey :=
  match Text.splitLast? '_' token.toList with
  | some (first :: rest, word) =>
    (Direction.ofWord? word).map fun direction => ⟨String.ofList (first :: rest), direction⟩
  | _ => none

/-- The order of a query; without a token the store has its own. -/
def ofRequest : Option String → Except Violation (Option SortKey)
  | none => .ok none
  | some token =>
    match ofToken? token with
    | some key => .ok (some key)
    | none => .error (.invalidOrder token)

def toJson (key : SortKey) : Json := .object [(key.field, .text key.direction.word)]

def encode {ω : Type} (encoder : Encoder ω) (key : SortKey) : ω :=
  encoder.mapping [(key.field, encoder.text key.direction.label)]

end SortKey

end ListQuery
