import ListQuery.Instant
import ListQuery.Json
import ListQuery.Mapping
import ListQuery.Number.Shortest

set_option autoImplicit false

/-!
Filter expressions as a caller writes them: a mapping from keys, which carry operator suffixes, to
arguments.
-/

namespace ListQuery

/-- What a caller writes against a key. -/
inductive Argument where
  | null
  | bool (value : Bool)
  | int (value : Int64)
  | float (value : Binary64)
  | text (value : String)
  | date (value : Instant)
  | list (items : List Argument)
  | object (entries : List (String × Argument))

abbrev Expression : Type := Mapping Argument

namespace Argument

/-- A blank argument asks for nothing, whatever its key. -/
def isBlank : Argument → Bool
  | .null => true
  | .text value => value.isEmpty
  | _ => false

/-- The text that the pattern operators search for; lists and objects have none. -/
def toText? : Argument → Option String
  | .null => some ""
  | .bool value => some (if value then "true" else "false")
  | .int value => some (String.ofList (Number.signed value.toInt))
  | .float value => some (String.ofList value.text)
  | .text value => some value
  | .date value => some (String.ofList value.timestamp)
  | .list _ | .object _ => none

def list? : Argument → Option (List Argument)
  | .list items => some items
  | _ => none

def object? : Argument → Option Expression
  | .object entries => some entries
  | _ => none

/-- A whole number of 64 bits stays one; any other becomes the nearest double. -/
def ofInteger (value : Int) : Argument :=
  if Int64.minValue.toInt ≤ value ∧ value ≤ Int64.maxValue.toInt then .int (Int64.ofInt value)
  else .float (Binary64.nearest value)

mutual

def ofJson : Json → Argument
  | .null => .null
  | .bool value => .bool value
  | .integer value => ofInteger value
  | .float value => .float value
  | .text value => .text value
  | .array items => .list (ofJsonItems items)
  | .object entries => .object (ofJsonEntries entries)

def ofJsonItems : List Json → List Argument
  | [] => []
  | item :: rest => ofJson item :: ofJsonItems rest

def ofJsonEntries : List (String × Json) → Expression
  | [] => []
  | (key, value) :: rest => (key, ofJson value) :: ofJsonEntries rest

end

theorem ofJsonItems_eq_map (items : List Json) : ofJsonItems items = items.map ofJson := by
  induction items with
  | nil => rfl
  | cons item rest ih => rw [ofJsonItems, ih, List.map_cons]

theorem ofJsonEntries_eq_map (entries : List (String × Json)) :
    ofJsonEntries entries = entries.map fun entry => (entry.1, ofJson entry.2) := by
  induction entries with
  | nil => rfl
  | cons entry rest ih =>
    obtain ⟨key, value⟩ := entry
    rw [ofJsonEntries, ih, List.map_cons]

end Argument

namespace Expression

/-- An object gives its entries and null gives no entry; nothing else is an expression. -/
def ofJson? : Json → Option Expression
  | .object entries => some (Argument.ofJsonEntries entries)
  | .null => some []
  | _ => none

end Expression

end ListQuery
