import ListQuery.Document
import ListQuery.Expression
import ListQuery.Text.Split

set_option autoImplicit false

/-!
Operands from arguments: as they are written, or coerced to what the field holds. Dates become
epoch milliseconds either way, for predicates have no other form of time.
-/

namespace ListQuery

/-- Whether the field may hold references: its name has `_id`, and the first one is not at its
start. -/
def holdsReferences (field : String) : Bool :=
  match Text.indexOf? "_id".toList field.toList with
  | some index => 0 < index
  | none => false

namespace Argument

mutual

def verbatim : Argument → Operand
  | .null => .null
  | .bool value => .bool value
  | .int value => .int value
  | .float value => .float value
  | .text value => .text value
  | .date value => .int value.epochMillis
  | .list items => .array (verbatimItems items)
  | .object entries => .document (verbatimEntries entries)

def verbatimItems : List Argument → List Operand
  | [] => []
  | item :: rest => verbatim item :: verbatimItems rest

def verbatimEntries : List (String × Argument) → Document
  | [] => []
  | (key, value) :: rest => (key, verbatim value) :: verbatimEntries rest

end

/-- A text against a field: the words of the truth values become those, and on a reference field
the shape of an identifier becomes one. -/
def coerceText (field value : String) : Operand :=
  if value = "true" then .bool true
  else if value = "false" then .bool false
  else if holdsReferences field then
    match Identifier.ofHex? value with
    | some id => .reference id
    | none => .text value
  else .text value

mutual

/-- The operand that the field is compared with. Lists are coerced item by item; the inside of an
object is left as it is written. -/
def coerce (field : String) : Argument → Operand
  | .text value => coerceText field value
  | .list items => .array (coerceItems field items)
  | .null => .null
  | .bool value => .bool value
  | .int value => .int value
  | .float value => .float value
  | .date value => .int value.epochMillis
  | .object entries => .document (verbatimEntries entries)

def coerceItems (field : String) : List Argument → List Operand
  | [] => []
  | item :: rest => coerce field item :: coerceItems field rest

end

def identifier? : Argument → Option Identifier
  | .text value => Identifier.ofHex? value
  | _ => none

theorem verbatimItems_eq_map (items : List Argument) :
    verbatimItems items = items.map verbatim := by
  induction items with
  | nil => rfl
  | cons item rest ih => rw [verbatimItems, ih, List.map_cons]

theorem verbatimEntries_eq_map (entries : List (String × Argument)) :
    verbatimEntries entries = entries.map fun entry => (entry.1, verbatim entry.2) := by
  induction entries with
  | nil => rfl
  | cons entry rest ih =>
    obtain ⟨key, value⟩ := entry
    rw [verbatimEntries, ih, List.map_cons]

theorem coerceItems_eq_map (field : String) (items : List Argument) :
    coerceItems field items = items.map (coerce field) := by
  induction items with
  | nil => rfl
  | cons item rest ih => rw [coerceItems, ih, List.map_cons]

end Argument

end ListQuery
