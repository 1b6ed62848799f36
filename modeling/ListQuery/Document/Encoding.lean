import ListQuery.Document
import ListQuery.Json

set_option autoImplicit false

/-!
Documents as JSON, two ways: `toJson` builds the value, and `encode` hands the parts of a document
to any encoder, of which `Json.encoder` is one. An identifier is an object with the key `$oid`, and
JSON has null in place of the doubles that are not finite.
-/

namespace ListQuery

/-- What a format does with each kind of part. -/
structure Encoder (ω : Type) where
  null : ω
  bool : Bool → ω
  int : Int64 → ω
  float : Binary64 → ω
  text : String → ω
  sequence : List ω → ω
  mapping : List (String × ω) → ω

namespace Json

/-- JSON as a format: a repeated key keeps its place and takes the last value. -/
def encoder : Encoder Json where
  null := .null
  bool value := .bool value
  int value := .integer value.toInt
  float value := if value.isFinite then .float value else .null
  text value := .text value
  sequence items := .array items
  mapping entries := .object (Mapping.ofEntries entries)

end Json

namespace Identifier

/-- The extended form of an identifier, which tells it from a text. -/
def toJson (id : Identifier) : Json := .object [("$oid", .text id.toHex)]

def encode {ω : Type} (encoder : Encoder ω) (id : Identifier) : ω :=
  encoder.mapping [("$oid", encoder.text id.toHex)]

end Identifier

namespace Operand

variable {ω : Type}

mutual

def toJson : Operand → Json
  | .null => .null
  | .bool value => .bool value
  | .int value => .integer value.toInt
  | .float value => if value.isFinite then .float value else .null
  | .text value => .text value
  | .reference id => id.toJson
  | .array items => .array (itemsToJson items)
  | .document entries => .object (entriesToJson entries)

def itemsToJson : List Operand → List Json
  | [] => []
  | item :: rest => toJson item :: itemsToJson rest

def entriesToJson : List (String × Operand) → List (String × Json)
  | [] => []
  | (key, value) :: rest => (key, toJson value) :: entriesToJson rest

end

mutual

def encode (encoder : Encoder ω) : Operand → ω
  | .null => encoder.null
  | .bool value => encoder.bool value
  | .int value => encoder.int value
  | .float value => encoder.float value
  | .text value => encoder.text value
  | .reference id => id.encode encoder
  | .array items => encoder.sequence (encodeItems encoder items)
  | .document entries => encoder.mapping (encodeEntries encoder entries)

def encodeItems (encoder : Encoder ω) : List Operand → List ω
  | [] => []
  | item :: rest => encode encoder item :: encodeItems encoder rest

def encodeEntries (encoder : Encoder ω) : List (String × Operand) → List (String × ω)
  | [] => []
  | (key, value) :: rest => (key, encode encoder value) :: encodeEntries encoder rest

end

theorem itemsToJson_eq_map (items : List Operand) : itemsToJson items = items.map toJson := by
  induction items with
  | nil => rfl
  | cons item rest ih => rw [itemsToJson, ih, List.map_cons]

theorem entriesToJson_eq_map (entries : List (String × Operand)) :
    entriesToJson entries = entries.map fun entry => (entry.1, toJson entry.2) := by
  induction entries with
  | nil => rfl
  | cons entry rest ih =>
    obtain ⟨key, value⟩ := entry
    rw [entriesToJson, ih, List.map_cons]

theorem encodeItems_eq_map (encoder : Encoder ω) (items : List Operand) :
    encodeItems encoder items = items.map (encode encoder) := by
  induction items with
  | nil => rfl
  | cons item rest ih => rw [encodeItems, ih, List.map_cons]

theorem encodeEntries_eq_map (encoder : Encoder ω) (entries : List (String × Operand)) :
    encodeEntries encoder entries =
      entries.map fun entry => (entry.1, encode encoder entry.2) := by
  induction entries with
  | nil => rfl
  | cons entry rest ih =>
    obtain ⟨key, value⟩ := entry
    rw [encodeEntries, ih, List.map_cons]

end Operand

namespace Document

def toJson (document : Document) : Json := .object (Operand.entriesToJson document)

def encode {ω : Type} (encoder : Encoder ω) (document : Document) : ω :=
  encoder.mapping (Operand.encodeEntries encoder document)

end Document

end ListQuery
