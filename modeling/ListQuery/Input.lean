import ListQuery.Json
import ListQuery.Mapping
import ListQuery.Number.Digits
import ListQuery.Page

set_option autoImplicit false

/-!
Typed arguments of list queries, read from JSON. A field may be missing or null if it is optional,
fields that the type does not know are ignored, and a field of the wrong kind is a fault.
-/

namespace ListQuery

/-- Why a value is no argument of its type. -/
inductive InputFault where
  | notAnObject
  | missing (field : String)
  | wrongKind (field : String)
  | unknownWord
  deriving DecidableEq, Repr

namespace Json

def fields : Json → Except InputFault (Mapping Json)
  | .object entries => .ok entries
  | _ => .error .notAnObject

def text? : Json → Option String
  | .text value => some value
  | _ => none

/-- An identifier of a client is a text, or a whole number of 64 bits that stands for its digits. -/
def id? : Json → Option String
  | .text value => some value
  | .integer value =>
    if Int64.minValue.toInt ≤ value ∧ value ≤ Int64.maxValue.toInt then
      some (String.ofList (Number.signed value))
    else none
  | _ => none

def int32? : Json → Option Int32
  | .integer value =>
    if Int32.minValue.toInt ≤ value ∧ value ≤ Int32.maxValue.toInt then some (Int32.ofInt value)
    else none
  | _ => none

end Json

namespace Input

variable {α : Type}

/-- A field that may be missing or null. -/
def optional (read : Json → Option α) (fields : Mapping Json) (name : String) :
    Except InputFault (Option α) :=
  match Mapping.get? fields name with
  | none | some .null => .ok none
  | some value =>
    match read value with
    | some field => .ok (some field)
    | none => .error (.wrongKind name)

def required (read : Json → Option α) (fields : Mapping Json) (name : String) :
    Except InputFault α :=
  match optional read fields name with
  | .ok (some field) => .ok field
  | .ok none => .error (.missing name)
  | .error fault => .error fault

/-- An argument that may be null as a whole. -/
def nullable (read : Json → Except InputFault α) : Json → Except InputFault (Option α)
  | .null => .ok none
  | value => (read value).map some

end Input

namespace Page

def ofJson (value : Json) : Except InputFault Page := do
  let fields ← value.fields
  let limit ← Input.optional Json.int32? fields "limit"
  let offset ← Input.optional Json.int32? fields "offset"
  return { limit, offset }

end Page

end ListQuery
