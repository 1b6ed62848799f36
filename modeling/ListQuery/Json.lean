import ListQuery.Number.Binary64

set_option autoImplicit false

/-!
JSON values. Whole numbers and doubles are kept apart, and objects keep the order of their
entries.
-/

namespace ListQuery

inductive Json where
  | null
  | bool (value : Bool)
  | integer (value : Int)
  | float (value : Binary64)
  | text (value : String)
  | array (items : List Json)
  | object (entries : List (String × Json))

end ListQuery
