import ListQuery.Input
import ListQuery.SortKey

set_option autoImplicit false

/-!
The order argument that all entities have: by the time of creation.
-/

namespace ListQuery

structure CreatedAtOrder where
  direction : Direction
  deriving DecidableEq, Repr

namespace CreatedAtOrder

def token (order : CreatedAtOrder) : String :=
  match order.direction with
  | .ascending => "createdAt_ASC"
  | .descending => "createdAt_DESC"

/-- Reads a token exactly as it is written. -/
def ofJson : Json → Except InputFault CreatedAtOrder
  | .text "createdAt_ASC" => .ok ⟨.ascending⟩
  | .text "createdAt_DESC" => .ok ⟨.descending⟩
  | _ => .error .unknownWord

end CreatedAtOrder

end ListQuery
