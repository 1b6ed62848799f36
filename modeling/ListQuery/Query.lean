import ListQuery.Document.Encoding
import ListQuery.Page
import ListQuery.SortKey

set_option autoImplicit false

/-!
A list query, ready for the store.
-/

namespace ListQuery

structure Query where
  predicate : Document
  order : Option SortKey
  skip : Int64
  take : Int64

namespace Query

/-- A query has the entry `orderBy` only if it has an order. -/
def encode {ω : Type} (encoder : Encoder ω) (query : Query) : ω :=
  let order :=
    match query.order with
    | some key => [("orderBy", key.encode encoder)]
    | none => []
  encoder.mapping <|
    ("where", query.predicate.encode encoder) :: order ++
      [("skip", encoder.int query.skip), ("take", encoder.int query.take)]

end Query

end ListQuery
