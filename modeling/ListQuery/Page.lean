set_option autoImplicit false

/-!
The part of the records that a query returns, by offset and limit. Numbers are taken as given;
none is clamped.
-/

namespace ListQuery

structure Page where
  limit : Option Int32 := none
  offset : Option Int32 := none
  deriving DecidableEq, Repr

namespace Page

/-- How many records come before the page. -/
def skip (page : Page) : Int64 :=
  match page.offset with
  | some offset => offset.toInt64
  | none => 0

/-- How many records the page holds at most: a missing limit or one of zero is the default. -/
def take (page : Page) (defaultLimit : Int64) : Int64 :=
  match page.limit with
  | some limit => if limit = 0 then defaultLimit else limit.toInt64
  | none => defaultLimit

end Page

end ListQuery
