set_option autoImplicit false

/-!
The switches of query compilation.
-/

namespace ListQuery

/-- What the service sets for the queries of a caller. -/
structure Options where
  /-- Whether `_dregex` may hand a pattern of the caller to the store. -/
  rawPatterns : Bool := false
  /-- How many records a query takes whose caller sets no limit. -/
  defaultLimit : Int64 := 10
  deriving DecidableEq, Repr

end ListQuery
