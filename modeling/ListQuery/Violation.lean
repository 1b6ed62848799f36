set_option autoImplicit false

/-!
The ways in which a filter or an order breaks the rules for its arguments.
-/

namespace ListQuery

inductive Violation where
  /-- `_in`, `_nin` and `_all` take a list. -/
  | expectedList (key : String)
  /-- `_obj` and a filter as a whole take an object. -/
  | expectedObject (key : String)
  /-- The text operators take a value with a text form. -/
  | expectedScalar (key : String)
  /-- `_id` takes an identifier. -/
  | invalidIdentifier (key : String)
  /-- A group takes a list of expressions. -/
  | expectedGroupList (key : String)
  /-- `_dregex` is off unless the options allow it. -/
  | rawPatternDisabled (key : String)
  | invalidOrder (token : String)
  deriving DecidableEq, Repr

namespace Violation

/-- The text for the caller, with the key or token as the caller wrote it. -/
def message : Violation → String
  | .expectedList key => "filter key `" ++ key ++ "` expects a list value"
  | .expectedObject key => "filter key `" ++ key ++ "` expects an object value"
  | .expectedScalar key => "filter key `" ++ key ++ "` expects a scalar value"
  | .invalidIdentifier key => "filter key `" ++ key ++ "` expects a document identifier"
  | .expectedGroupList key => "logical group `" ++ key ++ "` expects a list of filter objects"
  | .rawPatternDisabled key => "raw pattern filter `" ++ key ++ "` is not enabled for this query"
  | .invalidOrder token =>
    "invalid order `" ++ token ++ "`: expected <field>_ASC or <field>_DESC"

end Violation

end ListQuery
