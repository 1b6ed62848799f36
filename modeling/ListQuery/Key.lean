import ListQuery.Operator

set_option autoImplicit false

/-!
The grammar of filter keys: a key is the word of a connective, or a field with at most one
operator suffix.
-/

namespace ListQuery

/-- How the branches of a group combine. -/
inductive Connective where
  | conjunction
  | disjunction
  deriving DecidableEq, Repr

namespace Connective

def symbol : Connective → String
  | .conjunction => "$and"
  | .disjunction => "$or"

/-- A connective is written in capitals or in small letters, not in a mixture. -/
def ofWord? (word : String) : Option Connective :=
  if word = "OR" ∨ word = "or" then some .disjunction
  else if word = "AND" ∨ word = "and" then some .conjunction
  else none

end Connective

inductive Key where
  | group (connective : Connective)
  | field (name : String) (operator : Option Operator)
  deriving DecidableEq, Repr

namespace Key

def withSuffix? (key : String) (operator : Operator) : Option Key :=
  (operator.field? key).map fun name => .field name (some operator)

/-- Reads a key with suffixes tried in the order of the table. A key without a suffix is a field
as it stands. -/
def parseWith (table : List Operator) (key : String) : Key :=
  match Connective.ofWord? key with
  | some connective => .group connective
  | none => (table.findSome? (withSuffix? key)).getD (.field key none)

def parse (key : String) : Key := parseWith Operator.all key

end Key

end ListQuery
