import ListQuery.Text.Split

set_option autoImplicit false

/-!
Operators of filter keys: what each suffix asks of its field. A suffix counts only with a field
before it, and `field?_eq_some_iff` says that this is all it takes.
-/

namespace ListQuery

/-- Comparisons of a field with one operand. -/
inductive Comparison where
  | equal
  | notEqual
  | atMost
  | atLeast
  | below
  | above
  deriving DecidableEq, Repr

/-- Comparisons of a field with a list of operands. -/
inductive Selection where
  | noneOf
  | oneOf
  | everyOf
  deriving DecidableEq, Repr

/-- What a suffix asks of its field. -/
inductive Operator where
  /-- The field holds the identifier. -/
  | reference
  | compare (comparison : Comparison)
  | select (selection : Selection)
  /-- The field holds the text. -/
  | contains
  /-- The field holds the text up to case. -/
  | containsAnyCase
  /-- The field matches a pattern of the caller up to case. -/
  | pattern
  /-- The field holds every word of the text up to case, in any order. -/
  | words
  /-- The field meets several comparisons, one for each entry of an object. -/
  | range
  /-- The list of members holds the value. -/
  | member
  deriving DecidableEq, Repr

namespace Comparison

def symbol : Comparison → String
  | .equal => "$eq"
  | .notEqual => "$ne"
  | .atMost => "$lte"
  | .atLeast => "$gte"
  | .below => "$lt"
  | .above => "$gt"

end Comparison

namespace Selection

def symbol : Selection → String
  | .noneOf => "$nin"
  | .oneOf => "$in"
  | .everyOf => "$all"

end Selection

namespace Operator

def suffix : Operator → String
  | .reference => "_id"
  | .compare .equal => "_eq"
  | .compare .notEqual => "_ne"
  | .compare .atMost => "_lte"
  | .compare .atLeast => "_gte"
  | .compare .below => "_lt"
  | .compare .above => "_gt"
  | .select .noneOf => "_nin"
  | .select .oneOf => "_in"
  | .select .everyOf => "_all"
  | .contains => "_contains"
  | .containsAnyCase => "_regex"
  | .pattern => "_dregex"
  | .words => "_permute"
  | .range => "_obj"
  | .member => "_has"

/-- Every operator once, in the order in which suffixes are tried. -/
def all : List Operator :=
  [.reference, .compare .equal, .compare .notEqual, .compare .atMost, .compare .atLeast,
    .compare .below, .compare .above, .select .noneOf, .select .oneOf, .select .everyOf,
    .contains, .containsAnyCase, .pattern, .words, .range, .member]

/-- The operator of the store, where one operator says it all. -/
def symbol? : Operator → Option String
  | .compare comparison => some comparison.symbol
  | .select selection => some selection.symbol
  | _ => none

/-- The field of a key with the suffix of this operator. -/
def field? (operator : Operator) (key : String) : Option String :=
  match Text.dropEnding? operator.suffix.toList key.toList with
  | some (first :: rest) => some (String.ofList (first :: rest))
  | _ => none

theorem mem_all (operator : Operator) : operator ∈ all := by
  rcases operator with _ | comparison | selection | _ | _ | _ | _ | _ | _
  case compare => cases comparison <;> decide
  case select => cases selection <;> decide
  all_goals decide

theorem field?_eq_some_iff {operator : Operator} {key field : String} :
    operator.field? key = some field ↔ key = field ++ operator.suffix ∧ field ≠ "" := by
  have split (before : List Char) :=
    @Text.dropEnding?_eq_some_iff operator.suffix.toList key.toList before
  unfold field?
  constructor
  · intro found
    split at found
    · rename_i first rest parts
      obtain rfl := Option.some.inj found
      have whole := (split _).mp parts
      refine ⟨String.toList_inj.mp (by simpa using whole), fun empty => ?_⟩
      simpa using congrArg String.toList empty
    · simp at found
  · rintro ⟨rfl, present⟩
    have parts := (split field.toList).mpr (by simp)
    rw [parts]
    cases letters : field.toList with
    | nil => exact absurd (String.toList_inj.mp (by simpa using letters)) present
    | cons first rest => simp [← letters]

end Operator

end ListQuery
