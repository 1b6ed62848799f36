import ListQuery.Coercion
import ListQuery.Key
import ListQuery.Options
import ListQuery.Pattern
import ListQuery.Violation

set_option autoImplicit false

/-!
Predicates from filter expressions. Each entry that is not blank gives one clause, an operand
against a target; the predicate is the merge of the clauses in order, and the first entry that
breaks a rule stops it. `livePredicate` merges the exclusion of deleted records last, so that no
caller can take it off.
-/

namespace ListQuery

/-- The field that says when a record was deleted. -/
def deletionField : String := "deletedAt"

/-- The field that lists the members of a group. -/
def memberField : String := "memberIds"

/-- Keeps the records that were not deleted. -/
def liveClause : Document :=
  Document.single deletionField (.document (Document.single "isSet" (.bool false)))

namespace Selection

/-- An item of the list: what every one has to be is left as it is written. -/
def operand (field : String) : Selection → Argument → Operand
  | .everyOf => Argument.verbatim
  | .noneOf | .oneOf => Argument.coerce field

end Selection

namespace Operator

/-- The field that a clause is about: membership is always of the list of members. -/
def target (field : String) : Operator → String
  | .member => memberField
  | _ => field

/-- The operand of an object of comparisons: each entry gives the operator named after the last
underscore of its key. -/
def rangeOperand (field : String) (entries : Expression) : Document :=
  Mapping.ofEntries <| entries.map fun entry =>
    ("$" ++ String.ofList (Text.afterLast '_' entry.1.toList), entry.2.coerce field)

def textOperand (key : String) (value : Argument) (operand : List Char → Document) :
    Except Violation Operand :=
  match value.toText? with
  | some text => .ok (.document (operand text.toList))
  | none => .error (.expectedScalar key)

def patternOperand (pattern : List Char) : Document :=
  Document.single "$regex" (.text (String.ofList pattern))

/-- A pattern of the store that matches up to case. -/
def patternAnyCaseOperand (pattern : List Char) : Document :=
  [("$regex", .text (String.ofList pattern)), ("$options", .text "i")]

/-- What the value asks of the field under the operator. -/
def operand (options : Options) (key field : String) (value : Argument) :
    Operator → Except Violation Operand
  | .reference =>
    match value.identifier? with
    | some id => .ok (.reference id)
    | none => .error (.invalidIdentifier key)
  | .compare comparison =>
    .ok (.document (Document.single comparison.symbol (value.coerce field)))
  | .select selection =>
    match value.list? with
    | some items =>
      let operands := items.map (selection.operand field)
      .ok (.document (Document.single selection.symbol (.array operands)))
    | none => .error (.expectedList key)
  | .contains => textOperand key value fun text => patternOperand (Pattern.substring text)
  | .containsAnyCase =>
    textOperand key value fun text =>
      [("contains", .text (String.ofList text)), ("mode", .text "insensitive")]
  | .pattern =>
    if options.rawPatterns then textOperand key value patternAnyCaseOperand
    else .error (.rawPatternDisabled key)
  | .words => textOperand key value fun text => patternAnyCaseOperand (Pattern.allWords text)
  | .range =>
    match value.object? with
    | some entries => .ok (.document (rangeOperand field entries))
    | none => .error (.expectedObject key)
  | .member => .ok (.document (Document.single "has" value.verbatim))

end Operator

/-- An operand against the field or connective that it is about. -/
abbrev Clause : Type := String × Operand

/-- The clause of a key that names a field; without an operator the field equals the value. -/
def fieldClause (options : Options) (key field : String) (value : Argument) :
    Option Operator → Except Violation Clause
  | none => .ok (field, value.coerce field)
  | some operator =>
    (operator.operand options key field value).map fun operand => (operator.target field, operand)

namespace Expression

mutual

/-- The clause of an entry. A blank value gives none, before the key is read. -/
def clauseOf (options : Options) (key : String) (value : Argument) :
    Except Violation (Option Clause) :=
  if value.isBlank then .ok none
  else match Key.parse key with
    | .field field operator => (fieldClause options key field value operator).map some
    | .group connective =>
      match value with
      | .list items => do
        let predicates ← branches options key items
        return some (connective.symbol, .array predicates)
      | _ => .error (.expectedGroupList key)

/-- The predicates of the expressions in a group, in order. -/
def branches (options : Options) (key : String) :
    List Argument → Except Violation (List Operand)
  | [] => .ok []
  | .object entries :: rest => do
    let nested ← clauses options entries
    let others ← branches options key rest
    return .document (Document.merge [] nested) :: others
  | _ :: _ => .error (.expectedGroupList key)

def clauses (options : Options) : List (String × Argument) → Except Violation (List Clause)
  | [] => .ok []
  | (key, value) :: rest => do
    let first ← clauseOf options key value
    let others ← clauses options rest
    return first.toList ++ others

end

/-- The predicate of an expression on its own, as it stands in a branch of a group. -/
def predicate (options : Options) (expression : Expression) : Except Violation Document :=
  (clauses options expression).map fun clauses => Document.merge [] clauses

@[simp] theorem clauses_nil (options : Options) : clauses options [] = .ok [] := rfl

theorem clauses_cons (options : Options) (key : String) (value : Argument) (rest : Expression) :
    clauses options ((key, value) :: rest) = do
      let first ← clauseOf options key value
      let others ← clauses options rest
      return first.toList ++ others := rfl

theorem clauseOf_of_isBlank {value : Argument} (blank : value.isBlank = true)
    (options : Options) (key : String) : clauseOf options key value = .ok none := by
  simp [clauseOf, blank]

theorem clauses_cons_of_isBlank {value : Argument} (blank : value.isBlank = true)
    (options : Options) (key : String) (rest : Expression) :
    clauses options ((key, value) :: rest) = clauses options rest := by
  rw [clauses_cons, clauseOf_of_isBlank blank]
  cases clauses options rest <;> rfl

end Expression

/-- The predicate that a query runs: what the filter asks, of records that were not deleted. -/
def livePredicate (options : Options) (filter : Option Expression) : Except Violation Document :=
  ((filter.getD []).predicate options).map fun predicate => Document.merge predicate liveClause

end ListQuery
