import ListQuery.Proofs.Clauses
import ListQuery.Proofs.KeyGrammar

set_option autoImplicit false

/-!
Which filters are refused, and for what. `Expression.violations` walks a filter depth first and left
to right and lists all that breaks a rule, without building anything; a predicate is refused for the
first violation in that list, and built when the list is empty
(`livePredicate_error_iff_first_violation`). `Expression.entryViolations_of_field` and
`Expression.entryViolations_of_group` read the violations off the suffix of a key and off the words
of groups.
-/

namespace ListQuery

/-- The key or token that the text for the caller names. -/
def Violation.subject : Violation → String
  | .expectedList key | .expectedObject key | .expectedScalar key | .invalidIdentifier key
  | .expectedGroupList key | .rawPatternDisabled key => key
  | .invalidOrder token => token

namespace Argument

def isList : Argument → Bool
  | .list _ => true
  | _ => false

def isObject : Argument → Bool
  | .object _ => true
  | _ => false

def isIdentifier : Argument → Bool
  | .text value => Identifier.hasShape value
  | _ => false

end Argument

namespace Operator

/-- How a value breaks the rule of the operator, if it does. -/
def violation? (options : Options) (key : String) (value : Argument) : Operator → Option Violation
  | .reference => if value.isIdentifier then none else some (.invalidIdentifier key)
  | .select _ => if value.isList then none else some (.expectedList key)
  | .range => if value.isObject then none else some (.expectedObject key)
  | .contains | .containsAnyCase | .words =>
    if value.isList || value.isObject then some (.expectedScalar key) else none
  | .pattern =>
    if options.rawPatterns then
      if value.isList || value.isObject then some (.expectedScalar key) else none
    else some (.rawPatternDisabled key)
  | .compare _ | .member => none

end Operator

def fieldViolation? (options : Options) (key : String) (value : Argument) :
    Option Operator → Option Violation
  | none => none
  | some operator => operator.violation? options key value

namespace Expression

mutual

/-- The violations of an entry. A blank value has none, whatever its key. -/
def entryViolations (options : Options) (key : String) (value : Argument) : List Violation :=
  if value.isBlank then []
  else match Key.parse key with
    | .field _ operator => (fieldViolation? options key value operator).toList
    | .group _ =>
      match value with
      | .list items => groupViolations options key items
      | _ => [.expectedGroupList key]

def groupViolations (options : Options) (key : String) : List Argument → List Violation
  | [] => []
  | .object entries :: rest => violations options entries ++ groupViolations options key rest
  | _ :: rest => .expectedGroupList key :: groupViolations options key rest

/-- All violations of an expression, in the order of a walk that goes into groups. -/
def violations (options : Options) : List (String × Argument) → List Violation
  | [] => []
  | (key, value) :: rest => entryViolations options key value ++ violations options rest

end

/-- Whether an expression has the entry, itself or in a group. -/
inductive Visits : Expression → String → Argument → Prop
  | here {expression : Expression} {key : String} {value : Argument} :
    (key, value) ∈ expression → Visits expression key value
  | group {expression nested : Expression} {key name : String} {connective : Connective}
      {items : List Argument} {value : Argument} :
    (key, .list items) ∈ expression → Key.parse key = .group connective →
    .object nested ∈ items → Visits nested name value → Visits expression name value

/-- Whether there is a rule for the value of the entry: it is not blank, and its key is that of a
group or has an operator other than a comparison or membership. -/
def hasRule (entry : String × Argument) : Bool :=
  !entry.2.isBlank &&
    match Key.parse entry.1 with
    | .field _ none | .field _ (some (.compare _)) | .field _ (some .member) => false
    | _ => true

end Expression

/-- The result is a failure with the first violation of the list, or the list is empty. -/
def Agrees {α : Type} (result : Except Violation α) (found : List Violation) : Prop :=
  match result with
  | .ok _ => found = []
  | .error violation => found.head? = some violation

section Agreement

variable {α β : Type} {result : Except Violation α} {found others : List Violation}

theorem agrees_map {function : α → β} (agrees : Agrees result found) :
    Agrees (result.map function) found := by
  cases result with
  | error violation => exact agrees
  | ok value => exact agrees

theorem agrees_bind {next : α → Except Violation β} (first : Agrees result found)
    (second : ∀ value, Agrees (next value) others) :
    Agrees (result >>= next) (found ++ others) := by
  cases result with
  | error violation =>
    show (found ++ others).head? = some violation
    have start : found.head? = some violation := first
    rw [List.head?_append, start]
    rfl
  | ok value =>
    have empty : found = [] := first
    rw [empty, List.nil_append]
    exact second value

theorem agrees_bind_pure {function : α → β} (agrees : Agrees result found) :
    Agrees (result >>= fun value => pure (function value)) found := by
  cases result with
  | error violation => exact agrees
  | ok value => exact agrees

theorem Agrees.error_iff (agrees : Agrees result found) (violation : Violation) :
    result = .error violation ↔ found.head? = some violation := by
  cases result with
  | error other =>
    have start : found.head? = some other := agrees
    rw [start, Except.error.injEq, Option.some.injEq]
  | ok value =>
    have empty : found = [] := agrees
    simp [empty]

theorem Agrees.ok_iff (agrees : Agrees result found) :
    (∃ value, result = .ok value) ↔ found = [] := by
  cases result with
  | error violation =>
    have start : found.head? = some violation := agrees
    constructor
    · intro ⟨value, impossible⟩
      cases impossible
    · intro empty
      rw [empty] at start
      cases start
  | ok value => exact ⟨fun _ => agrees, fun _ => ⟨value, rfl⟩⟩

end Agreement

namespace Argument

theorem isSome_identifier?_iff (value : Argument) :
    value.identifier?.isSome = true ↔ value.isIdentifier = true := by
  cases value with
  | text text => exact Identifier.isSome_ofHex?_iff text
  | _ => simp [identifier?, isIdentifier]

end Argument

namespace Operator

variable {options : Options} {key field : String} {value : Argument}

theorem agrees_textOperand (build : List Char → Document) :
    Agrees (textOperand key value build)
      (if value.isList || value.isObject then some (Violation.expectedScalar key)
        else none).toList := by
  cases value <;> rfl

theorem agrees_operand (operator : Operator) :
    Agrees (operator.operand options key field value)
      (operator.violation? options key value).toList := by
  cases operator with
  | reference =>
    have shape := Argument.isSome_identifier?_iff value
    simp only [operand, violation?]
    cases read : value.identifier? with
    | none =>
      have malformed : value.isIdentifier = false := by
        rw [read] at shape
        simpa using shape
      rw [malformed]
      rfl
    | some id =>
      have formed : value.isIdentifier = true := by
        rw [← shape, read]
        rfl
      rw [formed]
      rfl
  | select selection => cases value <;> rfl
  | range => cases value <;> rfl
  | contains | containsAnyCase | words =>
    simp only [operand, violation?]
    exact agrees_textOperand _
  | pattern =>
    simp only [operand, violation?]
    cases options.rawPatterns with
    | true => exact agrees_textOperand _
    | false => rfl
  | compare comparison => rfl
  | member => rfl

end Operator

theorem agrees_fieldClause {options : Options} {key field : String} {value : Argument}
    (operator : Option Operator) :
    Agrees (fieldClause options key field value operator)
      (fieldViolation? options key value operator).toList := by
  cases operator with
  | none => rfl
  | some operator => exact agrees_map (Operator.agrees_operand operator)

namespace Expression

variable {options : Options}

theorem agrees_clauseOf {key : String} {value : Argument}
    (group : ∀ items, value = .list items →
      Agrees (branches options key items) (groupViolations options key items)) :
    Agrees (clauseOf options key value) (entryViolations options key value) := by
  unfold clauseOf entryViolations
  cases blank : value.isBlank with
  | true => rfl
  | false =>
    simp only [Bool.false_eq_true, if_false]
    cases Key.parse key with
    | field field operator => exact agrees_map (agrees_fieldClause operator)
    | group connective =>
      cases value with
      | list items => exact agrees_bind_pure (group items rfl)
      | _ => rfl

/-- The clauses of an expression fail with the first violation of the walk. -/
theorem agrees_clauses (expression : Expression) :
    Agrees (clauses options expression) (violations options expression) := by
  induction expression using walk_induction fun items => ∀ key,
      Agrees (branches options key items) (groupViolations options key items) with
  | nil => rfl
  | cons key value rest group later =>
    rw [clauses_cons, violations]
    apply agrees_bind (agrees_clauseOf fun items listed => group items listed key)
    intro first
    exact agrees_bind_pure later
  | noItem key =>
    rfl
  | object entries rest nested later key =>
    rw [branches_object, groupViolations]
    apply agrees_bind (agrees_map nested)
    intro document
    exact agrees_bind_pure (later key)
  | scalar item rest shape later key =>
    cases item with
    | object entries => cases shape
    | _ => rfl

theorem agrees_livePredicate (filter : Option Expression) :
    Agrees (livePredicate options filter) (violations options (filter.getD [])) := by
  unfold livePredicate predicate
  exact agrees_map (agrees_map (agrees_clauses _))

end Expression

theorem Operator.subject_violation? {options : Options} {key : String} {value : Argument}
    {operator : Operator} {violation : Violation}
    (broken : operator.violation? options key value = some violation) :
    violation.subject = key := by
  unfold violation? at broken
  repeat' split at broken
  all_goals cases broken
  all_goals rfl

namespace Expression

variable {options : Options}

theorem exists_mem_of_mem_violations {expression : Expression} {violation : Violation}
    (found : violation ∈ violations options expression) :
    ∃ key value, (key, value) ∈ expression ∧ violation ∈ entryViolations options key value := by
  induction expression with
  | nil => cases found
  | cons entry rest ih =>
    obtain ⟨key, value⟩ := entry
    rw [violations] at found
    rcases List.mem_append.mp found with here | there
    · exact ⟨key, value, List.mem_cons_self .., here⟩
    · obtain ⟨name, other, inside, own⟩ := ih there
      exact ⟨name, other, List.mem_cons_of_mem _ inside, own⟩

theorem mem_groupViolations {key : String} {items : List Argument} {violation : Violation}
    (found : violation ∈ groupViolations options key items) :
    violation = .expectedGroupList key ∨
      ∃ nested, .object nested ∈ items ∧ violation ∈ violations options nested := by
  induction items with
  | nil => cases found
  | cons item rest ih =>
    have step : violation ∈ groupViolations options key rest →
        violation = .expectedGroupList key ∨
          ∃ nested, .object nested ∈ item :: rest ∧ violation ∈ violations options nested := by
      intro there
      rcases ih there with own | ⟨nested, inside, deeper⟩
      · exact Or.inl own
      · exact Or.inr ⟨nested, List.mem_cons_of_mem _ inside, deeper⟩
    cases item with
    | object entries =>
      rw [groupViolations] at found
      rcases List.mem_append.mp found with here | there
      · exact Or.inr ⟨entries, List.mem_cons_self .., here⟩
      · exact step there
    | _ =>
      rcases List.mem_cons.mp found with here | there
      · exact Or.inl here
      · exact step there

/-- Each violation names the key of an entry that the walk comes to. -/
theorem visits_of_mem_violations (expression : Expression) :
    ∀ violation ∈ violations options expression,
      ∃ value, Visits expression violation.subject value ∧ value.isBlank = false := by
  induction expression using nested_induction with
  | step expression ih =>
    intro violation found
    obtain ⟨key, value, entry, own⟩ := exists_mem_of_mem_violations found
    unfold entryViolations at own
    split at own
    · cases own
    · rename_i solid
      have visible : value.isBlank = false := by simpa using solid
      have direct : violation.subject = key →
          ∃ value, Visits expression violation.subject value ∧ value.isBlank = false := by
        intro same
        rw [same]
        exact ⟨value, .here entry, visible⟩
      split at own
      · rename_i field operator parsed
        cases operator with
        | none => cases own
        | some operator => exact direct (Operator.subject_violation? (Option.mem_toList.mp own))
      · rename_i connective parsed
        split at own
        · rename_i items
          rcases mem_groupViolations own with equal | ⟨nested, inside, deeper⟩
          · exact direct (congrArg Violation.subject equal)
          · obtain ⟨inner, visited, solid⟩ := ih key items nested entry inside violation deeper
            exact ⟨inner, .group entry parsed inside visited, solid⟩
        · exact direct (congrArg Violation.subject (List.mem_singleton.mp own))

theorem violations_filter_hasRule (expression : Expression) :
    violations options (expression.filter hasRule) = violations options expression := by
  induction expression with
  | nil => rfl
  | cons entry rest ih =>
    obtain ⟨key, value⟩ := entry
    rw [List.filter_cons]
    cases ruled : hasRule (key, value) with
    | true => rw [if_pos rfl, violations, violations, ih]
    | false =>
      have empty : entryViolations options key value = [] := by
        unfold entryViolations
        simp only [hasRule, Bool.and_eq_false_iff, Bool.not_eq_false'] at ruled
        rcases ruled with blank | free
        · rw [if_pos blank]
        · split
          · rfl
          · split at free
            · rename_i parsed
              rw [parsed]
              rfl
            · rename_i parsed
              rw [parsed]
              rfl
            · rename_i parsed
              rw [parsed]
              rfl
            · cases free
      rw [violations, empty, List.nil_append, ← ih]
      rfl

section Entries

variable {field : String} {value : Argument}

theorem entryViolations_append_suffix (present : field ≠ "") (solid : value.isBlank = false)
    (operator : Operator) :
    entryViolations options (field ++ operator.suffix) value =
      (operator.violation? options (field ++ operator.suffix) value).toList := by
  have parsed : Key.parse (field ++ operator.suffix) = .field field (some operator) :=
    Key.parse_eq_field_some_iff.mpr ⟨rfl, present⟩
  unfold entryViolations
  rw [solid, parsed]
  rfl

/-- What each suffix demands of a value that is not blank. -/
theorem entryViolations_of_field (present : field ≠ "") (solid : value.isBlank = false) :
    (∀ suffix ∈ ["_in", "_nin", "_all"], entryViolations options (field ++ suffix) value =
      if value.isList then [] else [.expectedList (field ++ suffix)]) ∧
    (entryViolations options (field ++ "_obj") value =
      if value.isObject then [] else [.expectedObject (field ++ "_obj")]) ∧
    (entryViolations options (field ++ "_id") value =
      if value.isIdentifier then [] else [.invalidIdentifier (field ++ "_id")]) ∧
    (∀ suffix ∈ ["_contains", "_regex", "_permute"],
      entryViolations options (field ++ suffix) value =
        if value.isList || value.isObject then [.expectedScalar (field ++ suffix)] else []) ∧
    (entryViolations options (field ++ "_dregex") value =
      if options.rawPatterns then
        if value.isList || value.isObject then [.expectedScalar (field ++ "_dregex")] else []
      else [.rawPatternDisabled (field ++ "_dregex")]) ∧
    ∀ suffix ∈ ["_eq", "_ne", "_lte", "_gte", "_lt", "_gt", "_has"],
      entryViolations options (field ++ suffix) value = [] := by
  have rule := @entryViolations_append_suffix options field value present solid
  refine ⟨?_, ?_, ?_, ?_, ?_, ?_⟩
  · intro suffix named
    obtain ⟨selection, -, rfl⟩ : ∃ selection ∈ [Selection.oneOf, .noneOf, .everyOf],
        (Operator.select selection).suffix = suffix := by
      revert suffix
      decide
    rw [rule, Operator.violation?]
    split <;> rfl
  · refine (rule .range).trans ?_
    rw [Operator.violation?]
    split <;> rfl
  · refine (rule .reference).trans ?_
    rw [Operator.violation?]
    split <;> rfl
  · intro suffix named
    obtain ⟨operator, searches, rfl⟩ :
        ∃ operator ∈ [Operator.contains, .containsAnyCase, .words], operator.suffix = suffix := by
      revert suffix
      decide
    rw [rule]
    simp only [List.mem_cons, List.not_mem_nil, or_false] at searches
    rcases searches with rfl | rfl | rfl
    all_goals
      rw [Operator.violation?]
      split <;> rfl
  · refine (rule .pattern).trans ?_
    rw [Operator.violation?]
    repeat' split
    all_goals rfl
  · intro suffix named
    obtain ⟨operator, free, rfl⟩ : ∃ operator ∈ [Operator.compare .equal, .compare .notEqual,
        .compare .atMost, .compare .atLeast, .compare .below, .compare .above, .member],
        operator.suffix = suffix := by
      revert suffix
      decide
    rw [rule]
    simp only [List.mem_cons, List.not_mem_nil, or_false] at free
    rcases free with rfl | rfl | rfl | rfl | rfl | rfl | rfl <;> rfl

theorem groupViolations_eq_flatMap (key : String) (items : List Argument) :
    groupViolations options key items = items.flatMap fun
      | .object nested => violations options nested
      | _ => [.expectedGroupList key] := by
  induction items with
  | nil => rfl
  | cons item rest ih =>
    rw [List.flatMap_cons, ← ih]
    cases item <;> rfl

/-- The items of a group are expressions, whose violations are its own, and each other item is a
violation. A group that is no list is one as a whole. -/
theorem entryViolations_of_group {word : String} (named : word ∈ ["OR", "or", "AND", "and"])
    (solid : value.isBlank = false) :
    entryViolations options word value =
      match value with
      | .list items => items.flatMap fun
        | .object nested => violations options nested
        | _ => [.expectedGroupList word]
      | _ => [.expectedGroupList word] := by
  obtain ⟨connective, -, found⟩ : ∃ connective ∈ [Connective.disjunction, .conjunction],
      Connective.ofWord? word = some connective := by
    revert word
    decide
  unfold entryViolations
  rw [solid, Key.parse_eq_group_iff.mpr found]
  cases value with
  | list items => exact groupViolations_eq_flatMap word items
  | _ => rfl

end Entries

end Expression

/-- A predicate is refused exactly for the first violation of the walk, and built exactly when the
walk meets none. Each violation names the key of an entry that is not blank, and entries that have
no rule, plain ones, comparisons and memberships, do not matter. -/
theorem livePredicate_error_iff_first_violation (options : Options) (filter : Option Expression) :
    (∀ violation, livePredicate options filter = .error violation ↔
      (Expression.violations options (filter.getD [])).head? = some violation) ∧
    ((∃ live, livePredicate options filter = .ok live) ↔
      Expression.violations options (filter.getD []) = []) ∧
    (∀ violation ∈ Expression.violations options (filter.getD []),
      ∃ value, Expression.Visits (filter.getD []) violation.subject value ∧
        value.isBlank = false) ∧
    Expression.violations options ((filter.getD []).filter Expression.hasRule) =
      Expression.violations options (filter.getD []) := by
  have agrees : Agrees (livePredicate options filter)
      (Expression.violations options (filter.getD [])) := Expression.agrees_livePredicate filter
  exact ⟨agrees.error_iff, agrees.ok_iff, Expression.visits_of_mem_violations _,
    Expression.violations_filter_hasRule _⟩

end ListQuery
