import ListQuery.Predicate
import Mathlib.Data.List.Forall2

set_option autoImplicit false

/-!
What the clauses of an expression are: the clause of a group or of a field for each entry that is
not blank, entry by entry. Expressions stand inside expressions only as the objects in the list of
an entry; `Expression.nested_induction` is the induction over that, and `Expression.walk_induction`
the one that also goes from entry to entry and from item to item.
-/

namespace ListQuery

theorem bind_eq_ok_iff {ε α β : Type} {first : Except ε α} {next : α → Except ε β} {result : β} :
    first >>= next = .ok result ↔ ∃ value, first = .ok value ∧ next value = .ok result := by
  cases first <;> simp [bind, Except.bind]

theorem map_eq_ok_iff {ε α β : Type} {first : Except ε α} {next : α → β} {result : β} :
    first.map next = .ok result ↔ ∃ value, first = .ok value ∧ next value = result := by
  cases first <;> simp [Except.map]

theorem Operator.textOperand_eq_ok_iff {key : String} {value : Argument} {operand : Operand}
    {build : List Char → Document} :
    textOperand key value build = .ok operand ↔
      ∃ text, value.toText? = some text ∧ operand = .document (build text.toList) := by
  unfold textOperand
  cases value.toText? <;> simp [eq_comm]

theorem fieldClause_some_eq_ok_iff {options : Options} {key field : String} {value : Argument}
    {operator : Operator} {clause : Clause} :
    fieldClause options key field value (some operator) = .ok clause ↔
      ∃ operand, operator.operand options key field value = .ok operand ∧
        clause = (operator.target field, operand) := by
  simp only [fieldClause]
  cases operator.operand options key field value <;> simp [Except.map, eq_comm]

theorem Argument.eq_object_of_object? {value : Argument} {entries : Expression}
    (shape : value.object? = some entries) : value = .object entries := by
  cases value with
  | object inner => exact congrArg Argument.object (Option.some.inj shape)
  | _ => cases shape

namespace Expression

/-- What holds of an expression if it holds of all expressions in its lists holds of all. -/
theorem nested_induction {motive : Expression → Prop}
    (step : ∀ expression : Expression,
      (∀ key items nested, (key, Argument.list items) ∈ expression →
        Argument.object nested ∈ items → motive nested) → motive expression)
    (expression : Expression) : motive expression := by
  apply step
  intro key items nested entry item
  exact nested_induction step nested
termination_by sizeOf expression
decreasing_by
  have outer := List.sizeOf_lt_of_mem entry
  have inner := List.sizeOf_lt_of_mem item
  simp only [Prod.mk.sizeOf_spec, Argument.list.sizeOf_spec, Argument.object.sizeOf_spec] at *
  omega

theorem entry_induction {motive : Expression → Prop} (nil : motive [])
    (cons : ∀ key value rest,
      (∀ items nested, value = .list items → .object nested ∈ items → motive nested) →
      motive rest → motive ((key, value) :: rest)) : ∀ expression : Expression, motive expression
  | [] => nil
  | (key, value) :: rest => by
    apply cons key value rest
    · intro items nested listed item
      exact entry_induction nil cons nested
    · exact entry_induction nil cons rest
termination_by expression => sizeOf expression
decreasing_by
  · have inner := List.sizeOf_lt_of_mem item
    simp only [listed, List.cons.sizeOf_spec, Prod.mk.sizeOf_spec, Argument.list.sizeOf_spec,
      Argument.object.sizeOf_spec] at *
    omega
  · simp only [List.cons.sizeOf_spec]
    omega

/-- The induction that a walk through groups asks for: what holds of no entries and of no items, of
entries if of those after the first and of the items in its list, and of items if of those after the
first and of the expression that it is, holds of all expressions. -/
theorem walk_induction (group : List Argument → Prop) {motive : Expression → Prop}
    (nil : motive [])
    (cons : ∀ key value rest, (∀ items, value = .list items → group items) → motive rest →
      motive ((key, value) :: rest))
    (noItem : group [])
    (object : ∀ entries rest, motive entries → group rest → group (.object entries :: rest))
    (scalar : ∀ item rest, item.object? = none → group rest → group (item :: rest))
    (expression : Expression) : motive expression := by
  induction expression using entry_induction with
  | nil => exact nil
  | cons key value rest nested later =>
    apply cons key value rest _ later
    intro items listed
    have inside : ∀ entries, .object entries ∈ items → motive entries :=
      fun entries => nested items entries listed
    clear listed
    induction items with
    | nil => exact noItem
    | cons item rest ih =>
      have tail : group rest := by
        apply ih
        intro entries member
        exact inside entries (List.mem_cons_of_mem _ member)
      cases shape : item.object? with
      | none => exact scalar item rest shape tail
      | some entries =>
        obtain rfl := Argument.eq_object_of_object? shape
        exact object entries rest (inside entries (List.mem_cons_self ..)) tail

theorem clauses_append (options : Options) (first second : Expression) :
    clauses options (first ++ second) = do
      let front ← clauses options first
      let back ← clauses options second
      return front ++ back := by
  induction first with
  | nil =>
    cases back : clauses options second <;> simp [back, bind, Except.bind, pure, Except.pure]
  | cons entry rest ih =>
    obtain ⟨key, value⟩ := entry
    rw [List.cons_append, clauses_cons, clauses_cons, ih]
    cases clauseOf options key value <;> cases clauses options rest <;>
      cases clauses options second <;> simp [bind, Except.bind, pure, Except.pure]

theorem clauses_cons_eq_ok_iff {options : Options} {key : String} {value : Argument}
    {rest : Expression} {read : List Clause} :
    clauses options ((key, value) :: rest) = .ok read ↔
      ∃ first others, clauseOf options key value = .ok first ∧
        clauses options rest = .ok others ∧ read = first.toList ++ others := by
  rw [clauses_cons]
  cases clauseOf options key value <;> cases clauses options rest <;>
    simp [bind, Except.bind, pure, Except.pure, eq_comm]

theorem clauses_append_eq_ok_iff {options : Options} {first second : Expression}
    {read : List Clause} :
    clauses options (first ++ second) = .ok read ↔
      ∃ front back, clauses options first = .ok front ∧ clauses options second = .ok back ∧
        read = front ++ back := by
  rw [clauses_append]
  cases clauses options first <;> cases clauses options second <;>
    simp [bind, Except.bind, pure, Except.pure, eq_comm]

theorem predicate_eq_ok_iff {options : Options} {expression : Expression} {document : Document} :
    expression.predicate options = .ok document ↔
      ∃ read, clauses options expression = .ok read ∧ document = Document.merge [] read := by
  unfold predicate
  cases clauses options expression <;> simp [Except.map, eq_comm]

theorem distinct_of_predicate {options : Options} {expression : Expression} {predicate : Document}
    (success : expression.predicate options = .ok predicate) : Mapping.Distinct predicate := by
  obtain ⟨read, -, rfl⟩ := predicate_eq_ok_iff.mp success
  have empty : Mapping.Distinct ([] : Document) := List.nodup_nil
  exact Document.distinct_merge empty read

theorem exists_mem_of_mem_clauses {options : Options} {expression : Expression}
    {read : List Clause} (success : clauses options expression = .ok read) {clause : Clause}
    (inside : clause ∈ read) :
    ∃ key value, (key, value) ∈ expression ∧ clauseOf options key value = .ok (some clause) := by
  induction expression generalizing read with
  | nil =>
    cases success
    cases inside
  | cons entry rest ih =>
    obtain ⟨key, value⟩ := entry
    obtain ⟨first, others, own, later, rfl⟩ := clauses_cons_eq_ok_iff.mp success
    rcases List.mem_append.mp inside with here | there
    · obtain rfl := Option.mem_toList.mp here
      exact ⟨key, value, by simp, own⟩
    · obtain ⟨name, held, member, origin⟩ := ih later there
      exact ⟨name, held, List.mem_cons_of_mem _ member, origin⟩

theorem exists_clauseOf_of_mem {options : Options} {expression : Expression}
    {read : List Clause} (success : clauses options expression = .ok read) {key : String}
    {value : Argument} (inside : (key, value) ∈ expression) :
    ∃ own, clauseOf options key value = .ok own := by
  obtain ⟨front, back, rfl⟩ := List.append_of_mem inside
  obtain ⟨-, rest, -, tail, -⟩ := clauses_append_eq_ok_iff.mp success
  obtain ⟨own, -, here, -, -⟩ := clauses_cons_eq_ok_iff.mp tail
  exact ⟨own, here⟩

/-- What an entry with a clause is. -/
inductive Gives (options : Options) (key : String) (value : Argument) (clause : Clause) : Prop
  | group (connective : Connective) (items : List Argument) (predicates : List Operand) :
    Key.parse key = .group connective → value = .list items →
    branches options key items = .ok predicates →
    clause = (connective.symbol, .array predicates) → Gives options key value clause
  | field (field : String) (operator : Option Operator) :
    Key.parse key = .field field operator →
    fieldClause options key field value operator = .ok clause → Gives options key value clause

theorem gives_of_clauseOf {options : Options} {key : String} {value : Argument} {clause : Clause}
    (own : clauseOf options key value = .ok (some clause)) :
    value.isBlank = false ∧ Gives options key value clause := by
  unfold clauseOf at own
  split at own
  · cases own
  · rename_i solid
    refine ⟨by simpa using solid, ?_⟩
    split at own
    · rename_i field operator parsed
      obtain ⟨found, read, equal⟩ := map_eq_ok_iff.mp own
      exact .field field operator parsed (Option.some.inj equal ▸ read)
    · rename_i connective parsed
      split at own
      · rename_i items
        obtain ⟨predicates, read, made⟩ := bind_eq_ok_iff.mp own
        have equal := Option.some.inj (Except.ok.inj made)
        exact .group connective items predicates parsed rfl read equal.symm
      · cases own

theorem clauseOf_of_operator {options : Options} {key field : String} {value : Argument}
    {operator : Operator} {operand : Operand} (solid : value.isBlank = false)
    (parsed : Key.parse key = .field field (some operator))
    (read : operator.operand options key field value = .ok operand) :
    clauseOf options key value = .ok (some (operator.target field, operand)) := by
  rw [clauseOf, solid, if_neg Bool.false_ne_true, parsed]
  simp only [fieldClause, read]
  rfl

/-- An item of a group and the predicate of its expression. -/
def Branch (options : Options) (item : Argument) (operand : Operand) : Prop :=
  ∃ nested document, item = .object nested ∧ predicate options nested = .ok document ∧
    operand = .document document

theorem branches_object (options : Options) (key : String) (nested : Expression)
    (rest : List Argument) :
    branches options key (.object nested :: rest) = do
      let document ← predicate options nested
      let others ← branches options key rest
      return .document document :: others := by
  rw [branches, predicate]
  cases clauses options nested <;> rfl

theorem branches_of_not_object {options : Options} {key : String} {item : Argument}
    (scalar : item.object? = none) (rest : List Argument) :
    branches options key (item :: rest) = .error (.expectedGroupList key) := by
  cases item with
  | object nested => cases scalar
  | _ => rfl

theorem branches_eq_ok_iff {options : Options} {key : String} {items : List Argument}
    {operands : List Operand} :
    branches options key items = .ok operands ↔ List.Forall₂ (Branch options) items operands := by
  induction items generalizing operands with
  | nil =>
    rw [List.forall₂_nil_left_iff]
    exact ⟨fun equal => (Except.ok.inj equal).symm, fun equal => equal ▸ rfl⟩
  | cons item rest ih =>
    rw [List.forall₂_cons_left_iff]
    cases shape : item.object? with
    | none =>
      rw [branches_of_not_object shape]
      constructor
      · intro impossible
        cases impossible
      · rintro ⟨_, _, ⟨nested, document, rfl, -, -⟩, -, -⟩
        cases shape
    | some nested =>
      obtain rfl := Argument.eq_object_of_object? shape
      rw [branches_object]
      cases read : predicate options nested with
      | error violation =>
        constructor
        · intro impossible
          cases impossible
        · rintro ⟨_, _, ⟨inner, document, equal, found, -⟩, -, -⟩
          cases equal
          rw [read] at found
          cases found
      | ok document =>
        constructor
        · intro success
          obtain ⟨first, found, remaining⟩ := bind_eq_ok_iff.mp success
          obtain ⟨others, later, made⟩ := bind_eq_ok_iff.mp remaining
          obtain rfl := Except.ok.inj found
          have equal := Except.ok.inj made
          exact ⟨_, others, ⟨nested, document, rfl, read, rfl⟩, ih.mp later, equal.symm⟩
        · rintro ⟨_, others, ⟨inner, found, equal, same, rfl⟩, remaining, rfl⟩
          cases equal
          obtain rfl := Except.ok.inj (read.symm.trans same)
          rw [ih.mpr remaining]
          rfl

theorem exists_mem_of_mem_branches {options : Options} {key : String} {items : List Argument}
    {operands : List Operand} (success : branches options key items = .ok operands)
    {operand : Operand} (inside : operand ∈ operands) :
    ∃ nested document, Argument.object nested ∈ items ∧
      predicate options nested = .ok document ∧ operand = .document document := by
  have related := branches_eq_ok_iff.mp success
  clear success
  induction related with
  | nil => cases inside
  | cons branch _ ih =>
    rcases List.mem_cons.mp inside with rfl | there
    · obtain ⟨nested, document, rfl, read, origin⟩ := branch
      exact ⟨nested, document, by simp, read, origin⟩
    · obtain ⟨nested, document, member, read, origin⟩ := ih there
      exact ⟨nested, document, List.mem_cons_of_mem _ member, read, origin⟩

end Expression

theorem livePredicate_eq_ok_iff {options : Options} {filter : Option Expression}
    {live : Document} :
    livePredicate options filter = .ok live ↔
      ∃ predicate, (filter.getD []).predicate options = .ok predicate ∧
        live = Document.merge predicate liveClause := by
  unfold livePredicate
  cases (filter.getD []).predicate options with
  | error violation => simp [Except.map]
  | ok predicate => simp [Except.map, eq_comm]

theorem livePredicate_some_eq_ok_iff {options : Options} {expression : Expression}
    {live : Document} :
    livePredicate options (some expression) = .ok live ↔
      ∃ read, Expression.clauses options expression = .ok read ∧
        live = Document.merge (Document.merge [] read) liveClause := by
  rw [livePredicate_eq_ok_iff]
  simp only [Option.getD_some, Expression.predicate_eq_ok_iff]
  constructor
  · rintro ⟨predicate, ⟨read, success, rfl⟩, equal⟩
    exact ⟨read, success, equal⟩
  · rintro ⟨read, success, equal⟩
    exact ⟨_, ⟨read, success, rfl⟩, equal⟩

theorem livePredicate_some_eq_error_iff {options : Options} {expression : Expression}
    {violation : Violation} :
    livePredicate options (some expression) = .error violation ↔
      Expression.clauses options expression = .error violation := by
  unfold livePredicate Expression.predicate
  rw [Option.getD_some]
  cases Expression.clauses options expression <;> simp [Except.map]

end ListQuery
