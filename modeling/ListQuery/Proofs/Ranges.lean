import ListQuery.Proofs.Clauses
import ListQuery.Proofs.KeyGrammar

set_option autoImplicit false

/-!
Objects of comparisons. An entry of such an object names an operator of the store after the last mark
of its key, and the same operator can stand as the suffix of a key of its own. The clauses of those
keys are all about one field, and merged one after the other they are one clause
(`Document.merge_single_operators`), that of the object. So the object stands for the keys, alone
and among other entries (`livePredicate_range_eq_separate`).
-/

namespace ListQuery

/-- A document over what another one left is all of their entries over what was there before. -/
theorem Operand.over_over_document {first second : Document}
    (distinct : Mapping.Distinct (first ++ second)) (held : Option Operand) :
    Operand.over (some (Operand.over held (.document first))) (.document second) =
      Operand.over held (.document (first ++ second)) := by
  have replaced : Operand.document (Document.merge first second) = .document (first ++ second) :=
    congrArg Operand.document (Document.merge_eq_append distinct)
  rcases held with _ | held
  · exact replaced
  · cases held with
    | document base => exact congrArg Operand.document (Document.merge_append base first second).symm
    | _ => exact replaced

namespace Document

theorem merge_operators {first second : Document} (distinct : Mapping.Distinct (first ++ second))
    (base : Document) (field : String) :
    merge (merge base [(field, .document first)]) [(field, .document second)] =
      merge base [(field, .document (first ++ second))] := by
  simp only [merge_cons, merge_nil, Mapping.alter_alter, Operand.over_over_document distinct]

/-- A clause for each operator of a field, one after the other, is one clause with all of them. -/
theorem merge_single_operators {entries : Document} (nonempty : entries ≠ [])
    (distinct : Mapping.Distinct entries) (base : Document) (field : String) :
    merge base (entries.map fun entry => (field, .document [entry])) =
      merge base [(field, .document entries)] := by
  -- The clause made so far takes up the others, so the induction is for every such clause.
  have general : ∀ first rest : Document, Mapping.Distinct (first ++ rest) →
      merge (merge base [(field, .document first)])
          (rest.map fun entry => (field, .document [entry])) =
        merge base [(field, .document (first ++ rest))] := by
    intro first rest
    induction rest generalizing first with
    | nil =>
      intro _
      rw [List.map_nil, merge_nil, List.append_nil]
    | cons entry rest ih =>
      intro distinct
      rw [List.append_cons] at distinct
      have front : Mapping.Distinct (first ++ [entry]) :=
        distinct.sublist ((List.sublist_append_left _ rest).map Prod.fst)
      have step : merge (merge base [(field, .document first)])
          ((field, .document [entry]) :: rest.map fun entry => (field, .document [entry])) =
          merge (merge (merge base [(field, .document first)]) [(field, .document [entry])])
            (rest.map fun entry => (field, .document [entry])) :=
        merge_append _ [(field, .document [entry])] _
      rw [List.map_cons, step, merge_operators front, ih _ distinct, ← List.append_cons]
  cases entries with
  | nil => exact absurd rfl nonempty
  | cons entry rest => exact general [entry] rest distinct

end Document

/-- What an entry of an object of comparisons and a key with a suffix can both ask: a comparison with
a value that is not blank, or a selection of coerced items. -/
inductive Condition where
  | compare (comparison : Comparison) (value : Argument) (solid : value.isBlank = false)
  | oneOf (items : List Argument)
  | noneOf (items : List Argument)

namespace Condition

def operator : Condition → Operator
  | .compare comparison _ _ => .compare comparison
  | .oneOf _ => .select .oneOf
  | .noneOf _ => .select .noneOf

def value : Condition → Argument
  | .compare _ value _ => value
  | .oneOf items | .noneOf items => .list items

def symbol : Condition → String
  | .compare comparison _ _ => comparison.symbol
  | .oneOf _ => Selection.oneOf.symbol
  | .noneOf _ => Selection.noneOf.symbol

def entry (field : String) (condition : Condition) : String × Operand :=
  (condition.symbol, condition.value.coerce field)

theorem isBlank_value (condition : Condition) : condition.value.isBlank = false := by
  cases condition with
  | compare comparison value solid => exact solid
  | oneOf items => rfl
  | noneOf items => rfl

theorem target_operator (condition : Condition) (field : String) :
    condition.operator.target field = field := by
  cases condition <;> rfl

/-- The operator of the store is named by the word of the suffix. -/
theorem exists_word (condition : Condition) :
    ∃ word, condition.operator.suffix.toList = '_' :: word ∧ '_' ∉ word ∧
      condition.symbol = "$" ++ String.ofList word := by
  obtain ⟨word, ending, unmarked⟩ := condition.operator.exists_word
  have comparisons : ∀ comparison : Comparison, comparison.symbol =
      "$" ++ String.ofList (Operator.compare comparison).suffix.toList.tail := by
    intro comparison
    cases comparison <;> decide
  have selections : ∀ selection : Selection, selection.symbol =
      "$" ++ String.ofList (Operator.select selection).suffix.toList.tail := by
    intro selection
    cases selection <;> decide
  have named : condition.symbol = "$" ++ String.ofList condition.operator.suffix.toList.tail := by
    cases condition with
    | compare comparison value solid => exact comparisons comparison
    | oneOf items => exact selections .oneOf
    | noneOf items => exact selections .noneOf
  rw [ending, List.tail_cons] at named
  exact ⟨word, ending, unmarked, named⟩

theorem operator_eq_of_symbol {first second : Condition} (same : first.symbol = second.symbol) :
    first.operator = second.operator := by
  obtain ⟨word, ending, -, named⟩ := first.exists_word
  obtain ⟨other, suffix, -, symbol⟩ := second.exists_word
  have words : word = other := by
    have letters : first.symbol.toList = second.symbol.toList := congrArg String.toList same
    simpa [named, symbol] using letters
  apply Operator.suffix_injective
  apply String.toList_inj.mp
  rw [ending, suffix, words]

theorem clauseOf_key (condition : Condition) {field : String} (present : field ≠ "")
    (options : Options) :
    Expression.clauseOf options (field ++ condition.operator.suffix) condition.value =
      .ok (some (field, .document [condition.entry field])) := by
  have parsed : Key.parse (field ++ condition.operator.suffix) =
      .field field (some condition.operator) :=
    Key.parse_eq_field_some_iff.mpr ⟨rfl, present⟩
  have read : condition.operator.operand options (field ++ condition.operator.suffix) field
      condition.value = .ok (.document [condition.entry field]) := by
    cases condition with
    | compare comparison value solid => rfl
    | oneOf items | noneOf items =>
      simp only [operator, value, Operator.operand, Argument.list?, entry, Argument.coerce,
        Argument.coerceItems_eq_map]
      rfl
  rw [Expression.clauseOf_of_operator condition.isBlank_value parsed read, target_operator]

end Condition

/-- A condition as an entry of an object. -/
structure RangeEntry where
  key : String
  condition : Condition
  /-- The key is the word of the operator, or ends in its suffix. -/
  named : "_" ++ key = condition.operator.suffix ∨
    ∃ lead, key = lead ++ condition.operator.suffix

namespace RangeEntry

def object (entries : List RangeEntry) : Argument :=
  .object (entries.map fun entry => (entry.key, entry.condition.value))

/-- The conditions of the entries, each under a key of its own. -/
def separate (field : String) (entries : List RangeEntry) : Expression :=
  entries.map fun entry => (field ++ entry.condition.operator.suffix, entry.condition.value)

def operators (field : String) (entries : List RangeEntry) : Document :=
  entries.map fun entry => entry.condition.entry field

/-- What stands after the last mark of the key names the operator of the store. -/
theorem symbol_key (entry : RangeEntry) :
    "$" ++ String.ofList (Text.afterLast '_' entry.key.toList) = entry.condition.symbol := by
  obtain ⟨word, ending, unmarked, symbol⟩ := entry.condition.exists_word
  have last : Text.afterLast '_' entry.key.toList = word := by
    rcases entry.named with bare | ⟨lead, whole⟩
    · have letters : '_' :: entry.key.toList = '_' :: word := by
        rw [← ending, ← bare, String.toList_append]
        rfl
      rw [(List.cons.inj letters).2]
      exact Text.afterLast_of_notMem unmarked
    · rw [whole, String.toList_append, ending]
      exact Text.afterLast_append_cons unmarked lead.toList
  rw [last, symbol]

variable {field : String} {entries : List RangeEntry}

theorem distinct_operators (distinct : (entries.map fun entry => entry.condition.operator).Nodup) :
    Mapping.Distinct (operators field entries) := by
  unfold Mapping.Distinct Mapping.keys operators
  rw [List.map_map]
  unfold List.Nodup at distinct ⊢
  rw [List.pairwise_map] at distinct ⊢
  apply distinct.imp
  intro first second different same
  exact different (Condition.operator_eq_of_symbol same)

theorem rangeOperand_object
    (distinct : (entries.map fun entry => entry.condition.operator).Nodup) :
    Operator.rangeOperand field (entries.map fun entry => (entry.key, entry.condition.value)) =
      operators field entries := by
  rw [Operator.rangeOperand, List.map_map]
  have names : entries.map ((fun entry : String × Argument =>
      ("$" ++ String.ofList (Text.afterLast '_' entry.1.toList), entry.2.coerce field)) ∘
      fun entry => (entry.key, entry.condition.value)) = operators field entries := by
    apply List.map_congr_left
    intro entry _
    exact congrArg (·, entry.condition.value.coerce field) entry.symbol_key
  rw [names]
  exact Mapping.ofEntries_of_distinct (distinct_operators distinct)

theorem clauseOf_object (present : field ≠ "")
    (distinct : (entries.map fun entry => entry.condition.operator).Nodup) (options : Options) :
    Expression.clauseOf options (field ++ "_obj") (object entries) =
      .ok (some (field, .document (operators field entries))) := by
  have parsed : Key.parse (field ++ "_obj") = .field field (some .range) :=
    Key.parse_eq_field_some_iff.mpr ⟨rfl, present⟩
  apply Expression.clauseOf_of_operator rfl parsed
  rw [← rangeOperand_object distinct]
  rfl

theorem clauses_separate (present : field ≠ "") (options : Options)
    (entries : List RangeEntry) :
    Expression.clauses options (separate field entries) =
      .ok ((operators field entries).map fun entry => (field, .document [entry])) := by
  induction entries with
  | nil => rfl
  | cons entry rest ih =>
    apply Expression.clauses_cons_eq_ok_iff.mpr
    exact ⟨_, _, entry.condition.clauseOf_key present options, ih, rfl⟩

end RangeEntry

/-- Of two expressions whose clauses merge alike, one stands for the other among any entries. -/
theorem Expression.predicate_replace {options : Options} {first second : Expression}
    {one two : List Clause} (left : clauses options first = .ok one)
    (right : clauses options second = .ok two)
    (same : ∀ base, Document.merge base one = Document.merge base two)
    (before after : Expression) :
    predicate options (before ++ first ++ after) = predicate options (before ++ second ++ after) := by
  simp only [predicate, clauses_append, left, right]
  cases clauses options before with
  | error violation => rfl
  | ok front =>
    cases clauses options after with
    | error violation => rfl
    | ok back =>
      show Except.ok (Document.merge [] (front ++ one ++ back)) =
        Except.ok (Document.merge [] (front ++ two ++ back))
      simp only [Document.merge_append, same]

/-- An object of comparisons asks for its field what the operators ask as suffixes of keys of their
own, in their order, and stands for these keys among any other entries. -/
theorem livePredicate_range_eq_separate (options : Options) {field : String}
    (present : field ≠ "") {entries : List RangeEntry} (nonempty : entries ≠ [])
    (distinct : (entries.map fun entry => entry.condition.operator).Nodup) :
    livePredicate options (some [(field ++ "_obj", RangeEntry.object entries)]) =
      livePredicate options (some (RangeEntry.separate field entries)) ∧
    livePredicate options (some (RangeEntry.separate field entries)) =
      .ok (Document.merge [(field, .document (RangeEntry.operators field entries))] liveClause) ∧
    ∀ before after : Expression,
      livePredicate options
          (some (before ++ (field ++ "_obj", RangeEntry.object entries) :: after)) =
        livePredicate options (some (before ++ RangeEntry.separate field entries ++ after)) := by
  have range : Expression.clauses options [(field ++ "_obj", RangeEntry.object entries)] =
      .ok [(field, .document (RangeEntry.operators field entries))] :=
    Expression.clauses_cons_eq_ok_iff.mpr
      ⟨_, [], RangeEntry.clauseOf_object present distinct options, rfl, rfl⟩
  have separate := RangeEntry.clauses_separate present options entries
  have asked : RangeEntry.operators field entries ≠ [] := by
    simpa [RangeEntry.operators] using nonempty
  have merged := Document.merge_single_operators asked (RangeEntry.distinct_operators distinct)
  have among : ∀ before after : Expression,
      livePredicate options
          (some (before ++ (field ++ "_obj", RangeEntry.object entries) :: after)) =
        livePredicate options (some (before ++ RangeEntry.separate field entries ++ after)) := by
    intro before after
    have replaced := Expression.predicate_replace separate range (merged · field) before after
    rw [List.append_assoc before [_] after, List.singleton_append] at replaced
    simp only [livePredicate, Option.getD_some, replaced]
  have alone := among [] []
  simp only [List.nil_append, List.append_nil] at alone
  refine ⟨alone, ?_, among⟩
  rw [← alone, livePredicate_some_eq_ok_iff]
  exact ⟨_, range, by rw [Document.merge_nil_left (by simp [Mapping.Distinct])]⟩

/-- Bounds of the field of deletion, named in three ways, and a list with a word of truth. -/
theorem livePredicate_range_of_deletion :
    livePredicate {} (some [("deletedAt_obj", .object [("removed_at_gte", .int 1), ("_lt", .int 9),
        ("in", .list [.text "true", .text "7"])])]) =
      livePredicate {} (some [("deletedAt_gte", .int 1), ("deletedAt_lt", .int 9),
        ("deletedAt_in", .list [.text "true", .text "7"])]) ∧
    livePredicate {} (some [("deletedAt_gte", .int 1), ("deletedAt_lt", .int 9),
        ("deletedAt_in", .list [.text "true", .text "7"])]) =
      .ok [("deletedAt", .document [("$gte", .int 1), ("$lt", .int 9),
        ("$in", .array [.bool true, .text "7"]), ("isSet", .bool false)])] := by
  let entries : List RangeEntry :=
    [⟨"removed_at_gte", .compare .atLeast (.int 1) rfl, Or.inr ⟨"removed_at", by decide⟩⟩,
      ⟨"_lt", .compare .below (.int 9) rfl, Or.inr ⟨"", by decide⟩⟩,
      ⟨"in", .oneOf [.text "true", .text "7"], Or.inl (by decide)⟩]
  have key : "deletedAt" ++ "_obj" = "deletedAt_obj" := by decide
  have keys : RangeEntry.separate "deletedAt" entries = [("deletedAt_gte", .int 1),
      ("deletedAt_lt", .int 9), ("deletedAt_in", .list [.text "true", .text "7"])] := by
    simp [RangeEntry.separate, entries, Condition.operator, Condition.value, Operator.suffix]
  have equal := @livePredicate_range_eq_separate {} "deletedAt" (by decide) entries
    (by simp [entries]) (by decide)
  rw [key, keys] at equal
  exact ⟨equal.1, equal.2.1⟩

end ListQuery
