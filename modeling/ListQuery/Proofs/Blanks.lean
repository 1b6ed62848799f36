import ListQuery.Proofs.FirstViolation

set_option autoImplicit false

/-!
Blank entries. `Expression.withoutBlanks` takes them out of an expression and of the expressions in
its groups; what a filter means or is refused for is the same without them
(`livePredicate_withoutBlanks`), whatever the key of a blank entry is.
-/

namespace ListQuery

namespace Expression

mutual

/-- The entries that are not blank, and the same in the expressions of their groups. -/
def withoutBlanks : List (String × Argument) → Expression
  | [] => []
  | (key, value) :: rest =>
    if value.isBlank then withoutBlanks rest
    else (key, valueWithoutBlanks key value) :: withoutBlanks rest

/-- The value of an entry. Only the list of a group has expressions in it. -/
def valueWithoutBlanks (key : String) : Argument → Argument
  | .list items =>
    match Key.parse key with
    | .group _ => .list (itemsWithoutBlanks items)
    | .field _ _ => .list items
  | value => value

/-- The items of a group. Each stays, if with no entry left. -/
def itemsWithoutBlanks : List Argument → List Argument
  | [] => []
  | .object entries :: rest => .object (withoutBlanks entries) :: itemsWithoutBlanks rest
  | item :: rest => item :: itemsWithoutBlanks rest

end

theorem valueWithoutBlanks_of_field {key field : String} {operator : Option Operator}
    (parsed : Key.parse key = .field field operator) (value : Argument) :
    valueWithoutBlanks key value = value := by
  cases value with
  | list items => simp only [valueWithoutBlanks, parsed]
  | _ => rfl

theorem valueWithoutBlanks_list_of_group {key : String} {connective : Connective}
    (parsed : Key.parse key = .group connective) (items : List Argument) :
    valueWithoutBlanks key (.list items) = .list (itemsWithoutBlanks items) := by
  simp only [valueWithoutBlanks, parsed]

theorem isBlank_valueWithoutBlanks (key : String) (value : Argument) :
    (valueWithoutBlanks key value).isBlank = value.isBlank := by
  cases value with
  | list items =>
    unfold valueWithoutBlanks
    split <;> rfl
  | _ => rfl

section Clauses

variable {options : Options}

theorem clauseOf_valueWithoutBlanks {key : String} {value : Argument}
    (group : ∀ items, value = .list items →
      branches options key (itemsWithoutBlanks items) = branches options key items) :
    clauseOf options key (valueWithoutBlanks key value) = clauseOf options key value := by
  cases parsed : Key.parse key with
  | field field operator => rw [valueWithoutBlanks_of_field parsed]
  | group connective =>
    cases value with
    | list items =>
      rw [valueWithoutBlanks_list_of_group parsed]
      simp only [clauseOf, Argument.isBlank, parsed, group items rfl]
    | _ => rfl

/-- Blank entries give no clause and no violation, at any depth. -/
theorem clauses_withoutBlanks (expression : Expression) :
    clauses options (withoutBlanks expression) = clauses options expression := by
  induction expression using walk_induction fun items => ∀ key,
      branches options key (itemsWithoutBlanks items) = branches options key items with
  | nil => rfl
  | cons key value rest group later =>
    cases blank : value.isBlank with
    | true => rw [withoutBlanks, if_pos blank, later, clauses_cons_of_isBlank blank]
    | false =>
      have own : clauseOf options key (valueWithoutBlanks key value) =
          clauseOf options key value :=
        clauseOf_valueWithoutBlanks fun items listed => group items listed key
      rw [withoutBlanks, if_neg (by simp [blank]), clauses_cons, clauses_cons, own, later]
  | noItem key =>
    rfl
  | object entries rest nested later key =>
    rw [itemsWithoutBlanks, branches, branches, nested, later]
  | scalar item rest shape later key =>
    have kept : itemsWithoutBlanks (item :: rest) = item :: itemsWithoutBlanks rest := by
      cases item with
      | object entries => cases shape
      | _ => rfl
    rw [kept, branches_of_not_object shape, branches_of_not_object shape]

end Clauses

theorem exists_of_mem_withoutBlanks {expression : Expression} {key : String} {value : Argument}
    (inside : (key, value) ∈ withoutBlanks expression) :
    ∃ whole, (key, whole) ∈ expression ∧ whole.isBlank = false ∧
      value = valueWithoutBlanks key whole := by
  induction expression with
  | nil => cases inside
  | cons entry rest ih =>
    obtain ⟨name, first⟩ := entry
    have further : (key, value) ∈ withoutBlanks rest →
        ∃ whole, (key, whole) ∈ (name, first) :: rest ∧ whole.isBlank = false ∧
          value = valueWithoutBlanks key whole := by
      intro there
      obtain ⟨whole, member, solid, equal⟩ := ih there
      exact ⟨whole, List.mem_cons_of_mem _ member, solid, equal⟩
    cases blank : first.isBlank with
    | true =>
      rw [withoutBlanks, if_pos blank] at inside
      exact further inside
    | false =>
      rw [withoutBlanks, if_neg (by simp [blank])] at inside
      rcases List.mem_cons.mp inside with here | there
      · obtain ⟨rfl, rfl⟩ := Prod.mk.inj here
        exact ⟨first, List.mem_cons_self .., blank, rfl⟩
      · exact further there

theorem exists_of_mem_itemsWithoutBlanks {items : List Argument} {nested : Expression}
    (inside : Argument.object nested ∈ itemsWithoutBlanks items) :
    ∃ whole, Argument.object whole ∈ items ∧ nested = withoutBlanks whole := by
  induction items with
  | nil => cases inside
  | cons item rest ih =>
    have further : Argument.object nested ∈ itemsWithoutBlanks rest →
        ∃ whole, Argument.object whole ∈ item :: rest ∧ nested = withoutBlanks whole := by
      intro there
      obtain ⟨whole, member, equal⟩ := ih there
      exact ⟨whole, List.mem_cons_of_mem _ member, equal⟩
    cases item with
    | object entries =>
      rw [itemsWithoutBlanks] at inside
      rcases List.mem_cons.mp inside with here | there
      · exact ⟨entries, List.mem_cons_self .., Argument.object.inj here⟩
      · exact further there
    | _ =>
      rcases List.mem_cons.mp inside with here | there
      · cases here
      · exact further there

theorem isBlank_of_visits_withoutBlanks (expression : Expression) :
    ∀ key value, Visits (withoutBlanks expression) key value → value.isBlank = false := by
  induction expression using nested_induction with
  | step expression ih =>
    intro key value visited
    cases visited with
    | here inside =>
      obtain ⟨whole, -, solid, rfl⟩ := exists_of_mem_withoutBlanks inside
      rw [isBlank_valueWithoutBlanks, solid]
    | group inside parsed item visited =>
      obtain ⟨whole, entry, -, equal⟩ := exists_of_mem_withoutBlanks inside
      cases whole with
      | list items =>
        rw [valueWithoutBlanks_list_of_group parsed, Argument.list.injEq] at equal
        rw [equal] at item
        obtain ⟨nested, member, rfl⟩ := exists_of_mem_itemsWithoutBlanks item
        exact ih _ items nested entry member key value visited
      | _ => cases equal

end Expression

/-- A filter gives the predicate, or is refused for the violation, that it would without its blank
entries and those in its groups. None is left there. -/
theorem livePredicate_withoutBlanks (options : Options) (expression : Expression) :
    livePredicate options (some (Expression.withoutBlanks expression)) =
      livePredicate options (some expression) ∧
    ∀ key value, Expression.Visits (Expression.withoutBlanks expression) key value →
      value.isBlank = false := by
  constructor
  · simp only [livePredicate, Option.getD_some, Expression.predicate,
      Expression.clauses_withoutBlanks]
  · exact Expression.isBlank_of_visits_withoutBlanks expression

/-- Blank entries whose keys would be refused, before and inside a group. -/
theorem livePredicate_withoutBlanks_in_group :
    ∃ live,
      livePredicate {} (some [("a_dregex", .null), ("OR", .list [.object [("b_in", .text ""),
        ("c", .int 1)], .object [("d_id", .null)]])]) = .ok live ∧
      livePredicate {} (some [("OR", .list [.object [("c", .int 1)], .object []])]) = .ok live ∧
      Argument.isBlank (.int 1) = false := by
  let filter : Expression := [("a_dregex", .null), ("OR", .list [.object [("b_in", .text ""),
    ("c", .int 1)], .object [("d_id", .null)]])]
  have group : Key.parse "OR" = .group .disjunction := by cbv
  have rest : Expression.withoutBlanks filter =
      [("OR", .list [.object [("c", .int 1)], .object []])] := by
    simp [filter, Expression.withoutBlanks, Expression.valueWithoutBlanks,
      Expression.itemsWithoutBlanks, Argument.isBlank, group]
  have success : livePredicate {} (some [("OR", .list [.object [("c", .int 1)], .object []])]) =
      .ok [("$or", .array [.document [("c", .int 1)], .document []]),
        ("deletedAt", .document [("isSet", .bool false)])] := by cbv
  obtain ⟨same, left⟩ := livePredicate_withoutBlanks {} filter
  rw [rest] at same left
  refine ⟨_, same.symm.trans success, success, ?_⟩
  apply left "c" (.int 1)
  exact .group (List.mem_singleton_self _) group (List.mem_cons_self ..)
    (.here (List.mem_singleton_self _))

end ListQuery
