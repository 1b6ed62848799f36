import ListQuery.Proofs.Clauses
import ListQuery.Proofs.KeyGrammar

set_option autoImplicit false

/-!
Groups. A group is made of the predicates of its expressions and of nothing else about them, so
that an expression in it may give way to any other with the same predicate, however deep the group
stands (`livePredicate_of_groups`).
-/

namespace ListQuery

/-- The words of the connectives, with what they are in the store. -/
def Connective.words : List (String × String) :=
  [("OR", "$or"), ("or", "$or"), ("AND", "$and"), ("and", "$and")]

theorem Connective.exists_of_mem_words {word symbol : String} (inside : (word, symbol) ∈ words) :
    ∃ connective : Connective,
      Key.parse word = .group connective ∧ connective.symbol = symbol := by
  simp only [words, List.mem_cons, Prod.mk.injEq, List.not_mem_nil, or_false] at inside
  rcases inside with ⟨rfl, rfl⟩ | ⟨rfl, rfl⟩ | ⟨rfl, rfl⟩ | ⟨rfl, rfl⟩
  · exact ⟨.disjunction, Key.parse_eq_group_iff.mpr (by decide), rfl⟩
  · exact ⟨.disjunction, Key.parse_eq_group_iff.mpr (by decide), rfl⟩
  · exact ⟨.conjunction, Key.parse_eq_group_iff.mpr (by decide), rfl⟩
  · exact ⟨.conjunction, Key.parse_eq_group_iff.mpr (by decide), rfl⟩

/-- A place for an expression among the items of a group, with all that stands around it. -/
structure GroupPlace where
  earlier : Expression
  key : String
  isGroup : ∃ connective, Key.parse key = .group connective
  itemsBefore : List Argument
  itemsAfter : List Argument
  later : Expression

namespace GroupPlace

def fill (place : GroupPlace) (nested : Expression) : Expression :=
  place.earlier ++
    (place.key, .list (place.itemsBefore ++ .object nested :: place.itemsAfter)) :: place.later

/-- Fills the innermost of the places, each in the expression that fills the one before. -/
def fillAll (places : List GroupPlace) (nested : Expression) : Expression :=
  places.foldr fill nested

end GroupPlace

namespace Expression

variable {options : Options}

theorem clauseOf_group {key : String} {connective : Connective}
    (parsed : Key.parse key = .group connective) (items : List Argument) :
    clauseOf options key (.list items) = do
      let predicates ← branches options key items
      return some (connective.symbol, .array predicates) := by
  simp only [clauseOf, Argument.isBlank, parsed, Bool.false_eq_true, if_false]

theorem branches_map_object {key : String} {expressions : List Expression}
    {predicates : List Document}
    (each : List.Forall₂ (fun expression document => predicate options expression = .ok document)
      expressions predicates) :
    branches options key (expressions.map .object) = .ok (predicates.map .document) := by
  rw [branches_eq_ok_iff, List.forall₂_map_left_iff, List.forall₂_map_right_iff]
  apply each.imp
  intro expression document success
  exact ⟨expression, document, rfl, success, rfl⟩

theorem branches_replace {first second : Expression}
    (same : predicate options first = predicate options second) (key : String)
    (before after : List Argument) :
    branches options key (before ++ .object first :: after) =
      branches options key (before ++ .object second :: after) := by
  induction before with
  | nil => rw [List.nil_append, List.nil_append, branches_object, branches_object, same]
  | cons item rest ih =>
    rw [List.cons_append, List.cons_append]
    cases shape : item.object? with
    | none => rw [branches_of_not_object shape, branches_of_not_object shape]
    | some entries =>
      obtain rfl := Argument.eq_object_of_object? shape
      rw [branches_object, branches_object, ih]

theorem predicate_fill {first second : Expression}
    (same : predicate options first = predicate options second) (place : GroupPlace) :
    predicate options (place.fill first) = predicate options (place.fill second) := by
  obtain ⟨connective, parsed⟩ := place.isGroup
  have items := branches_replace same place.key place.itemsBefore place.itemsAfter
  unfold predicate GroupPlace.fill
  rw [clauses_append, clauses_append, clauses_cons, clauses_cons, clauseOf_group parsed,
    clauseOf_group parsed, items]

/-- What stands around an expression in groups sees its predicate alone, at every depth. -/
theorem predicate_fillAll {first second : Expression}
    (same : predicate options first = predicate options second) (places : List GroupPlace) :
    predicate options (GroupPlace.fillAll places first) =
      predicate options (GroupPlace.fillAll places second) := by
  induction places with
  | nil => exact same
  | cons place rest ih => exact predicate_fill ih place

end Expression

/-- A group alone gives the predicates of its expressions under its operator, and deleted records
are excluded beside the group, not in it. Expressions with the same predicate, or refused for the
same violation, may stand for each other in any group at any depth. -/
theorem livePredicate_of_groups (options : Options) :
    (∀ word symbol, (word, symbol) ∈ Connective.words → ∀ expressions predicates,
      List.Forall₂ (fun expression document =>
        Expression.predicate options expression = .ok document) expressions predicates →
      livePredicate options (some [(word, .list (expressions.map .object))]) =
        .ok [(symbol, .array (predicates.map .document)),
          ("deletedAt", .document [("isSet", .bool false)])]) ∧
    (∀ first second, Expression.predicate options first = Expression.predicate options second →
      ∀ places, livePredicate options (some (GroupPlace.fillAll places first)) =
        livePredicate options (some (GroupPlace.fillAll places second))) := by
  constructor
  · intro word symbol named expressions predicates each
    obtain ⟨connective, parsed, rfl⟩ := Connective.exists_of_mem_words named
    have clause : Expression.clauses options [(word, .list (expressions.map .object))] =
        .ok [(connective.symbol, .array (predicates.map .document))] := by
      rw [Expression.clauses_cons, Expression.clauseOf_group parsed,
        Expression.branches_map_object each]
      rfl
    rw [livePredicate_some_eq_ok_iff]
    refine ⟨_, clause, ?_⟩
    have apart : connective.symbol ≠ "deletedAt" := by cases connective <;> decide
    simp [Document.merge_cons, liveClause, deletionField, Document.single, Mapping.alter,
      Operand.over, apart]
  · intro first second same places
    unfold livePredicate
    rw [Option.getD_some, Option.getD_some, Expression.predicate_fillAll same]

/-- Two expressions with one predicate, in a group inside a group. -/
theorem livePredicate_of_groups_nested :
    livePredicate {} (some [("or", .list [.object [("age_gte", .int 18)], .object []])]) =
      .ok [("$or", .array [.document [("age", .document [("$gte", .int 18)])], .document []]),
        ("deletedAt", .document [("isSet", .bool false)])] ∧
    Expression.predicate {} [("a_gt", .int 1), ("a_lt", .int 2)] =
      Expression.predicate {} [("a", .object [("$gt", .int 1), ("$lt", .int 2)])] ∧
    livePredicate {} (some [("b", .int 3), ("AND", .list [.object [("OR", .list [.object [],
        .object [("a_gt", .int 1), ("a_lt", .int 2)]])]])]) =
      livePredicate {} (some [("b", .int 3), ("AND", .list [.object [("OR", .list [.object [],
        .object [("a", .object [("$gt", .int 1), ("$lt", .int 2)])]])]])]) := by
  have adults : Expression.predicate {} [("age_gte", .int 18)] =
      .ok [("age", .document [("$gte", .int 18)])] := by cbv
  have empty : Expression.predicate {} [] = .ok [] := by cbv
  have same : Expression.predicate {} [("a_gt", .int 1), ("a_lt", .int 2)] =
      Expression.predicate {} [("a", .object [("$gt", .int 1), ("$lt", .int 2)])] := by cbv
  let outer : GroupPlace := ⟨[("b", .int 3)], "AND", ⟨.conjunction, by cbv⟩, [], [], []⟩
  let inner : GroupPlace := ⟨[], "OR", ⟨.disjunction, by cbv⟩, [.object []], [], []⟩
  refine ⟨?_, same, (livePredicate_of_groups {}).2 _ _ same [outer, inner]⟩
  exact (livePredicate_of_groups {}).1 "or" "$or" (by decide) [[("age_gte", .int 18)], []]
    [[("age", .document [("$gte", .int 18)])], []] (.cons adults (.cons empty .nil))

end ListQuery
