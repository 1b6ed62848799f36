import ListQuery.Proofs.DistinctKeys

set_option autoImplicit false

/-!
Runs of edits. A document is built from the empty one by insertions, merges and the exclusion of
deleted records; no edit puts a key twice where none was twice before (`Document.wellFormed_edit`),
so no run does and no filter makes a document that has one (`no_key_twice`).
-/

namespace ListQuery

namespace Document

/-- One way to change a document. -/
inductive Edit where
  /-- Puts the operand at the key, over any operand held there. -/
  | insert (key : String) (operand : Operand)
  /-- Starts again, from one entry. -/
  | single (key : String) (operand : Operand)
  | merge (incoming : Document)
  /-- Merges the clause that excludes deleted records. -/
  | exclude

/-- What the edit brings in holds each key once, at every depth. -/
def Edit.WellFormed : Edit → Prop
  | .insert _ operand | .single _ operand => operand.WellFormed
  | .merge incoming => incoming.WellFormed
  | .exclude => True

instance : (change : Edit) → Decidable change.WellFormed
  | .insert _ operand | .single _ operand => inferInstanceAs (Decidable operand.WellFormed)
  | .merge incoming => inferInstanceAs (Decidable incoming.WellFormed)
  | .exclude => isTrue trivial

def edit (document : Document) : Edit → Document
  | .insert key operand => Mapping.insert document key operand
  | .single key operand => single key operand
  | .merge incoming => merge document incoming
  | .exclude => merge document liveClause

/-- The documents of a run: the one that it starts from and the one after each edit. -/
def history (start : Document) (edits : List Edit) : List Document := edits.scanl edit start

theorem history_cons (start : Document) (first : Edit) (rest : List Edit) :
    history start (first :: rest) = start :: history (start.edit first) rest :=
  List.scanl_cons

theorem wellFormed_edit {document : Document} (before : document.WellFormed) {change : Edit}
    (fine : change.WellFormed) : (document.edit change).WellFormed := by
  cases change with
  | insert key operand => exact wellFormed_alter before fine
  | single key operand => exact wellFormed_single fine
  | merge incoming => exact before.merge fine
  | exclude => exact before.merge wellFormed_liveClause

/-- So does a run of edits, after each of them. -/
theorem wellFormed_of_mem_history {start : Document} (before : start.WellFormed)
    {edits : List Edit} (fine : ∀ change ∈ edits, change.WellFormed) :
    ∀ reached ∈ history start edits, reached.WellFormed := by
  induction edits generalizing start with
  | nil =>
    intro reached inside
    have first : reached = start := by simpa [history] using inside
    rw [first]
    exact before
  | cons change rest ih =>
    have later : ∀ other ∈ rest, other.WellFormed := by
      intro other inside
      exact fine other (List.mem_cons_of_mem _ inside)
    have next : (start.edit change).WellFormed :=
      wellFormed_edit before (fine change (List.mem_cons_self ..))
    intro reached inside
    rw [history_cons] at inside
    rcases List.mem_cons.mp inside with first | there
    · rw [first]
      exact before
    · exact ih next later reached there

end Document

theorem Operator.mem_keys_rangeOperand {field name : String} {entries : Expression} :
    name ∈ Mapping.keys (rangeOperand field entries) ↔
      ∃ key ∈ Mapping.keys entries,
        "$" ++ String.ofList (Text.afterLast '_' key.toList) = name := by
  rw [rangeOperand, Mapping.mem_keys_ofEntries]
  simp [Mapping.keys]

/-- No document holds a key twice, at any depth, in arrays either: none that a run of edits comes
through from the empty document, if what the edits bring in holds none twice; none that a filter
compiles to; and none of the comparisons of an object, which holds each operator that is named by
one of its keys or by several. -/
theorem no_key_twice :
    (∀ edits : List Document.Edit, (∀ change ∈ edits, change.WellFormed) →
      ∀ reached ∈ Document.history [] edits, reached.WellFormed) ∧
    (∀ (options : Options) (filter : Option Expression) (live : Document),
      (∀ expression ∈ filter, expression.WellFormed) →
      livePredicate options filter = .ok live → live.WellFormed) ∧
    ∀ (field : String) (entries : Expression), entries.WellFormed →
      Document.WellFormed (Operator.rangeOperand field entries) ∧
      ∀ name, name ∈ Mapping.keys (Operator.rangeOperand field entries) ↔
        ∃ key ∈ Mapping.keys entries,
          "$" ++ String.ofList (Text.afterLast '_' key.toList) = name := by
  refine ⟨?_, ?_, ?_⟩
  · intro edits fine
    exact Document.wellFormed_of_mem_history Document.wellFormed_nil fine
  · intro options filter live fine success
    cases filter with
    | some expression => exact wellFormed_of_livePredicate (fine expression rfl) success
    | none =>
      have empty : Expression.WellFormed [] := .object List.nodup_nil nofun
      have same : livePredicate options (some []) = .ok live := success
      exact wellFormed_of_livePredicate empty same
  · intro field entries fine
    refine ⟨Operator.wellFormed_rangeOperand fine, ?_⟩
    intro name
    exact Operator.mem_keys_rangeOperand

/-- A run that writes one key in each way, and an object whose keys name one operator twice. -/
theorem no_key_twice_under_one_operator :
    (∀ reached ∈ Document.history []
        [.insert "a" (.array [.document [("k", .int 1)]]),
          .merge [("b", .document [("$gte", .int 1)]), ("a", .document [("k", .null)])],
          .merge [("b", .document [("$lt", .int 9), ("$gte", .int 2)])],
          .exclude, .single "b" .null, .insert "b" (.int 3), .exclude],
      reached.WellFormed) ∧
    ∃ live, livePredicate {} (some [("age_obj",
        .object [("min_gte", .int 18), ("max_lt", .int 65), ("least_gte", .int 21)])]) = .ok live ∧
      Mapping.get? live "age" = some (.document [("$gte", .int 21), ("$lt", .int 65)]) ∧
      live.WellFormed := by
  obtain ⟨runs, filters, -⟩ := no_key_twice
  constructor
  · apply runs
    decide
  · have reading : Key.parse "age_obj" = .field "age" (some .range) := by cbv
    have range : Operator.rangeOperand "age"
        [("min_gte", .int 18), ("max_lt", .int 65), ("least_gte", .int 21)] =
        [("$gte", .int 21), ("$lt", .int 65)] := rfl
    have clause : Expression.clauseOf {} "age_obj"
        (.object [("min_gte", .int 18), ("max_lt", .int 65), ("least_gte", .int 21)]) =
        .ok (some ("age", .document [("$gte", .int 21), ("$lt", .int 65)])) := by
      simp only [Expression.clauseOf, reading, fieldClause, Operator.operand, Argument.object?,
        range]
      rfl
    have success : livePredicate {} (some [("age_obj",
        .object [("min_gte", .int 18), ("max_lt", .int 65), ("least_gte", .int 21)])]) =
        .ok [("age", .document [("$gte", .int 21), ("$lt", .int 65)]),
          ("deletedAt", .document [("isSet", .bool false)])] := by
      apply livePredicate_some_eq_ok_iff.mpr
      refine ⟨[("age", .document [("$gte", .int 21), ("$lt", .int 65)])], ?_, rfl⟩
      rw [Expression.clauses_cons, clause]
      rfl
    have bounds : Argument.WellFormed
        (.object [("min_gte", .int 18), ("max_lt", .int 65), ("least_gte", .int 21)]) := by
      refine .object (by decide) ?_
      intro key value inside
      simp only [List.mem_cons, Prod.mk.injEq, List.not_mem_nil, or_false] at inside
      rcases inside with ⟨-, rfl⟩ | ⟨-, rfl⟩ | ⟨-, rfl⟩ <;> exact .int _
    have fine : ∀ expression ∈ (some [("age_obj",
        Argument.object [("min_gte", .int 18), ("max_lt", .int 65), ("least_gte", .int 21)])] :
          Option Expression), expression.WellFormed := by
      rintro expression ⟨⟩
      refine .object (by decide) ?_
      intro key value inside
      obtain ⟨-, rfl⟩ := Prod.mk.inj (List.mem_singleton.mp inside)
      exact bounds
    exact ⟨_, success, rfl, filters {} _ _ fine success⟩

end ListQuery
