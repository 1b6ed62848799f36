import ListQuery.Proofs.KeyGrammar
import ListQuery.Proofs.KeyOrder

set_option autoImplicit false

/-!
What the clauses of an expression are about. Each entry that is not blank gives one clause, about
the target of its key (`Expression.keys_clauses`). The keys of the predicate are these targets in
order, each where it first comes (`keys_of_livePredicate`), and where no target comes twice the
predicate is the clauses themselves (`livePredicate_of_distinct`).
-/

namespace ListQuery

/-- The field or connective that a clause of the key is about. -/
def Key.target : Key → String
  | .group connective => connective.symbol
  | .field name none => name
  | .field name (some operator) => operator.target name

namespace Expression

variable {options : Options} {expression : Expression} {read : List Clause}

theorem Gives.target {key : String} {value : Argument} {clause : Clause}
    (gives : Gives options key value clause) : clause.1 = (Key.parse key).target := by
  cases gives with
  | group connective items predicates parsed listed found equal =>
    rw [parsed, equal]
    rfl
  | field field operator parsed found =>
    rw [parsed]
    cases operator with
    | none =>
      obtain rfl := Except.ok.inj found
      rfl
    | some operator =>
      obtain ⟨operand, -, rfl⟩ := fieldClause_some_eq_ok_iff.mp found
      rfl

theorem isBlank_of_clauseOf {key : String} {value : Argument}
    (own : clauseOf options key value = .ok none) : value.isBlank = true := by
  cases blank : value.isBlank with
  | true => rfl
  | false =>
    exfalso
    unfold clauseOf at own
    rw [blank, if_neg Bool.false_ne_true] at own
    split at own
    · obtain ⟨clause, -, given⟩ := map_eq_ok_iff.mp own
      cases given
    · split at own
      · obtain ⟨predicates, -, given⟩ := bind_eq_ok_iff.mp own
        cases given
      · cases own

/-- The clauses are about the targets of the keys of entries that are not blank. -/
theorem keys_clauses (success : clauses options expression = .ok read) :
    Mapping.keys read =
      (expression.filter fun entry => !entry.2.isBlank).map
        fun entry => (Key.parse entry.1).target := by
  induction expression generalizing read with
  | nil =>
    obtain rfl := Except.ok.inj success
    rfl
  | cons entry rest ih =>
    obtain ⟨key, value⟩ := entry
    obtain ⟨first, others, own, later, rfl⟩ := clauses_cons_eq_ok_iff.mp success
    cases first with
    | none =>
      have blank : value.isBlank = true := isBlank_of_clauseOf own
      rw [List.filter_cons_of_neg (by simp [blank])]
      exact ih later
    | some clause =>
      obtain ⟨solid, gives⟩ := gives_of_clauseOf own
      rw [List.filter_cons_of_pos (by simp [solid]), List.map_cons, ← gives.target, ← ih later]
      rfl

theorem mem_clauses (success : clauses options expression = .ok read) {key : String}
    {value : Argument} (inside : (key, value) ∈ expression) {clause : Clause}
    (own : clauseOf options key value = .ok (some clause)) : clause ∈ read := by
  induction expression generalizing read with
  | nil => cases inside
  | cons entry rest ih =>
    obtain ⟨name, argument⟩ := entry
    obtain ⟨first, others, here, later, rfl⟩ := clauses_cons_eq_ok_iff.mp success
    apply List.mem_append.mpr
    rcases List.mem_cons.mp inside with same | there
    · obtain ⟨rfl, rfl⟩ := Prod.mk.inj same
      left
      obtain rfl := Except.ok.inj (here.symm.trans own)
      exact List.mem_singleton_self clause
    · exact Or.inr (ih later there)

theorem exists_clauses
    (each : ∀ key value, (key, value) ∈ expression →
      ∃ clause, clauseOf options key value = .ok clause) :
    ∃ read, clauses options expression = .ok read := by
  cases success : clauses options expression with
  | ok read => exact ⟨read, rfl⟩
  | error violation =>
    obtain ⟨key, value, inside, refused⟩ := exists_mem_of_clauses_error success
    obtain ⟨clause, own⟩ := each key value inside
    rw [refused] at own
    cases own

end Expression

theorem keys_append_liveClause (read : List Clause) :
    Mapping.keys (read ++ liveClause) = Mapping.keys read ++ [deletionField] := by
  simp [Mapping.keys, liveClause, Document.single]

/-- Clauses about different fields, none of them that of deletion, are the predicate as they are. -/
theorem livePredicate_of_distinct {options : Options} {expression : Expression}
    {read : List Clause} (success : Expression.clauses options expression = .ok read)
    (distinct : Mapping.Distinct (read ++ liveClause)) :
    livePredicate options (some expression) = .ok (read ++ liveClause) := by
  have front : Mapping.Distinct ([] ++ read) :=
    distinct.sublist ((List.sublist_append_left read liveClause).map Prod.fst)
  rw [livePredicate_some_eq_ok_iff]
  refine ⟨read, success, ?_⟩
  rw [Document.merge_eq_append front, List.nil_append, Document.merge_eq_append distinct]

/-- A merge has the keys of the base in their order, then those that come new, each where it first
comes. -/
theorem Document.keys_merge_entries (base : Document) (entries : List (String × Operand)) :
    Mapping.keys (merge base entries) =
      Mapping.keys base ++ ((Mapping.keys entries).filter (· ∉ Mapping.keys base)).eraseDups := by
  -- Each write may add a key to the base, so the induction is for every base.
  induction entries generalizing base with
  | nil => simp
  | cons entry rest ih =>
    obtain ⟨key, incoming⟩ := entry
    rw [merge_cons, ih, Mapping.keys_alter, Mapping.keys_cons]
    by_cases present : key ∈ Mapping.keys base
    · rw [if_pos present, List.filter_cons_of_neg (by simpa using present)]
    · have later : (Mapping.keys rest).filter (· ∉ Mapping.keys base ++ [key]) =
          ((Mapping.keys rest).filter (· ∉ Mapping.keys base)).filter fun name => !name == key := by
        rw [List.filter_filter]
        apply List.filter_congr
        intro name _
        by_cases same : name = key <;> simp [same]
      rw [if_neg present, List.filter_cons_of_pos (by simpa using present), List.eraseDups_cons,
        later, List.append_assoc, List.singleton_append]

theorem Key.target_parse (key : String) :
    (key ∈ ["OR", "or"] → (parse key).target = "$or") ∧
    (key ∈ ["AND", "and"] → (parse key).target = "$and") ∧
    (∀ (field : String) (operator : Operator), key = field ++ operator.suffix → field ≠ "" →
      (parse key).target = if operator = .member then "memberIds" else field) ∧
    (key ∉ ["OR", "or", "AND", "and"] →
      (∀ (field : String) (operator : Operator), key = field ++ operator.suffix → field = "") →
      (parse key).target = key) := by
  have connective (found : Connective) (word : Connective.ofWord? key = some found) :
      (parse key).target = found.symbol := by
    rw [parse_eq_group_iff.mpr word]
    rfl
  refine ⟨?_, ?_, ?_, ?_⟩
  · intro word
    exact connective .disjunction (Connective.ofWord?_eq_some_iff.mpr (by simpa using word))
  · intro word
    exact connective .conjunction (Connective.ofWord?_eq_some_iff.mpr (by simpa using word))
  · intro field operator whole present
    rw [parse_eq_field_some_iff.mpr ⟨whole, present⟩]
    cases operator with
    | member => rfl
    | _ => rfl
  · intro noWord plain
    have field : parse key = .field key none := by
      rw [parse_eq_field_none_iff, Connective.ofWord?_eq_none_iff]
      refine ⟨rfl, noWord, ?_⟩
      intro operator
      rw [Option.eq_none_iff_forall_ne_some]
      intro name taken
      obtain ⟨whole, present⟩ := Operator.field?_eq_some_iff.mp taken
      exact present (plain name operator whole)
    rw [field]
    rfl

def Expression.targets (expression : Expression) : List String :=
  (expression.filter fun entry => !entry.2.isBlank).map fun entry => (Key.parse entry.1).target

/-- The keys of what a query runs are the targets of the entries that are not blank, each where it
first comes, and then the field of deletion unless it is one of them. A target is the symbol of a
connective, the list of members for a key of membership, the field before another suffix and
otherwise the key. -/
theorem keys_of_livePredicate {options : Options} {expression : Expression} {live : Document}
    (success : livePredicate options (some expression) = .ok live) :
    Mapping.keys live =
      expression.targets.eraseDups ++
        (if deletionField ∈ expression.targets then [] else [deletionField]) ∧
    ∀ key,
      (key ∈ ["OR", "or"] → (Key.parse key).target = "$or") ∧
      (key ∈ ["AND", "and"] → (Key.parse key).target = "$and") ∧
      (∀ (field : String) (operator : Operator), key = field ++ operator.suffix → field ≠ "" →
        (Key.parse key).target = if operator = .member then "memberIds" else field) ∧
      (key ∉ ["OR", "or", "AND", "and"] →
        (∀ (field : String) (operator : Operator), key = field ++ operator.suffix → field = "") →
        (Key.parse key).target = key) := by
  refine ⟨?_, Key.target_parse⟩
  obtain ⟨read, clauses, rfl⟩ := livePredicate_some_eq_ok_iff.mp success
  have targets : Mapping.keys read = expression.targets := Expression.keys_clauses clauses
  rw [← Document.merge_append, Document.keys_merge_entries, keys_append_liveClause, targets]
  simp only [Mapping.keys_nil, List.not_mem_nil, not_false_eq_true, decide_true, List.filter_true,
    List.nil_append, List.eraseDups_append]
  congr 1
  by_cases inside : deletionField ∈ expression.targets
  · simp [List.removeAll, inside]
  · simp [List.removeAll, inside, List.eraseDups_cons]

/-- Two bounds and two groups have one target each, a blank value has none, and the field of
deletion keeps the place where the caller has it. -/
theorem keys_of_livePredicate_of_repeated_targets :
    ∃ live, livePredicate {} (some [("age_gte", .int 18), ("OR", .list []), ("adminIds_has", .int 7),
        ("name", .null), ("deletedAt_lt", .int 5), ("age_lt", .int 65), ("email_like", .bool true),
        ("or", .list [.object [("x", .int 1)]])]) = .ok live ∧
      Mapping.keys live = ["age", "$or", "memberIds", "deletedAt", "email_like"] := by
  have success : livePredicate {} (some [("age_gte", .int 18), ("OR", .list []),
      ("adminIds_has", .int 7), ("name", .null), ("deletedAt_lt", .int 5), ("age_lt", .int 65),
      ("email_like", .bool true), ("or", .list [.object [("x", .int 1)]])]) =
      .ok [("age", .document [("$gte", .int 18), ("$lt", .int 65)]),
        ("$or", .array [.document [("x", .int 1)]]), ("memberIds", .document [("has", .int 7)]),
        ("deletedAt", .document [("$lt", .int 5), ("isSet", .bool false)]),
        ("email_like", .bool true)] := by cbv
  have targets : Expression.targets [("age_gte", .int 18), ("OR", .list []),
      ("adminIds_has", .int 7), ("name", .null), ("deletedAt_lt", .int 5), ("age_lt", .int 65),
      ("email_like", .bool true), ("or", .list [.object [("x", .int 1)]])] =
      ["age", "$or", "memberIds", "deletedAt", "age", "email_like", "$or"] := by decide
  refine ⟨_, success, ?_⟩
  rw [(keys_of_livePredicate success).1, targets]
  decide

end ListQuery
