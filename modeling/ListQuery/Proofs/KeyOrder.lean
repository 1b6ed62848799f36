import ListQuery.Proofs.Outline
import Mathlib.Data.List.Perm.Basic

set_option autoImplicit false

/-!
The order of entries. Whether a filter is refused does not depend on it, and neither does what a
predicate holds where no two clauses conflict; there it only moves keys (`livePredicate_of_perm`).
-/

namespace ListQuery

/-- Equal up to the order of the keys in documents, and in documents in documents. Arrays are equal
as they stand. -/
inductive Operand.Reordered : Operand → Operand → Prop
  | same (operand : Operand) : Reordered operand operand
  | document {first second : Document} : (Mapping.keys first).Perm (Mapping.keys second) →
    (∀ key one two, (key, one) ∈ first → (key, two) ∈ second → Reordered one two) →
    Reordered (.document first) (.document second)

theorem Mapping.mem_keys_iff_isSome {α : Type} (entries : Mapping α) (key : String) :
    key ∈ keys entries ↔ (get? entries key).isSome = true := by
  rw [← not_iff_not, ← get?_eq_none_iff, Bool.not_eq_true, Option.isSome_eq_false_iff,
    Option.isNone_iff_eq_none]

/-- Operands with one outline differ in the order of keys only. -/
theorem Operand.reordered_of_outline {first : Operand} (fine : first.WellFormed) :
    ∀ {second : Operand}, second.WellFormed →
      (∀ path, first.outline path = second.outline path) → Reordered first second := by
  induction first using document_induction with
  | other operand scalar =>
    intro second _ same
    have top : operand = second.hollow := by
      rw [← hollow_of_not_document scalar]
      exact Option.some.inj (same [])
    have flat : second.isDocument = false := by
      rw [← isDocument_hollow, ← top]
      exact scalar
    rw [top, hollow_of_not_document flat]
    exact .same second
  | document entries ih =>
    intro second sound same
    have top : second.hollow = .document [] := (Option.some.inj (same [])).symm
    have shape : second.isDocument = true := by
      rw [← isDocument_hollow, top]
      rfl
    obtain ⟨others, rfl⟩ := exists_entries_of_isDocument shape
    have left : Mapping.Distinct entries := Document.WellFormed.distinct fine
    have right : Mapping.Distinct others := Document.WellFormed.distinct sound
    have below : ∀ key path,
        ((Mapping.get? entries key).bind fun inner => inner.outline path) =
          (Mapping.get? others key).bind fun inner => inner.outline path := by
      intro key path
      have here := same (key :: path)
      rwa [outline_cons, outline_cons] at here
    apply Reordered.document
    · rw [List.perm_ext_iff_of_nodup left right]
      intro key
      have held := congrArg Option.isSome (below key [])
      simp only [outline_nil, Option.isSome_bind, Option.isSome_some, Option.any_true] at held
      rw [Mapping.mem_keys_iff_isSome, Mapping.mem_keys_iff_isSome, held]
    · intro key one two here there
      apply ih key one here (Document.WellFormed.operand fine here)
        (Document.WellFormed.operand sound there)
      intro path
      have both := below key path
      rwa [Mapping.get?_of_mem left here, Mapping.get?_of_mem right there] at both

namespace Expression

variable {options : Options}

def EntriesConflict (options : Options) (first second : String × Argument) : Prop :=
  ∃ one two, clauseOf options first.1 first.2 = .ok (some one) ∧
    clauseOf options second.1 second.2 = .ok (some two) ∧ Document.Conflicts [one] [two]

theorem not_entriesConflict {first second : String × Argument} {one two : Clause}
    (left : clauseOf options first.1 first.2 = .ok (some one))
    (right : clauseOf options second.1 second.2 = .ok (some two))
    (apart : ¬ Document.Conflicts [one] [two]) : ¬ EntriesConflict options first second := by
  rintro ⟨clause, other, found, held, conflict⟩
  obtain rfl := Option.some.inj (Except.ok.inj (left.symm.trans found))
  obtain rfl := Option.some.inj (Except.ok.inj (right.symm.trans held))
  exact apart conflict

theorem WellFormed.of_perm {first second : Expression} (wellFormed : first.WellFormed)
    (reordered : first.Perm second) : second.WellFormed := by
  apply Argument.WellFormed.object
  · have keys : (Mapping.keys first).Perm (Mapping.keys second) := reordered.map Prod.fst
    exact keys.nodup_iff.mp (Argument.WellFormed.distinct wellFormed)
  · intro key value inside
    exact wellFormed.value (reordered.mem_iff.mpr inside)

theorem clauses_of_perm {first second : Expression} (reordered : first.Perm second) :
    ∀ {read : List Clause}, clauses options first = .ok read →
      ∃ other, clauses options second = .ok other ∧ read.Perm other := by
  induction reordered with
  | nil =>
    intro read success
    exact ⟨read, success, .refl read⟩
  | cons entry _ ih =>
    intro read success
    obtain ⟨key, value⟩ := entry
    obtain ⟨own, rest, here, later, rfl⟩ := clauses_cons_eq_ok_iff.mp success
    obtain ⟨other, found, perm⟩ := ih later
    refine ⟨own.toList ++ other, ?_, perm.append_left _⟩
    exact clauses_cons_eq_ok_iff.mpr ⟨own, other, here, found, rfl⟩
  | swap one two rest =>
    intro read success
    obtain ⟨key, value⟩ := one
    obtain ⟨name, argument⟩ := two
    obtain ⟨front, tail, start, later, rfl⟩ := clauses_cons_eq_ok_iff.mp success
    obtain ⟨next, others, second, final, rfl⟩ := clauses_cons_eq_ok_iff.mp later
    refine ⟨next.toList ++ (front.toList ++ others), ?_, ?_⟩
    · apply clauses_cons_eq_ok_iff.mpr
      refine ⟨next, front.toList ++ others, second, ?_, rfl⟩
      exact clauses_cons_eq_ok_iff.mpr ⟨front, others, start, final, rfl⟩
    · rw [← List.append_assoc, ← List.append_assoc]
      exact List.perm_append_comm.append_right others
  | trans _ _ ih further =>
    intro read success
    obtain ⟨middle, found, before⟩ := ih success
    obtain ⟨other, last, after⟩ := further found
    exact ⟨other, last, before.trans after⟩

theorem exists_mem_of_clauses_error {expression : Expression} {violation : Violation}
    (refused : clauses options expression = .error violation) :
    ∃ key value, (key, value) ∈ expression ∧ clauseOf options key value = .error violation := by
  induction expression with
  | nil => cases refused
  | cons entry rest ih =>
    obtain ⟨key, value⟩ := entry
    rw [clauses_cons] at refused
    cases own : clauseOf options key value with
    | error first =>
      rw [own] at refused
      cases refused
      exact ⟨key, value, List.mem_cons_self .., own⟩
    | ok clause =>
      cases later : clauses options rest with
      | error other =>
        rw [own, later] at refused
        cases refused
        obtain ⟨name, argument, inside, found⟩ := ih later
        exact ⟨name, argument, List.mem_cons_of_mem _ inside, found⟩
      | ok others =>
        rw [own, later] at refused
        cases refused

theorem pairwise_clauses {expression : Expression} {read : List Clause}
    (success : clauses options expression = .ok read)
    (apart : expression.Pairwise fun one two => ¬ EntriesConflict options one two) :
    read.Pairwise fun one two => ¬ Document.Conflicts [one] [two] := by
  induction expression generalizing read with
  | nil =>
    cases success
    exact .nil
  | cons entry rest ih =>
    obtain ⟨key, value⟩ := entry
    obtain ⟨own, others, here, later, rfl⟩ := clauses_cons_eq_ok_iff.mp success
    obtain ⟨first, remaining⟩ := List.pairwise_cons.mp apart
    cases own with
    | none => exact ih later remaining
    | some clause =>
      apply List.Pairwise.cons _ (ih later remaining)
      intro other inside conflict
      obtain ⟨name, argument, member, found⟩ := exists_mem_of_mem_clauses later inside
      exact first (name, argument) member ⟨clause, other, here, found, conflict⟩

end Expression

/-- Clauses without conflicts give one outline in any order, with any clause merged after them. -/
theorem Document.outline_merge_of_perm {read other : List Clause} (reordered : read.Perm other)
    (fine : ∀ clause ∈ read, clause.2.WellFormed)
    (pairwise : read.Pairwise fun one two => ¬ Conflicts [one] [two]) (path : List String) :
    (Operand.document (merge [] read)).outline path =
      (Operand.document (merge [] other)).outline path := by
  have sound : ∀ clause ∈ other, clause.2.WellFormed := by
    intro clause inside
    exact fine clause (reordered.mem_iff.mpr inside)
  have separate : other.Pairwise fun one two => ¬ Conflicts [one] [two] := by
    refine (reordered.pairwise_iff ?_).mp pairwise
    intro one two apart conflict
    exact apart conflict.symm
  apply Option.ext
  intro held
  rw [outline_merge_clauses fine (fun _ _ => not_conflicts_nil _) pairwise,
    outline_merge_clauses sound (fun _ _ => not_conflicts_nil _) separate]
  simp only [reordered.mem_iff]

section Order

variable {options : Options} {first second : Expression}

theorem exists_livePredicate_of_perm (reordered : first.Perm second)
    (success : ∃ live, livePredicate options (some first) = .ok live) :
    ∃ live, livePredicate options (some second) = .ok live := by
  obtain ⟨live, found⟩ := success
  obtain ⟨read, clauses, -⟩ := livePredicate_some_eq_ok_iff.mp found
  obtain ⟨other, same, -⟩ := Expression.clauses_of_perm reordered clauses
  exact ⟨_, livePredicate_some_eq_ok_iff.mpr ⟨other, same, rfl⟩⟩

theorem reordered_of_livePredicate (reordered : first.Perm second)
    (wellFormed : first.WellFormed)
    (apart : first.Pairwise fun one two => ¬ Expression.EntriesConflict options one two)
    {live : Document} (success : livePredicate options (some first) = .ok live) :
    ∃ other, livePredicate options (some second) = .ok other ∧
      Operand.Reordered (.document live) (.document other) := by
  obtain ⟨read, clauses, equal⟩ := livePredicate_some_eq_ok_iff.mp success
  obtain ⟨others, same, moved⟩ := Expression.clauses_of_perm reordered clauses
  have found := livePredicate_some_eq_ok_iff.mpr ⟨others, same, rfl⟩
  refine ⟨_, found, ?_⟩
  have bases : ∀ path,
      ((some (Operand.document (Document.merge [] read))).bind fun held => held.outline path) =
        (some (Operand.document (Document.merge [] others))).bind fun held => held.outline path :=
    Document.outline_merge_of_perm moved (Expression.wellFormed_of_clauses wellFormed clauses)
      (Expression.pairwise_clauses clauses apart)
  apply Operand.reordered_of_outline (wellFormed_of_livePredicate wellFormed success)
  · exact wellFormed_of_livePredicate (wellFormed.of_perm reordered) found
  · rw [equal]
    exact Operand.outline_over_congr wellFormed_liveClause bases

end Order

/-- Entries in another order are refused or not alike, and for what one of the entries is refused
for. Where no two entries have clauses that conflict, the predicates are equal up to the order of
keys. -/
theorem livePredicate_of_perm (options : Options) {first second : Expression}
    (reordered : first.Perm second) :
    ((∃ live, livePredicate options (some first) = .ok live) ↔
      ∃ live, livePredicate options (some second) = .ok live) ∧
    (∀ violation, livePredicate options (some second) = .error violation →
      ∃ key value, (key, value) ∈ first ∧
        Expression.clauseOf options key value = .error violation) ∧
    (first.WellFormed →
      (first.Pairwise fun one two => ¬ Expression.EntriesConflict options one two) →
      ∀ live, livePredicate options (some first) = .ok live →
        ∃ other, livePredicate options (some second) = .ok other ∧
          Operand.Reordered (.document live) (.document other)) := by
  refine ⟨⟨?_, ?_⟩, ?_, ?_⟩
  · exact exists_livePredicate_of_perm reordered
  · exact exists_livePredicate_of_perm reordered.symm
  · intro violation refused
    obtain ⟨key, value, inside, own⟩ := Expression.exists_mem_of_clauses_error
      (livePredicate_some_eq_error_iff.mp refused)
    exact ⟨key, value, reordered.mem_iff.mpr inside, own⟩
  · intro wellFormed apart live success
    exact reordered_of_livePredicate reordered wellFormed apart success

/-- Both bounds of a field move past another field and past each other, and a filter that is refused
stays so. -/
theorem livePredicate_of_perm_of_bounds :
    (∃ live other,
      livePredicate {} (some [("age_gte", .int 18), ("open", .bool true), ("age_lt", .int 65)]) =
        .ok live ∧
      livePredicate {} (some [("age_lt", .int 65), ("age_gte", .int 18), ("open", .bool true)]) =
        .ok other ∧
      Operand.Reordered (.document live) (.document other)) ∧
    ∃ key value, (key, value) ∈ [("b", Argument.int 2), ("a_in", .int 1)] ∧
      Expression.clauseOf {} key value = .error (.expectedList "a_in") := by
  have least : Expression.clauseOf {} "age_gte" (.int 18) =
      .ok (some ("age", .document [("$gte", .int 18)])) := by cbv
  have other : Expression.clauseOf {} "open" (.bool true) = .ok (some ("open", .bool true)) := by cbv
  have below : Expression.clauseOf {} "age_lt" (.int 65) =
      .ok (some ("age", .document [("$lt", .int 65)])) := by cbv
  have success : livePredicate {} (some [("age_gte", .int 18), ("open", .bool true),
      ("age_lt", .int 65)]) =
      .ok [("age", .document [("$gte", .int 18), ("$lt", .int 65)]), ("open", .bool true),
        ("deletedAt", .document [("isSet", .bool false)])] := by
    simp only [livePredicate, Expression.predicate, Option.getD_some, Expression.clauses_cons,
      least, other, below, Expression.clauses_nil]
    rfl
  have refused : livePredicate {} (some [("a_in", .int 1), ("b", .int 2)]) =
      .error (.expectedList "a_in") := by cbv
  have wellFormed : Expression.WellFormed [("age_gte", .int 18), ("open", .bool true),
      ("age_lt", .int 65)] := by
    refine .object (by decide) ?_
    intro key value inside
    simp only [List.mem_cons, Prod.mk.injEq, List.not_mem_nil, or_false] at inside
    rcases inside with ⟨-, rfl⟩ | ⟨-, rfl⟩ | ⟨-, rfl⟩
    · exact .int 18
    · exact .bool true
    · exact .int 65
  have apart : List.Pairwise (fun one two => ¬ Expression.EntriesConflict {} one two)
      [("age_gte", .int 18), ("open", .bool true), ("age_lt", .int 65)] := by
    have bounds : ¬ Document.Conflicts [("age", .document [("$gte", .int 18)])]
        [("age", .document [("$lt", .int 65)])] :=
      Document.not_conflicts_single (Document.not_conflicts_single_of_ne (by decide) _ _) "age"
    simp only [List.pairwise_cons, List.mem_cons, List.not_mem_nil, or_false, forall_eq_or_imp,
      forall_eq, IsEmpty.forall_iff, implies_true, List.Pairwise.nil, and_true]
    refine ⟨⟨?_, ?_⟩, ?_⟩
    · apply Expression.not_entriesConflict least other
      exact Document.not_conflicts_single_of_ne (by decide) _ _
    · exact Expression.not_entriesConflict least below bounds
    · apply Expression.not_entriesConflict other below
      exact Document.not_conflicts_single_of_ne (by decide) _ _
  have moved : List.Perm [("age_gte", Argument.int 18), ("open", .bool true), ("age_lt", .int 65)]
      [("age_lt", .int 65), ("age_gte", .int 18), ("open", .bool true)] :=
    .trans (.cons _ (.swap _ _ [])) (.swap _ _ _)
  constructor
  · obtain ⟨live, found, same⟩ := (livePredicate_of_perm {} moved).2.2 wellFormed apart _ success
    exact ⟨_, live, success, found, same⟩
  · exact (livePredicate_of_perm {} (.swap _ _ [])).2.1 _ refused

end ListQuery
