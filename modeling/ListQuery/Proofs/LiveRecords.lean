import ListQuery.Proofs.Clauses
import ListQuery.Proofs.LastArguments

set_option autoImplicit false

/-!
The exclusion of deleted records. It is one write under `isSet` in the document at the deletion
field, over whatever a caller put there, and `deletion_excluded` says that neither a filter nor a
draft can be without it and that it touches nothing else.
-/

namespace ListQuery

theorem merge_liveClause (predicate : Document) :
    Document.merge predicate liveClause =
      Mapping.alter
        (fun held => .document (Mapping.insert (Operand.entries held) "isSet" (.bool false)))
        deletionField predicate := by
  have exclusion : ∀ held : Option Operand,
      Operand.over held (.document (Document.single "isSet" (.bool false))) =
        .document (Mapping.insert (Operand.entries held) "isSet" (.bool false)) :=
    Operand.over_document (by decide)
  rw [liveClause, Document.single, Document.merge_cons, Document.merge_nil]
  simp only [exclusion]

/-- `live` is the predicate with the exclusion of deleted records in it and nothing else. -/
structure Excludes (predicate live : Document) : Prop where
  once : (Mapping.keys live).count deletionField = 1
  clause : ∃ entries, Mapping.get? live deletionField = some (.document entries) ∧
    Mapping.get? entries "isSet" = some (.bool false) ∧
    Mapping.without entries "isSet" =
      Mapping.without (Operand.entries (Mapping.get? predicate deletionField)) "isSet"
  others : ∀ (index : Nat) (entry : String × Operand), predicate[index]? = some entry →
    entry.1 ≠ deletionField → live[index]? = some entry
  keys : Mapping.keys live =
    if deletionField ∈ Mapping.keys predicate then Mapping.keys predicate
    else Mapping.keys predicate ++ [deletionField]

theorem excludes_merge_liveClause {predicate : Document} (distinct : Mapping.Distinct predicate) :
    Excludes predicate (Document.merge predicate liveClause) := by
  rw [merge_liveClause]
  let entries := Mapping.insert (Operand.entries (Mapping.get? predicate deletionField)) "isSet"
    (.bool false)
  refine ⟨?_, ⟨entries, ?_, ?_, Mapping.without_alter _ _ _⟩, ?_, Mapping.keys_alter _ _ _⟩
  · rw [List.Nodup.count (Mapping.distinct_alter distinct _ _), if_pos]
    rw [Mapping.keys_alter]
    split
    · assumption
    · simp
  · rw [Mapping.get?_alter, if_pos rfl]
  · rw [Mapping.get?_insert, if_pos rfl]
  · intro index entry placed other
    exact Mapping.getElem?_alter_of_ne _ placed other

/-- Whatever a caller filters by, and whatever the steps of a draft, deleted records are excluded
and the rest of the predicate is that of the filter, or of the last one of the steps, alone. -/
theorem deletion_excluded (options : Options) :
    (∀ filter live, livePredicate options filter = .ok live →
      ∃ predicate, (filter.getD []).predicate options = .ok predicate ∧
        Excludes predicate live) ∧
    (∀ steps query, (Draft.recordAll { options } steps).build = .ok query →
      ∃ predicate,
        ((Draft.lastFilter steps).getD []).predicate options = .ok predicate ∧
        Excludes predicate query.predicate) := by
  have single : ∀ filter live, livePredicate options filter = .ok live →
      ∃ predicate, (filter.getD []).predicate options = .ok predicate ∧
        Excludes predicate live := by
    intro filter live success
    obtain ⟨predicate, read, rfl⟩ := livePredicate_eq_ok_iff.mp success
    exact ⟨predicate, read, excludes_merge_liveClause (Expression.distinct_of_predicate read)⟩
  refine ⟨single, ?_⟩
  intro steps query success
  exact single _ _ (Draft.livePredicate_of_build success)

/-- A caller's `isSet` is itself a document, with an operator beside it and a filter before. -/
theorem deletion_excluded_over_document :
    ∃ filter live predicate query,
      livePredicate {} (some filter) = .ok live ∧ Excludes predicate live ∧
      (Draft.recordAll {} [.filter (some (.json (.object [("a", .bool true)]))),
        .filter (some (.expression filter)), .order none]).build = .ok query ∧
      Excludes predicate query.predicate ∧
      live = [("deletedAt", .document [("isSet", .bool false), ("$gte", .int 5)])] := by
  let filter : Expression :=
    [("deletedAt", .object [("isSet", .object [("x", .int 1)]), ("$gte", .int 5)])]
  have read : livePredicate {} (some filter) =
      .ok [("deletedAt", .document [("isSet", .bool false), ("$gte", .int 5)])] := by cbv
  have built : (Draft.recordAll {} [.filter (some (.json (.object [("a", .bool true)]))),
      .filter (some (.expression filter)), .order none]).build =
      .ok ⟨[("deletedAt", .document [("isSet", .bool false), ("$gte", .int 5)])], none, 0, 10⟩ := by
    change (livePredicate {} (some filter) >>= _) = _
    rw [read]
    rfl
  obtain ⟨predicate, found, excludes⟩ := (deletion_excluded {}).1 _ _ read
  obtain ⟨again, same, excluded⟩ := (deletion_excluded {}).2 _ _ built
  obtain rfl : predicate = again := Except.ok.inj (found.symm.trans same)
  exact ⟨filter, _, predicate, _, read, excludes, built, excluded, rfl⟩

end ListQuery
