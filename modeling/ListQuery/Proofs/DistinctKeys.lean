import ListQuery.Proofs.Occurrence
import ListQuery.Proofs.WellFormed

set_option autoImplicit false

/-!
Documents that hold each key once at every depth, in arrays too. Merges keep them so
(`Document.wellFormed_merge`), and what queries of well-formed expressions run are such documents
(`wellFormed_of_livePredicate`).
-/

namespace ListQuery

/-- Every document in the operand holds each key once. -/
inductive Operand.WellFormed : Operand → Prop
  | null : WellFormed .null
  | bool (value : Bool) : WellFormed (.bool value)
  | int (value : Int64) : WellFormed (.int value)
  | float (value : Binary64) : WellFormed (.float value)
  | text (value : String) : WellFormed (.text value)
  | reference (id : Identifier) : WellFormed (.reference id)
  | array {items : List Operand} : (∀ item ∈ items, WellFormed item) → WellFormed (.array items)
  | document {entries : Document} : Mapping.Distinct entries →
    (∀ key inner, (key, inner) ∈ entries → WellFormed inner) → WellFormed (.document entries)

/-- The document and every document in it holds each key once. -/
def Document.WellFormed (document : Document) : Prop := Operand.WellFormed (.document document)

namespace Operand

theorem wellFormed_array_iff {items : List Operand} :
    WellFormed (.array items) ↔ ∀ item ∈ items, item.WellFormed :=
  ⟨fun | .array each => each, .array⟩

theorem wellFormed_document_iff {entries : Document} :
    WellFormed (.document entries) ↔
      Mapping.Distinct entries ∧ ∀ entry ∈ entries, entry.2.WellFormed :=
  ⟨fun | .document distinct each => ⟨distinct, fun entry inside => each entry.1 entry.2 inside⟩,
    fun ⟨distinct, each⟩ => .document distinct fun key inner inside => each (key, inner) inside⟩

mutual

def decideWellFormed : (operand : Operand) → Decidable operand.WellFormed
  | .null => isTrue .null
  | .bool value => isTrue (.bool value)
  | .int value => isTrue (.int value)
  | .float value => isTrue (.float value)
  | .text value => isTrue (.text value)
  | .reference id => isTrue (.reference id)
  | .array items =>
    have := decideItems items
    decidable_of_iff _ wellFormed_array_iff.symm
  | .document entries =>
    have := decideEntries entries
    decidable_of_iff _ wellFormed_document_iff.symm

def decideItems : (items : List Operand) → Decidable (∀ item ∈ items, item.WellFormed)
  | [] => isTrue nofun
  | item :: rest =>
    have := decideWellFormed item
    have := decideItems rest
    decidable_of_iff _ List.forall_mem_cons.symm

def decideEntries : (entries : Document) → Decidable (∀ entry ∈ entries, entry.2.WellFormed)
  | [] => isTrue nofun
  | (key, inner) :: rest =>
    have := decideWellFormed inner
    have := decideEntries rest
    have each : (∀ entry ∈ (key, inner) :: rest, entry.2.WellFormed) ↔
        inner.WellFormed ∧ ∀ entry ∈ rest, entry.2.WellFormed := List.forall_mem_cons
    decidable_of_iff _ each.symm

end

instance (operand : Operand) : Decidable operand.WellFormed := decideWellFormed operand

end Operand

instance (document : Document) : Decidable document.WellFormed :=
  inferInstanceAs (Decidable (Operand.WellFormed (.document document)))

namespace Document

theorem WellFormed.distinct {document : Document} (wellFormed : document.WellFormed) :
    Mapping.Distinct document := by
  cases wellFormed with
  | document distinct _ => exact distinct

theorem WellFormed.operand {document : Document} (wellFormed : document.WellFormed) {key : String}
    {inner : Operand} (inside : (key, inner) ∈ document) : inner.WellFormed := by
  cases wellFormed with
  | document _ each => exact each key inner inside

theorem WellFormed.get? {document : Document} (wellFormed : document.WellFormed) {key : String}
    {inner : Operand} (found : Mapping.get? document key = some inner) : inner.WellFormed :=
  wellFormed.operand (Mapping.mem_of_get? found)

theorem wellFormed_nil : WellFormed [] := by
  have distinct : Mapping.Distinct ([] : Document) := List.nodup_nil
  apply Operand.WellFormed.document distinct
  intro key inner inside
  cases inside

theorem wellFormed_single {key : String} {inner : Operand} (fine : inner.WellFormed) :
    (single key inner).WellFormed := by
  apply Operand.WellFormed.document
  · simp [single, Mapping.Distinct]
  · intro name other inside
    obtain ⟨rfl, rfl⟩ := Prod.mk.inj (List.mem_singleton.mp inside)
    exact fine

theorem wellFormed_pair {first second : String} (different : first ≠ second) {one two : Operand}
    (left : one.WellFormed) (right : two.WellFormed) :
    WellFormed [(first, one), (second, two)] := by
  apply Operand.WellFormed.document
  · simp [Mapping.Distinct, different]
  · intro name other inside
    simp only [List.mem_cons, Prod.mk.injEq, List.not_mem_nil, or_false] at inside
    rcases inside with ⟨-, rfl⟩ | ⟨-, rfl⟩
    · exact left
    · exact right

theorem wellFormed_alter {update : Option Operand → Operand} {key : String} {base : Document}
    (before : base.WellFormed) (fine : (update (Mapping.get? base key)).WellFormed) :
    WellFormed (Mapping.alter update key base) := by
  apply Operand.WellFormed.document (Mapping.distinct_alter before.distinct update key)
  intro name inner inside
  rcases Mapping.mem_alter inside with written | there
  · obtain ⟨rfl, rfl⟩ := Prod.mk.inj written
    exact fine
  · exact before.operand there

theorem wellFormed_merge_of_over {entries : List (String × Operand)}
    (step : ∀ key incoming, (key, incoming) ∈ entries → ∀ held : Option Operand,
      (∀ operand ∈ held, operand.WellFormed) → (Operand.over held incoming).WellFormed)
    {base : Document} (before : base.WellFormed) : (merge base entries).WellFormed := by
  induction entries generalizing base with
  | nil => exact before
  | cons entry rest ih =>
    obtain ⟨key, incoming⟩ := entry
    rw [merge_cons]
    apply ih
    · intro name other inside
      exact step name other (List.mem_cons_of_mem _ inside)
    · apply wellFormed_alter before
      apply step key incoming (List.mem_cons_self ..)
      intro operand found
      exact before.get? found

end Document

theorem Operand.wellFormed_over {incoming : Operand} (fine : incoming.WellFormed) :
    ∀ held : Option Operand, (∀ operand ∈ held, operand.WellFormed) →
      (Operand.over held incoming).WellFormed := by
  induction incoming using document_induction with
  | document entries ih =>
    intro held before
    unfold Operand.over
    split
    · rename_i base
      apply Document.wellFormed_merge_of_over _ (before _ rfl)
      intro key inner inside
      exact ih key inner inside (Document.WellFormed.operand fine inside)
    · exact fine
  | other incoming scalar =>
    intro held before
    rw [over_of_not_document scalar]
    exact fine

/-- A merge of well-formed operands into a well-formed document is well-formed, though the entries
may have keys in common. -/
theorem Document.wellFormed_merge {base : Document} (before : base.WellFormed)
    {entries : List (String × Operand)}
    (each : ∀ key incoming, (key, incoming) ∈ entries → incoming.WellFormed) :
    (merge base entries).WellFormed := by
  apply wellFormed_merge_of_over _ before
  intro key incoming inside
  exact Operand.wellFormed_over (each key incoming inside)

theorem Document.WellFormed.merge {base incoming : Document} (before : base.WellFormed)
    (fine : incoming.WellFormed) : (base.merge incoming).WellFormed := by
  apply wellFormed_merge before
  intro key operand inside
  exact fine.operand inside

theorem Mapping.wellFormed_ofEntries {entries : List (String × Operand)}
    (each : ∀ key inner, (key, inner) ∈ entries → inner.WellFormed) :
    Document.WellFormed (ofEntries entries) := by
  apply Operand.WellFormed.document (distinct_ofEntries entries)
  intro key inner inside
  exact each key inner (mem_ofEntries inside)

namespace Argument

theorem wellFormed_verbatim {value : Argument} (wellFormed : value.WellFormed) :
    value.verbatim.WellFormed := by
  induction wellFormed with
  | null => exact .null
  | bool value => exact .bool value
  | int value => exact .int value
  | float value => exact .float value
  | text value => exact .text value
  | date value => exact .int _
  | list _ ih =>
    rw [verbatim, verbatimItems_eq_map]
    apply Operand.WellFormed.array
    intro operand inside
    obtain ⟨item, member, rfl⟩ := List.mem_map.mp inside
    exact ih item member
  | @object entries distinct _ ih =>
    rw [verbatim]
    apply Operand.WellFormed.document
    · show (Mapping.keys (verbatimEntries entries)).Nodup
      rw [keys_verbatimEntries]
      exact distinct
    · intro key inner inside
      rw [verbatimEntries_eq_map] at inside
      obtain ⟨⟨name, value⟩, member, equal⟩ := List.mem_map.mp inside
      obtain ⟨rfl, rfl⟩ := Prod.mk.inj equal
      exact ih name value member

theorem wellFormed_coerceText (field text : String) : (coerceText field text).WellFormed := by
  unfold coerceText
  repeat' split
  all_goals constructor

theorem wellFormed_coerce {value : Argument} (wellFormed : value.WellFormed) (field : String) :
    (value.coerce field).WellFormed := by
  induction wellFormed with
  | text value => exact wellFormed_coerceText field value
  | list _ ih =>
    rw [coerce, coerceItems_eq_map]
    apply Operand.WellFormed.array
    intro operand inside
    obtain ⟨item, member, rfl⟩ := List.mem_map.mp inside
    exact ih item member
  | object distinct values _ => exact wellFormed_verbatim (.object distinct values)
  | null => exact .null
  | bool value => exact .bool value
  | int value => exact .int value
  | float value => exact .float value
  | date value => exact .int _

theorem WellFormed.item {items : List Argument} (wellFormed : WellFormed (.list items))
    {item : Argument} (inside : item ∈ items) : item.WellFormed := by
  cases wellFormed with
  | list each => exact each item inside

end Argument

namespace Operator

variable {options : Options} {key field : String} {value : Argument} {operand : Operand}

theorem wellFormed_patternOperand (pattern : List Char) : (patternOperand pattern).WellFormed :=
  Document.wellFormed_single (.text _)

theorem wellFormed_patternAnyCaseOperand (pattern : List Char) :
    Document.WellFormed (patternAnyCaseOperand pattern) :=
  Document.wellFormed_pair (by decide) (.text _) (.text _)

theorem wellFormed_rangeOperand {entries : Expression} (wellFormed : entries.WellFormed) :
    Document.WellFormed (rangeOperand field entries) := by
  apply Mapping.wellFormed_ofEntries
  intro name inner inside
  obtain ⟨⟨key, value⟩, member, equal⟩ := List.mem_map.mp inside
  obtain ⟨-, rfl⟩ := Prod.mk.inj equal
  exact Argument.wellFormed_coerce (wellFormed.value member) field

theorem wellFormed_selection {items : List Argument}
    (wellFormed : Argument.WellFormed (.list items)) (selection : Selection) :
    Operand.WellFormed (.array (items.map (selection.operand field))) := by
  apply Operand.WellFormed.array
  intro operand inside
  obtain ⟨item, member, rfl⟩ := List.mem_map.mp inside
  cases selection with
  | everyOf => exact Argument.wellFormed_verbatim (wellFormed.item member)
  | noneOf => exact Argument.wellFormed_coerce (wellFormed.item member) field
  | oneOf => exact Argument.wellFormed_coerce (wellFormed.item member) field

theorem wellFormed_textOperand {build : List Char → Document}
    (fine : ∀ text, (build text).WellFormed) (read : textOperand key value build = .ok operand) :
    operand.WellFormed := by
  obtain ⟨text, -, rfl⟩ := textOperand_eq_ok_iff.mp read
  exact fine text.toList

theorem wellFormed_operand {operator : Operator} (wellFormed : value.WellFormed)
    (read : operator.operand options key field value = .ok operand) : operand.WellFormed := by
  cases operator with
  | reference =>
    obtain ⟨id, rfl⟩ := reference_of_operand read
    exact .reference id
  | compare comparison =>
    cases read
    exact Document.wellFormed_single (Argument.wellFormed_coerce wellFormed field)
  | member =>
    cases read
    exact Document.wellFormed_single (Argument.wellFormed_verbatim wellFormed)
  | select selection =>
    cases value with
    | list items =>
      cases read
      exact Document.wellFormed_single (wellFormed_selection wellFormed selection)
    | _ => cases read
  | range =>
    cases value with
    | object entries =>
      cases read
      exact wellFormed_rangeOperand wellFormed
    | _ => cases read
  | contains => exact wellFormed_textOperand (fun text => wellFormed_patternOperand _) read
  | words => exact wellFormed_textOperand (fun text => wellFormed_patternAnyCaseOperand _) read
  | pattern =>
    simp only [Operator.operand] at read
    split at read
    · exact wellFormed_textOperand wellFormed_patternAnyCaseOperand read
    · cases read
  | containsAnyCase =>
    simp only [Operator.operand] at read
    refine wellFormed_textOperand ?_ read
    intro text
    exact Document.wellFormed_pair (by decide) (.text _) (.text _)

end Operator

theorem wellFormed_fieldClause {options : Options} {key field : String} {value : Argument}
    {operator : Option Operator} {clause : Clause} (wellFormed : value.WellFormed)
    (read : fieldClause options key field value operator = .ok clause) : clause.2.WellFormed := by
  cases operator with
  | none =>
    cases read
    exact Argument.wellFormed_coerce wellFormed field
  | some operator =>
    obtain ⟨operand, found, rfl⟩ := fieldClause_some_eq_ok_iff.mp read
    exact Operator.wellFormed_operand wellFormed found

namespace Expression

variable {options : Options}

theorem wellFormed_merge_clauses {read : List Clause}
    (each : ∀ clause ∈ read, clause.2.WellFormed) : (Document.merge [] read).WellFormed := by
  apply Document.wellFormed_merge Document.wellFormed_nil
  intro key incoming inside
  exact each (key, incoming) inside

theorem wellFormed_of_clauses {expression : Expression} (wellFormed : expression.WellFormed)
    {read : List Clause} (success : clauses options expression = .ok read) :
    ∀ clause ∈ read, clause.2.WellFormed := by
  induction expression using nested_induction generalizing read with
  | step expression ih =>
    intro clause inside
    obtain ⟨key, value, entry, own⟩ := exists_mem_of_mem_clauses success inside
    obtain ⟨-, gives⟩ := gives_of_clauseOf own
    cases gives with
    | field field operator parsed found =>
      exact wellFormed_fieldClause (wellFormed.value entry) found
    | group connective items predicates parsed listed found equal =>
      subst listed equal
      apply Operand.WellFormed.array
      intro operand member
      obtain ⟨nested, document, item, predicate, rfl⟩ := exists_mem_of_mem_branches found member
      obtain ⟨inner, clauses, rfl⟩ := predicate_eq_ok_iff.mp predicate
      have fine : WellFormed nested := (wellFormed.value entry).item item
      exact wellFormed_merge_clauses (ih key items nested entry item fine clauses)

theorem wellFormed_of_clauseOf {key : String} {value : Argument} {clause : Clause}
    (wellFormed : value.WellFormed) (own : clauseOf options key value = .ok (some clause)) :
    clause.2.WellFormed := by
  have entry : WellFormed [(key, value)] := by
    apply Argument.WellFormed.object
    · simp [Mapping.Distinct]
    · intro name argument inside
      obtain ⟨-, rfl⟩ := Prod.mk.inj (List.mem_singleton.mp inside)
      exact wellFormed
  have alone : clauses options [(key, value)] = .ok [clause] :=
    clauses_cons_eq_ok_iff.mpr ⟨some clause, [], own, rfl, rfl⟩
  exact wellFormed_of_clauses entry alone clause (List.mem_singleton_self _)

end Expression

theorem distinct_of_clauseOf {options : Options} {key : String} {value : Argument}
    {clause : Clause} (wellFormed : value.WellFormed)
    (own : Expression.clauseOf options key value = .ok (some clause)) : clause.2.Distinct := by
  have fine := Expression.wellFormed_of_clauseOf wellFormed own
  cases shape : clause.2 with
  | document entries =>
    rw [shape] at fine
    exact Document.WellFormed.distinct fine
  | _ => trivial

theorem wellFormed_liveClause : liveClause.WellFormed :=
  Document.wellFormed_single (Document.wellFormed_single (.bool false))

theorem wellFormed_of_livePredicate {options : Options} {expression : Expression} {live : Document}
    (wellFormed : expression.WellFormed)
    (success : livePredicate options (some expression) = .ok live) : live.WellFormed := by
  obtain ⟨read, clauses, rfl⟩ := livePredicate_some_eq_ok_iff.mp success
  have predicate : (Document.merge [] read).WellFormed :=
    Expression.wellFormed_merge_clauses (Expression.wellFormed_of_clauses wellFormed clauses)
  exact predicate.merge wellFormed_liveClause

end ListQuery
