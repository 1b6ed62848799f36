import ListQuery.Proofs.Clauses

set_option autoImplicit false

/-!
Expressions whose mappings hold each key once, as a caller's mappings do, and what kind of operand
comes of their values.
-/

namespace ListQuery

/-- Every object in the argument holds each key once. -/
inductive Argument.WellFormed : Argument → Prop
  | null : WellFormed .null
  | bool (value : Bool) : WellFormed (.bool value)
  | int (value : Int64) : WellFormed (.int value)
  | float (value : Binary64) : WellFormed (.float value)
  | text (value : String) : WellFormed (.text value)
  | date (value : Instant) : WellFormed (.date value)
  | list {items : List Argument} : (∀ item ∈ items, WellFormed item) → WellFormed (.list items)
  | object {entries : Expression} : Mapping.Distinct entries →
    (∀ key value, (key, value) ∈ entries → WellFormed value) → WellFormed (.object entries)

def Expression.WellFormed (expression : Expression) : Prop :=
  Argument.WellFormed (.object expression)

theorem Argument.WellFormed.distinct {entries : Expression}
    (wellFormed : Argument.WellFormed (.object entries)) : Mapping.Distinct entries := by
  cases wellFormed with
  | object distinct _ => exact distinct

theorem Expression.WellFormed.value {expression : Expression} {key : String} {value : Argument}
    (wellFormed : expression.WellFormed) (inside : (key, value) ∈ expression) :
    value.WellFormed := by
  cases wellFormed with
  | object _ values => exact values key value inside

theorem Argument.keys_verbatimEntries (entries : Expression) :
    Mapping.keys (verbatimEntries entries) = Mapping.keys entries := by
  rw [verbatimEntries_eq_map, Mapping.keys_map_values]

namespace Operand

/-- A document at the top of the operand holds each key once. -/
def Distinct : Operand → Prop
  | .document entries => Mapping.Distinct entries
  | _ => True

end Operand

namespace Operator

theorem document_of_operand {options : Options} {key field : String} {value : Argument}
    {operator : Operator} {operand : Operand} (different : operator ≠ .reference)
    (read : operator.operand options key field value = .ok operand) :
    ∃ entries, operand = .document entries := by
  cases operator with
  | reference => exact absurd rfl different
  | compare comparison =>
    cases read
    exact ⟨_, rfl⟩
  | member =>
    cases read
    exact ⟨_, rfl⟩
  | select selection =>
    simp only [Operator.operand] at read
    split at read <;> cases read
    exact ⟨_, rfl⟩
  | range =>
    simp only [Operator.operand] at read
    split at read <;> cases read
    exact ⟨_, rfl⟩
  | contains | containsAnyCase | words =>
    simp only [Operator.operand] at read
    obtain ⟨text, -, equal⟩ := textOperand_eq_ok_iff.mp read
    exact ⟨_, equal⟩
  | pattern =>
    simp only [Operator.operand] at read
    split at read
    · obtain ⟨text, -, equal⟩ := textOperand_eq_ok_iff.mp read
      exact ⟨_, equal⟩
    · cases read

theorem reference_of_operand {options : Options} {key field : String} {value : Argument}
    {operand : Operand}
    (read : Operator.reference.operand options key field value = .ok operand) :
    ∃ id, operand = .reference id := by
  simp only [Operator.operand] at read
  split at read <;> cases read
  exact ⟨_, rfl⟩

end Operator

end ListQuery
