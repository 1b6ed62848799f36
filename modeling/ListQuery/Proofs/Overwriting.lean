import ListQuery.Proofs.DistinctKeys

set_option autoImplicit false

/-!
What entries of one expression do to each other. A condition has a slot, a field or an operator of
the store at a field, and every clause spares a slot, puts an operand over it or clears it; what a
predicate holds at a slot is what the last entry to touch it leaves there
(`write_kept_iff_last_touch`). An entry need not write a slot to touch it: an equality and an
operator on one field have different slots, and each can take the other's operand away.
-/

namespace ListQuery

/-- A place for a condition: a field, or an operator of the store at a field. -/
structure Slot where
  field : String
  operator : Option String
  deriving DecidableEq

structure Write where
  slot : Slot
  operand : Operand

/-- What a clause does to a slot. -/
inductive Touch where
  | spares
  | puts (operand : Operand)
  | clears

namespace Touch

/-- What is held at the slot afterwards. -/
def leave (held : Option Operand) : Touch → Option Operand
  | .spares => held
  | .puts operand => some (Operand.over held operand)
  | .clears => none

end Touch

namespace Document

def read (document : Document) (slot : Slot) : Option Operand :=
  match slot.operator with
  | none => Mapping.get? document slot.field
  | some name => Mapping.get? (Operand.entries (Mapping.get? document slot.field)) name

end Document

namespace Slot

/-- A document reaches the slots of its own operators, and the field; any other operand is all
that its field holds. -/
def touch (slot : Slot) (clause : Clause) : Touch :=
  if clause.1 = slot.field then
    match slot.operator, clause.2 with
    | none, operand => .puts operand
    | some name, .document entries =>
      match Mapping.get? entries name with
      | some inner => .puts inner
      | none => .spares
    | some _, _ => .clears
  else .spares

/-- The key is about the field of the slot but not about its operator: a group of this name, an
equality where the slot is an operator's, or an operator where the slot is the field. -/
def Crosses (slot : Slot) (key : String) : Prop :=
  match Key.parse key with
  | .group connective => connective.symbol = slot.field
  | .field field none | .field field (some .reference) =>
    field = slot.field ∧ slot.operator ≠ none
  | .field field (some operator) => operator.target field = slot.field ∧ slot.operator = none

end Slot

/-- The conditions of a clause whose key has this operator: one on the field for an equality or a
reference, else one for each operator of the store. -/
def Clause.writes (clause : Clause) : Option Operator → List Write
  | none | some .reference => [⟨⟨clause.1, none⟩, clause.2⟩]
  | some _ =>
    (Operand.entries (some clause.2)).map fun entry => ⟨⟨clause.1, some entry.1⟩, entry.2⟩

namespace Expression

/-- The conditions of an entry. A group makes none of its own. -/
def writes (options : Options) (key : String) (value : Argument) : List Write :=
  match clauseOf options key value, Key.parse key with
  | .ok (some clause), .field _ operator => clause.writes operator
  | _, _ => []

def touch (options : Options) (slot : Slot) (key : String) (value : Argument) : Touch :=
  match clauseOf options key value with
  | .ok (some clause) => slot.touch clause
  | _ => .spares

/-- The last of the later entries to touch the slot leaves the operand there, over what the
entries before it made. -/
def LastTouchLeaves (options : Options) (slot : Slot) (before later : Expression)
    (operand : Operand) : Prop :=
  ∃ front key value back earlier incoming,
    later = front ++ (key, value) :: back ∧
    (∀ name argument, (name, argument) ∈ back → touch options slot name argument = .spares) ∧
    (before ++ front).predicate options = .ok earlier ∧
    touch options slot key value = .puts incoming ∧
    Operand.over (earlier.read slot) incoming = operand

/-- The last of the entries to touch the slot puts this very operand there. -/
def LastTouchPuts (options : Options) (slot : Slot) (entries : Expression)
    (operand : Operand) : Prop :=
  ∃ front key value back,
    entries = front ++ (key, value) :: back ∧
    (∀ name argument, (name, argument) ∈ back → touch options slot name argument = .spares) ∧
    touch options slot key value = .puts operand

end Expression

theorem Document.read_merge_clause {clause : Clause} (distinct : clause.2.Distinct)
    (base : Document) (slot : Slot) :
    (Document.merge base [clause]).read slot = (slot.touch clause).leave (base.read slot) := by
  obtain ⟨target, operand⟩ := clause
  obtain ⟨field, operator⟩ := slot
  rw [Document.merge_cons, Document.merge_nil]
  by_cases same : target = field
  · subst same
    cases operator with
    | none => simp only [read, Slot.touch, Mapping.get?_alter, if_true, Touch.leave]
    | some name =>
      simp only [read, Slot.touch, Mapping.get?_alter, if_true]
      cases operand with
      | document entries =>
        rw [Operand.get?_entries_over distinct]
        cases found : Mapping.get? entries name with
        | none => simp only [found, Touch.leave]
        | some inner => simp only [found, Touch.leave]
      | _ => rfl
  · have untouched : Slot.touch ⟨field, operator⟩ (target, operand) = .spares := by
      simp only [Slot.touch, same, if_false]
    rw [untouched]
    cases operator with
    | none => simp only [read, Mapping.get?_alter, same, if_false, Touch.leave]
    | some name => simp only [read, Mapping.get?_alter, same, if_false, Touch.leave]

namespace Expression

variable {options : Options} {slot : Slot}

theorem read_merge_entry {key : String} {value : Argument} {own : Option Clause}
    (wellFormed : value.WellFormed) (success : clauseOf options key value = .ok own)
    (base : Document) :
    (Document.merge base own.toList).read slot =
      (touch options slot key value).leave (base.read slot) := by
  cases own with
  | none =>
    simp only [touch, success]
    rfl
  | some clause =>
    simp only [touch, success, Option.toList_some]
    exact Document.read_merge_clause (distinct_of_clauseOf wellFormed success) base slot

theorem read_merge_of_spares {entries : Expression} {read : List Clause}
    (wellFormed : ∀ key value, (key, value) ∈ entries → value.WellFormed)
    (success : clauses options entries = .ok read)
    (spared : ∀ key value, (key, value) ∈ entries → touch options slot key value = .spares)
    (base : Document) : (Document.merge base read).read slot = base.read slot := by
  induction entries generalizing read base with
  | nil =>
    cases success
    rfl
  | cons entry rest ih =>
    obtain ⟨key, value⟩ := entry
    obtain ⟨own, others, first, later, rfl⟩ := clauses_cons_eq_ok_iff.mp success
    rw [Document.merge_append, ih ?_ later ?_]
    · rw [read_merge_entry (wellFormed key value (List.mem_cons_self ..)) first,
        spared key value (List.mem_cons_self ..)]
      rfl
    · intro name argument inside
      exact wellFormed name argument (List.mem_cons_of_mem _ inside)
    · intro name argument inside
      exact spared name argument (List.mem_cons_of_mem _ inside)

/-- Up to entries that spare the slot, a predicate holds there what the entry before them makes. -/
theorem read_predicate_of_spares {front back : Expression} {key : String} {value : Argument}
    {predicate : Document} (wellFormed : (front ++ (key, value) :: back).WellFormed)
    (success : (front ++ (key, value) :: back).predicate options = .ok predicate)
    (spared : ∀ name argument, (name, argument) ∈ back →
      touch options slot name argument = .spares) :
    ∃ earlier, front.predicate options = .ok earlier ∧
      predicate.read slot = (touch options slot key value).leave (earlier.read slot) := by
  obtain ⟨read, clauses, rfl⟩ := predicate_eq_ok_iff.mp success
  obtain ⟨first, rest, before, tail, rfl⟩ := clauses_append_eq_ok_iff.mp clauses
  obtain ⟨own, others, entry, after, rfl⟩ := clauses_cons_eq_ok_iff.mp tail
  have fine : ∀ name argument, (name, argument) ∈ back → argument.WellFormed := by
    intro name argument inside
    exact wellFormed.value (List.mem_append_right _ (List.mem_cons_of_mem _ inside))
  have here : value.WellFormed :=
    wellFormed.value (List.mem_append_right _ (List.mem_cons_self ..))
  refine ⟨Document.merge [] first, predicate_eq_ok_iff.mpr ⟨first, before, rfl⟩, ?_⟩
  rw [Document.merge_append, Document.merge_append, read_merge_of_spares fine after spared,
    read_merge_entry here entry]

theorem exists_last_touch {later : Expression}
    (touched : ∃ key value, (key, value) ∈ later ∧ touch options slot key value ≠ .spares) :
    ∃ front key value back, later = front ++ (key, value) :: back ∧
      touch options slot key value ≠ .spares ∧
      ∀ name argument, (name, argument) ∈ back → touch options slot name argument = .spares := by
  induction later with
  | nil =>
    obtain ⟨key, value, inside, -⟩ := touched
    cases inside
  | cons entry rest ih =>
    by_cases further : ∃ key value, (key, value) ∈ rest ∧ touch options slot key value ≠ .spares
    · obtain ⟨front, key, value, back, equal, own, spared⟩ := ih further
      exact ⟨entry :: front, key, value, back, by rw [equal, List.cons_append], own, spared⟩
    · have spared : ∀ name argument, (name, argument) ∈ rest →
          touch options slot name argument = .spares := by
        intro name argument inside
        by_contra own
        exact further ⟨name, argument, inside, own⟩
      obtain ⟨key, value, inside, own⟩ := touched
      rcases List.mem_cons.mp inside with here | there
      · exact ⟨[], key, value, rest, by rw [here, List.nil_append], own, spared⟩
      · exact absurd (spared key value there) own

/-- A predicate holds at a slot what the last entry to touch it leaves there. -/
theorem read_predicate_iff_last_touch {before later : Expression} {predicate : Document}
    (wellFormed : (before ++ later).WellFormed)
    (success : (before ++ later).predicate options = .ok predicate)
    (touched : ∃ key value, (key, value) ∈ later ∧ touch options slot key value ≠ .spares)
    (operand : Operand) :
    predicate.read slot = some operand ↔ LastTouchLeaves options slot before later operand := by
  constructor
  · intro held
    obtain ⟨front, key, value, back, rfl, own, spared⟩ := exists_last_touch touched
    rw [← List.append_assoc] at wellFormed success
    obtain ⟨earlier, found, equal⟩ := read_predicate_of_spares wellFormed success spared
    rw [held] at equal
    cases effect : touch options slot key value with
    | spares => exact absurd effect own
    | clears =>
      rw [effect] at equal
      cases equal
    | puts incoming =>
      rw [effect] at equal
      have left : operand = Operand.over (earlier.read slot) incoming := Option.some.inj equal
      exact ⟨front, key, value, back, earlier, incoming, rfl, spared, found, effect, left.symm⟩
  · intro ⟨front, key, value, back, earlier, incoming, split, spared, found, effect, left⟩
    rw [split, ← List.append_assoc] at wellFormed success
    obtain ⟨same, again, equal⟩ := read_predicate_of_spares wellFormed success spared
    have agree : earlier = same := Except.ok.inj (found.symm.trans again)
    rw [equal, effect, ← agree, ← left]
    rfl

theorem read_predicate_iff_last_puts {before later : Expression} {predicate : Document}
    (wellFormed : (before ++ later).WellFormed)
    (success : (before ++ later).predicate options = .ok predicate)
    (touched : ∃ key value, (key, value) ∈ later ∧ touch options slot key value ≠ .spares)
    {operand : Operand} (scalar : operand.isDocument = false) :
    predicate.read slot = some operand ↔ LastTouchPuts options slot later operand := by
  rw [read_predicate_iff_last_touch wellFormed success touched]
  constructor
  · intro ⟨front, key, value, back, earlier, incoming, split, spared, _, effect, left⟩
    -- A write over anything leaves a document just if it is one.
    have plain : incoming.isDocument = false := by
      rw [← Operand.isDocument_over (earlier.read slot), left]
      exact scalar
    rw [Operand.over_of_not_document plain] at left
    exact ⟨front, key, value, back, split, spared, left ▸ effect⟩
  · intro ⟨front, key, value, back, split, spared, effect⟩
    rw [split, ← List.append_assoc] at wellFormed success
    obtain ⟨earlier, found, -⟩ := read_predicate_of_spares wellFormed success spared
    exact ⟨front, key, value, back, earlier, operand, split, spared, found, effect,
      Operand.over_of_not_document scalar _⟩

theorem writes_of_clauseOf {key field : String} {value : Argument} {operator : Option Operator}
    {clause : Clause} (success : clauseOf options key value = .ok (some clause))
    (parsed : Key.parse key = .field field operator) :
    writes options key value = clause.writes operator := by
  simp only [writes, success, parsed]

theorem mem_writes_iff {key : String} {value : Argument} {write : Write} :
    write ∈ writes options key value ↔
      ∃ clause field operator, clauseOf options key value = .ok (some clause) ∧
        Key.parse key = .field field operator ∧ write ∈ clause.writes operator := by
  unfold writes
  split
  · rename_i clause field operator success parsed
    simp [success, parsed]
  · rename_i other
    constructor
    · intro inside
      cases inside
    · intro ⟨clause, field, operator, success, parsed, _⟩
      exact absurd parsed (other clause field operator success)

theorem touch_of_mem_writes {key : String} {value : Argument} {write : Write}
    (wellFormed : value.WellFormed) (inside : write ∈ writes options key value) :
    touch options write.slot key value = .puts write.operand := by
  obtain ⟨clause, field, operator, success, -, member⟩ := mem_writes_iff.mp inside
  have distinct := distinct_of_clauseOf wellFormed success
  simp only [touch, success]
  unfold Clause.writes at member
  split at member
  · rw [List.mem_singleton] at member
    simp only [member, Slot.touch, if_true]
  · rw [List.mem_singleton] at member
    simp only [member, Slot.touch, if_true]
  · obtain ⟨⟨name, inner⟩, entry, equal⟩ := List.mem_map.mp member
    obtain ⟨target, operand⟩ := clause
    cases operand with
    | document entries =>
      have held : Mapping.get? entries name = some inner := Mapping.get?_of_mem distinct entry
      simp only [← equal, Slot.touch, if_true, held]
    | _ => cases entry

theorem writes_or_crosses_of_equality {key field : String} {operator : Option Operator}
    {clause : Clause} (equality : operator = none ∨ operator = some .reference)
    (parsed : Key.parse key = .field field operator) (target : clause.1 = field)
    (same : clause.1 = slot.field) :
    (∃ write ∈ clause.writes operator, write.slot = slot) ∨ slot.Crosses key := by
  cases part : slot.operator with
  | none =>
    left
    refine ⟨⟨⟨clause.1, none⟩, clause.2⟩, ?_, by rw [same, ← part]⟩
    rcases equality with rfl | rfl
    · exact List.mem_singleton.mpr rfl
    · exact List.mem_singleton.mpr rfl
  | some name =>
    right
    have crosses : field = slot.field ∧ slot.operator ≠ none := ⟨target ▸ same, by simp [part]⟩
    rcases equality with rfl | rfl
    · simpa only [Slot.Crosses, parsed] using crosses
    · simpa only [Slot.Crosses, parsed] using crosses

theorem writes_or_crosses_of_operator {key field : String} {operator : Operator} {clause : Clause}
    {entries : Document} (different : operator ≠ .reference)
    (parsed : Key.parse key = .field field (some operator))
    (target : clause.1 = operator.target field) (document : clause.2 = .document entries)
    (same : clause.1 = slot.field) (touched : slot.touch clause ≠ .spares) :
    (∃ write ∈ clause.writes (some operator), write.slot = slot) ∨ slot.Crosses key := by
  cases part : slot.operator with
  | none =>
    right
    have crosses : operator.target field = slot.field ∧ slot.operator = none :=
      ⟨target ▸ same, part⟩
    simp only [Slot.Crosses, parsed]
    cases operator with
    | reference => exact absurd rfl different
    | _ => exact crosses
  | some name =>
    left
    cases held : Mapping.get? entries name with
    | none =>
      apply absurd _ touched
      simp only [Slot.touch, same, part, document, held, if_true]
    | some inner =>
      have entry : (name, inner) ∈ entries := Mapping.mem_of_get? held
      refine ⟨⟨⟨clause.1, some name⟩, inner⟩, ?_, by rw [same, ← part]⟩
      have mapped : ⟨⟨clause.1, some name⟩, inner⟩ ∈
          (Operand.entries (some clause.2)).map fun entry =>
            (⟨⟨clause.1, some entry.1⟩, entry.2⟩ : Write) := by
        rw [document]
        exact List.mem_map_of_mem entry
      cases operator with
      | reference => exact absurd rfl different
      | _ => exact mapped

/-- An entry that touches a slot makes a condition there or crosses it. -/
theorem mem_writes_or_crosses {key : String} {value : Argument}
    (touched : touch options slot key value ≠ .spares) :
    (∃ write ∈ writes options key value, write.slot = slot) ∨ slot.Crosses key := by
  unfold touch at touched
  split at touched
  · rename_i clause success
    have same : clause.1 = slot.field := by
      by_contra other
      apply touched
      simp only [Slot.touch, other, if_false]
    obtain ⟨-, gives⟩ := gives_of_clauseOf success
    cases gives with
    | group connective items predicates parsed listed found equal =>
      right
      simp only [Slot.Crosses, parsed]
      rw [← same, equal]
    | field field operator parsed found =>
      have own : (∃ write ∈ clause.writes operator, write.slot = slot) ∨ slot.Crosses key := by
        cases operator with
        | none =>
          cases found
          exact writes_or_crosses_of_equality (Or.inl rfl) parsed rfl same
        | some operator =>
          obtain ⟨operand, read, equal⟩ := fieldClause_some_eq_ok_iff.mp found
          have target : clause.1 = operator.target field := by rw [equal]
          by_cases reference : operator = .reference
          · subst reference
            exact writes_or_crosses_of_equality (Or.inr rfl) parsed target same
          · obtain ⟨entries, document⟩ := Operator.document_of_operand reference read
            have held : clause.2 = .document entries := by rw [equal, document]
            exact writes_or_crosses_of_operator reference parsed target held same touched
      rcases own with ⟨write, member, place⟩ | crosses
      · left
        exact ⟨write, mem_writes_iff.mpr ⟨clause, field, operator, success, parsed, member⟩, place⟩
      · exact Or.inr crosses
  · exact absurd rfl touched

end Expression

/-- A condition stands in the predicate exactly when the last entry from its own on to touch its
slot leaves it there, and one whose operand is no document exactly when that entry puts this
operand. An entry that touches a slot without a condition for it crosses it, so that such a
condition stands where no later entry has a condition for the slot or crosses it. -/
theorem write_kept_iff_last_touch {options : Options} {before after : Expression} {key : String}
    {value : Argument} {predicate : Document}
    (wellFormed : (before ++ (key, value) :: after).WellFormed)
    (success : (before ++ (key, value) :: after).predicate options = .ok predicate)
    {write : Write} (own : write ∈ Expression.writes options key value) :
    (predicate.read write.slot = some write.operand ↔
      Expression.LastTouchLeaves options write.slot before ((key, value) :: after)
        write.operand) ∧
    (write.operand.isDocument = false →
      (predicate.read write.slot = some write.operand ↔
        Expression.LastTouchPuts options write.slot ((key, value) :: after) write.operand) ∧
      ((∀ name argument, (name, argument) ∈ after →
          (∀ other ∈ Expression.writes options name argument, other.slot ≠ write.slot) ∧
          ¬ write.slot.Crosses name) →
        predicate.read write.slot = some write.operand)) := by
  have here : value.WellFormed :=
    wellFormed.value (List.mem_append_right _ (List.mem_cons_self ..))
  have puts := Expression.touch_of_mem_writes here own
  have touched : ∃ name argument, (name, argument) ∈ (key, value) :: after ∧
      Expression.touch options write.slot name argument ≠ .spares :=
    ⟨key, value, List.mem_cons_self .., by rw [puts]; simp⟩
  refine ⟨Expression.read_predicate_iff_last_touch wellFormed success touched _, ?_⟩
  intro scalar
  have last := Expression.read_predicate_iff_last_puts wellFormed success touched scalar
  refine ⟨last, ?_⟩
  intro apart
  rw [last]
  refine ⟨[], key, value, after, rfl, ?_, puts⟩
  intro name argument inside
  by_contra touches
  obtain ⟨unwritten, uncrossed⟩ := apart name argument inside
  rcases Expression.mem_writes_or_crosses touches with ⟨other, member, place⟩ | crosses
  · exact unwritten other member place
  · exact uncrossed crosses

theorem write_kept_in_range :
    ∃ predicate, Expression.predicate {} [("age_gte", .int 18), ("age_lt", .int 65)] =
        .ok predicate ∧
      Expression.LastTouchLeaves {} ⟨"age", some "$gte"⟩ []
        [("age_gte", .int 18), ("age_lt", .int 65)] (.int 18) ∧
      predicate.read ⟨"age", some "$gte"⟩ = some (.int 18) := by
  have success : Expression.predicate {} [("age_gte", .int 18), ("age_lt", .int 65)] =
      .ok [("age", .document [("$gte", .int 18), ("$lt", .int 65)])] := by cbv
  have wellFormed : Expression.WellFormed [("age_gte", .int 18), ("age_lt", .int 65)] := by
    refine .object (by decide) ?_
    intro key value inside
    simp only [List.mem_cons, Prod.mk.injEq, List.not_mem_nil, or_false] at inside
    rcases inside with ⟨-, rfl⟩ | ⟨-, rfl⟩
    · exact .int 18
    · exact .int 65
  have least : Expression.clauseOf {} "age_gte" (.int 18) =
      .ok (some ("age", .document [("$gte", .int 18)])) := by cbv
  have below : Expression.clauseOf {} "age_lt" (.int 65) =
      .ok (some ("age", .document [("$lt", .int 65)])) := by cbv
  have leastKey : Key.parse "age_gte" = .field "age" (some (.compare .atLeast)) := by cbv
  have belowKey : Key.parse "age_lt" = .field "age" (some (.compare .below)) := by cbv
  have own : Expression.writes {} "age_gte" (.int 18) = [⟨⟨"age", some "$gte"⟩, .int 18⟩] :=
    Expression.writes_of_clauseOf least leastKey
  have other : Expression.writes {} "age_lt" (.int 65) = [⟨⟨"age", some "$lt"⟩, .int 65⟩] :=
    Expression.writes_of_clauseOf below belowKey
  have kept := @write_kept_iff_last_touch {} [] [("age_lt", .int 65)] "age_gte" (.int 18) _
    wellFormed success ⟨⟨"age", some "$gte"⟩, .int 18⟩ (own ▸ List.mem_singleton_self _)
  have held := (kept.2 rfl).2 ?_
  · exact ⟨_, success, kept.1.mp held, held⟩
  · intro name argument inside
    obtain ⟨rfl, rfl⟩ := Prod.mk.inj (List.mem_singleton.mp inside)
    constructor
    · intro write member
      rw [other] at member
      rw [List.mem_singleton.mp member]
      decide
    · simp [Slot.Crosses, belowKey]

/-- Conditions for one slot whose operands are objects are mixed, the later one with the earlier,
and an equality is taken away by an object of operators, though it has none. -/
theorem write_not_kept :
    (∃ predicate,
      Expression.predicate {} [("a_obj", .object [("x_eq", .object [("p", .int 1)])]),
        ("a_eq", .object [("q", .int 2)])] = .ok predicate ∧
      ⟨⟨"a", some "$eq"⟩, .document [("q", .int 2)]⟩ ∈
        Expression.writes {} "a_eq" (.object [("q", .int 2)]) ∧
      predicate.read ⟨"a", some "$eq"⟩ ≠ some (.document [("q", .int 2)])) ∧
    ∃ predicate,
      Expression.predicate {} [("a", .int 1), ("a_obj", .object [])] = .ok predicate ∧
      ⟨⟨"a", none⟩, .int 1⟩ ∈ Expression.writes {} "a" (.int 1) ∧
      Expression.writes {} "a_obj" (.object []) = [] ∧
      predicate.read ⟨"a", none⟩ ≠ some (.int 1) := by
  constructor
  · have rangeKey : Key.parse "a_obj" = .field "a" (some .range) := by cbv
    have laterKey : Key.parse "a_eq" = .field "a" (some (.compare .equal)) := by cbv
    have success : Expression.predicate {} [("a_obj", .object [("x_eq", .object [("p", .int 1)])]),
        ("a_eq", .object [("q", .int 2)])] =
        .ok [("a", .document [("$eq", .document [("p", .int 1), ("q", .int 2)])])] := by
      simp [Expression.predicate, Expression.clauses, Expression.clauseOf, rangeKey, laterKey,
        fieldClause, Operator.operand, Argument.object?, Argument.isBlank]
      rfl
    have later : Expression.clauseOf {} "a_eq" (.object [("q", .int 2)]) =
        .ok (some ("a", .document [("$eq", .document [("q", .int 2)])])) := by cbv
    have own : Expression.writes {} "a_eq" (.object [("q", .int 2)]) =
        [⟨⟨"a", some "$eq"⟩, .document [("q", .int 2)]⟩] :=
      Expression.writes_of_clauseOf later laterKey
    refine ⟨_, success, own ▸ List.mem_singleton_self _, ?_⟩
    intro held
    simp [Document.read, Mapping.get?, Operand.entries] at held
  · have success : Expression.predicate {} [("a", .int 1), ("a_obj", .object [])] =
        .ok [("a", .document [])] := by cbv
    have equality : Expression.clauseOf {} "a" (.int 1) = .ok (some ("a", .int 1)) := by cbv
    have range : Expression.clauseOf {} "a_obj" (.object []) = .ok (some ("a", .document [])) := by
      cbv
    have equalityKey : Key.parse "a" = .field "a" none := by cbv
    have rangeKey : Key.parse "a_obj" = .field "a" (some .range) := by cbv
    have own : Expression.writes {} "a" (.int 1) = [⟨⟨"a", none⟩, .int 1⟩] :=
      Expression.writes_of_clauseOf equality equalityKey
    have empty : Expression.writes {} "a_obj" (.object []) = [] :=
      Expression.writes_of_clauseOf range rangeKey
    refine ⟨_, success, own ▸ List.mem_singleton_self _, empty, ?_⟩
    intro held
    simp [Document.read, Mapping.get?] at held

end ListQuery
