import ListQuery.Proofs.Overwriting
import ListQuery.Proofs.Targets

set_option autoImplicit false

/-!
Whether a literal pattern is matched up to case. Three operators put a pattern under `$regex`, and
the two of them that match up to case put an option under `$options` as well. An entry writes over
the pattern of the one before it and leaves the option there, so a literal is matched as it is
written exactly if no pattern up to case came before it (`contains_keeps_case_iff`); otherwise its
case is lost (`contains_loses_case`).
-/

namespace ListQuery

/-- The operators of the store that a key with this operator puts under its field. A reference has
none, and those of a range are named by the caller. -/
def Operator.names : Operator → List String
  | .reference | .range => []
  | .compare comparison => [comparison.symbol]
  | .select selection => [selection.symbol]
  | .contains => ["$regex"]
  | .containsAnyCase => ["contains", "mode"]
  | .pattern | .words => ["$regex", "$options"]
  | .member => ["has"]

theorem Operator.keys_of_operand {options : Options} {key field : String} {value : Argument}
    {operator : Operator} {entries : Document} (noRange : operator ≠ .range)
    (read : operator.operand options key field value = .ok (.document entries)) :
    Mapping.keys entries = operator.names := by
  cases operator with
  | reference =>
    obtain ⟨id, impossible⟩ := reference_of_operand read
    cases impossible
  | range => exact absurd rfl noRange
  | compare comparison =>
    cases read
    rfl
  | member =>
    cases read
    rfl
  | select selection =>
    simp only [Operator.operand] at read
    split at read <;> cases read
    rfl
  | contains | containsAnyCase | words =>
    simp only [Operator.operand] at read
    obtain ⟨text, -, equal⟩ := textOperand_eq_ok_iff.mp read
    rw [Operand.document.inj equal]
    rfl
  | pattern =>
    simp only [Operator.operand] at read
    split at read
    · obtain ⟨text, -, equal⟩ := textOperand_eq_ok_iff.mp read
      rw [Operand.document.inj equal]
      rfl
    · cases read

theorem Operator.options_mem_names_iff {operator : Operator} :
    "$options" ∈ operator.names ↔ operator = .words ∨ operator = .pattern := by
  have each : ∀ other ∈ all, "$options" ∈ other.names ↔ other = .words ∨ other = .pattern := by
    decide
  exact each operator (mem_all operator)

theorem Operator.regex_mem_names_iff {operator : Operator} :
    "$regex" ∈ operator.names ↔
      operator = .contains ∨ operator = .words ∨ operator = .pattern := by
  have each : ∀ other ∈ all, "$regex" ∈ other.names ↔
      other = .contains ∨ other = .words ∨ other = .pattern := by
    decide
  exact each operator (mem_all operator)

theorem Slot.touch_document (field name : String) (entries : Document) :
    (name ∈ Mapping.keys entries →
      ∃ operand, Slot.touch ⟨field, some name⟩ (field, .document entries) = .puts operand) ∧
    (name ∉ Mapping.keys entries →
      Slot.touch ⟨field, some name⟩ (field, .document entries) = .spares) := by
  cases held : Mapping.get? entries name with
  | none =>
    have absent := (Mapping.get?_eq_none_iff entries name).mp held
    refine ⟨fun present => absurd present absent, fun _ => ?_⟩
    simp only [Slot.touch, if_true, held]
  | some inner =>
    have present : name ∈ Mapping.keys entries := List.mem_map_of_mem (Mapping.mem_of_get? held)
    refine ⟨fun _ => ⟨inner, ?_⟩, fun absent => absurd present absent⟩
    simp only [Slot.touch, if_true, held]

namespace Key

/-- The key is that of a group with the name of the field. -/
def Groups (field : String) : Key → Prop
  | .group connective => connective.symbol = field
  | .field _ _ => False

/-- The key puts this operator of the store under the field. -/
def Asks (field name : String) : Key → Prop
  | .field asked (some operator) => operator.target asked = field ∧ name ∈ operator.names
  | _ => False

theorem not_groups_of_asks {field name : String} {key : Key} (asks : key.Asks field name) :
    ¬ key.Groups field := by
  cases key with
  | group connective => exact absurd asks id
  | field asked operator => exact id

/-- The key asks the field for a pattern up to case. -/
def AnyCase (field : String) (key : Key) : Prop :=
  key = .field field (some .words) ∨ key = .field field (some .pattern)

theorem asks_iff {field name : String} {key : Key} :
    key.Asks field name ↔
      ∃ asked operator, key = .field asked (some operator) ∧ operator.target asked = field ∧
        name ∈ operator.names := by
  cases key with
  | group connective => simp [Asks]
  | field asked operator => cases operator <;> simp [Asks]

theorem asks_options_iff {field : String} {key : Key} :
    key.Asks field "$options" ↔ key.AnyCase field := by
  rw [asks_iff]
  constructor
  · rintro ⟨asked, operator, rfl, rfl, named⟩
    rcases Operator.options_mem_names_iff.mp named with rfl | rfl
    · exact Or.inl rfl
    · exact Or.inr rfl
  · rintro (rfl | rfl)
    · exact ⟨field, .words, rfl, rfl, by decide⟩
    · exact ⟨field, .pattern, rfl, rfl, by decide⟩

theorem asks_regex_iff {field : String} {key : Key} :
    key.Asks field "$regex" ↔ key = .field field (some .contains) ∨ key.AnyCase field := by
  rw [asks_iff]
  constructor
  · rintro ⟨asked, operator, rfl, rfl, named⟩
    rcases Operator.regex_mem_names_iff.mp named with rfl | rfl | rfl
    · exact Or.inl rfl
    · exact Or.inr (Or.inl rfl)
    · exact Or.inr (Or.inr rfl)
  · rintro (rfl | rfl | rfl)
    · exact ⟨field, .contains, rfl, rfl, by decide⟩
    · exact ⟨field, .words, rfl, rfl, by decide⟩
    · exact ⟨field, .pattern, rfl, rfl, by decide⟩

end Key

namespace Expression

/-- No entry asks for the field as a whole, or for operators of the caller's choice: there is no
equality, reference or range. Entries that are blank do not count. -/
def AsksByOperator (field : String) (entries : Expression) : Prop :=
  ∀ key value, (key, value) ∈ entries → value.isBlank = false →
    Key.parse key ∉ [.field field none, .field field (some .reference), .field field (some .range)]

/-- No entry is a group with the name of the field. Entries that are blank do not count. -/
def Ungrouped (field : String) (entries : Expression) : Prop :=
  ∀ key value, (key, value) ∈ entries → value.isBlank = false → ¬ (Key.parse key).Groups field

/-- A key of this kind stands among the entries, and no group with the name of the field stands after
it. Entries that are blank do not count. -/
def Stands (field : String) (kind : Key → Prop) (entries : Expression) : Prop :=
  ∃ front key value back, entries = front ++ (key, value) :: back ∧ value.isBlank = false ∧
    kind (Key.parse key) ∧ Ungrouped field back

variable {options : Options} {entries : Expression} {predicate : Document} {field name : String}

/-- All that an entry can do to an operator at a field: a group of the field's name clears it, a key
that asks for it puts it, and all else spares it. -/
theorem touch_cases (success : entries.predicate options = .ok predicate)
    (apart : AsksByOperator field entries) {key : String} {value : Argument}
    (inside : (key, value) ∈ entries) (name : String) :
    (value.isBlank = false ∧ (Key.parse key).Groups field ∧
      touch options ⟨field, some name⟩ key value = .clears) ∨
    (value.isBlank = false ∧ (Key.parse key).Asks field name ∧
      ∃ operand, touch options ⟨field, some name⟩ key value = .puts operand) ∨
    ((value.isBlank = false →
        ¬ (Key.parse key).Groups field ∧ ¬ (Key.parse key).Asks field name) ∧
      touch options ⟨field, some name⟩ key value = .spares) := by
  obtain ⟨read, clauses, -⟩ := predicate_eq_ok_iff.mp success
  obtain ⟨own, result⟩ := exists_clauseOf_of_mem clauses inside
  cases own with
  | none =>
    have blank : value.isBlank = true := isBlank_of_clauseOf result
    refine Or.inr (Or.inr ⟨?_, ?_⟩)
    · intro solid
      rw [blank] at solid
      cases solid
    · simp only [touch, result]
  | some clause =>
    obtain ⟨solid, gives⟩ := gives_of_clauseOf result
    have kept := apart key value inside solid
    have effect : touch options ⟨field, some name⟩ key value =
        Slot.touch ⟨field, some name⟩ clause := by
      simp only [touch, result]
    have elsewhere (other : clause.1 ≠ field) : Slot.touch ⟨field, some name⟩ clause = .spares := by
      simp only [Slot.touch, other, if_false]
    rw [effect]
    cases gives with
    | group connective items predicates parsed listed found equal =>
      rw [parsed]
      by_cases same : connective.symbol = field
      · refine Or.inl ⟨solid, same, ?_⟩
        simp only [Slot.touch, equal, same, if_true]
      · refine Or.inr (Or.inr ⟨fun _ => ⟨same, id⟩, ?_⟩)
        rw [equal] at elsewhere
        rw [equal]
        exact elsewhere same
    | field asked operator parsed found =>
      rw [parsed] at kept ⊢
      cases operator with
      | none =>
        obtain rfl := Except.ok.inj found
        refine Or.inr (Or.inr ⟨fun _ => ⟨id, id⟩, elsewhere ?_⟩)
        rintro rfl
        exact kept (by simp)
      | some operator =>
        obtain ⟨operand, read, rfl⟩ := fieldClause_some_eq_ok_iff.mp found
        by_cases about : operator.target asked = field
        · have noReference : operator ≠ .reference := by
            rintro rfl
            exact kept (by simp [← about, Operator.target])
          have noRange : operator ≠ .range := by
            rintro rfl
            exact kept (by simp [← about, Operator.target])
          obtain ⟨entries, rfl⟩ := Operator.document_of_operand noReference read
          obtain ⟨puts, spares⟩ := Slot.touch_document field name entries
          rw [Operator.keys_of_operand noRange read] at puts spares
          rw [about]
          by_cases named : name ∈ operator.names
          · exact Or.inr (Or.inl ⟨solid, ⟨about, named⟩, puts named⟩)
          · exact Or.inr (Or.inr ⟨fun _ => ⟨id, fun asks => named asks.2⟩, spares named⟩)
        · exact Or.inr (Or.inr ⟨fun _ => ⟨id, fun asks => about asks.1⟩, elsewhere about⟩)

theorem touch_eq_spares_iff (success : entries.predicate options = .ok predicate)
    (apart : AsksByOperator field entries) {key : String} {value : Argument}
    (inside : (key, value) ∈ entries) :
    touch options ⟨field, some name⟩ key value = .spares ↔
      (value.isBlank = false →
        ¬ (Key.parse key).Groups field ∧ ¬ (Key.parse key).Asks field name) := by
  rcases touch_cases success apart inside name with
    ⟨solid, groups, clears⟩ | ⟨solid, asks, operand, puts⟩ | ⟨neither, spares⟩
  · rw [clears]
    constructor
    · intro impossible
      cases impossible
    · intro neither
      exact absurd groups (neither solid).1
  · rw [puts]
    constructor
    · intro impossible
      cases impossible
    · intro neither
      exact absurd asks (neither solid).2
  · exact ⟨fun _ => neither, fun _ => spares⟩

/-- A predicate holds an operator at a field exactly if a key asks for it and no group of the field's
name comes after. -/
theorem read_ne_none_iff (wellFormed : entries.WellFormed)
    (success : entries.predicate options = .ok predicate) (apart : AsksByOperator field entries)
    (name : String) :
    predicate.read ⟨field, some name⟩ ≠ none ↔ entries.Stands field (Key.Asks field name) := by
  constructor
  · intro held
    have touched : ∃ key value, (key, value) ∈ entries ∧
        touch options ⟨field, some name⟩ key value ≠ .spares := by
      by_contra untouched
      apply held
      obtain ⟨read, clauses, made⟩ := predicate_eq_ok_iff.mp success
      rw [made]
      refine read_merge_of_spares (fun key value => wellFormed.value) clauses ?_ []
      intro key value inside
      by_contra touches
      exact untouched ⟨key, value, inside, touches⟩
    obtain ⟨front, key, value, back, rfl, touches, spared⟩ := exists_last_touch touched
    obtain ⟨earlier, -, equal⟩ := read_predicate_of_spares wellFormed success spared
    have own : (key, value) ∈ front ++ (key, value) :: back := by simp
    rcases touch_cases success apart own name with
      ⟨-, -, clears⟩ | ⟨solid, asks, -⟩ | ⟨-, spares⟩
    · rw [clears] at equal
      exact absurd equal held
    · refine ⟨front, key, value, back, rfl, solid, asks, ?_⟩
      intro other argument inside filled
      have member : (other, argument) ∈ front ++ (key, value) :: back := by simp [inside]
      exact ((touch_eq_spares_iff success apart member).mp (spared other argument inside) filled).1
    · exact absurd spares touches
  · rintro ⟨front, key, value, back, rfl, solid, asks, ungrouped⟩
    have touched : ∃ other argument, (other, argument) ∈ (key, value) :: back ∧
        touch options ⟨field, some name⟩ other argument ≠ .spares := by
      refine ⟨key, value, List.mem_cons_self .., ?_⟩
      intro spares
      exact ((touch_eq_spares_iff success apart (by simp)).mp spares solid).2 asks
    -- The last entry to touch the operator is this one or a later one, so it is not a group.
    obtain ⟨middle, other, argument, rest, equal, touches, spared⟩ := exists_last_touch touched
    have member : (other, argument) ∈ (key, value) :: back := by simp [equal]
    have effect := touch_cases success apart (List.mem_append_right front member) name
    rw [equal, ← List.append_assoc] at wellFormed success
    obtain ⟨earlier, -, held⟩ := read_predicate_of_spares wellFormed success spared
    rw [held]
    rcases effect with ⟨filled, groups, -⟩ | ⟨-, -, operand, puts⟩ | ⟨-, spares⟩
    · rcases List.mem_cons.mp member with same | later
      · obtain ⟨rfl, rfl⟩ := Prod.mk.inj same
        exact absurd groups (Key.not_groups_of_asks asks)
      · exact absurd groups (ungrouped other argument later filled)
    · rw [puts]
      exact Option.some_ne_none _
    · exact absurd spares touches

variable {kind : Key → Prop}

theorem stands_append_iff (first second : Expression) :
    Stands field kind (first ++ second) ↔
      second.Stands field kind ∨ first.Stands field kind ∧ second.Ungrouped field := by
  constructor
  · rintro ⟨front, key, value, back, split, solid, asked, ungrouped⟩
    rcases List.append_eq_append_iff.mp split with ⟨middle, -, later⟩ | ⟨middle, early, rest⟩
    · exact Or.inl ⟨middle, key, value, back, later, solid, asked, ungrouped⟩
    · cases middle with
      | nil => exact Or.inl ⟨[], key, value, back, rest.symm, solid, asked, ungrouped⟩
      | cons entry middle =>
        obtain ⟨rfl, rfl⟩ := List.cons.inj rest
        right
        constructor
        · refine ⟨front, key, value, middle, early, solid, asked, ?_⟩
          intro other argument inside
          exact ungrouped other argument (List.mem_append_left _ inside)
        · intro other argument inside
          exact ungrouped other argument (List.mem_append_right _ inside)
  · rintro (⟨front, key, value, back, rfl, held⟩ |
      ⟨⟨front, key, value, back, rfl, solid, asked, ungrouped⟩, later⟩)
    · exact ⟨first ++ front, key, value, back, by simp, held⟩
    · refine ⟨front, key, value, back ++ second, by simp, solid, asked, ?_⟩
      intro other argument inside
      rcases List.mem_append.mp inside with here | there
      · exact ungrouped other argument here
      · exact later other argument there

theorem not_stands {entries : Expression}
    (absent : ∀ key value, (key, value) ∈ entries → value.isBlank = false →
      ¬ kind (Key.parse key)) : ¬ entries.Stands field kind := by
  rintro ⟨front, key, value, back, rfl, solid, asked, -⟩
  exact absent key value (by simp) solid asked

variable {before after : Expression} {key : String} {value : Argument}

theorem touch_contains {own : Option Clause} (success : clauseOf options key value = .ok own)
    (parsed : Key.parse key = .field field (some .contains)) (solid : value.isBlank = false) :
    ∃ text, value.toText? = some text ∧
      touch options ⟨field, some "$regex"⟩ key value =
        .puts (.text (String.ofList (Pattern.substring text.toList))) := by
  cases own with
  | none =>
    rw [isBlank_of_clauseOf success] at solid
    cases solid
  | some clause =>
    obtain ⟨-, gives⟩ := gives_of_clauseOf success
    cases gives with
    | group connective items predicates other =>
      rw [parsed] at other
      cases other
    | field asked operator same found =>
      rw [parsed] at same
      cases same
      obtain ⟨operand, read, rfl⟩ := fieldClause_some_eq_ok_iff.mp found
      simp only [Operator.operand] at read
      obtain ⟨text, given, rfl⟩ := Operator.textOperand_eq_ok_iff.mp read
      refine ⟨text, given, ?_⟩
      simp only [touch, success, Slot.touch, Operator.target, if_true]
      rfl

theorem read_regex_iff {pattern : Operand} (wellFormed : WellFormed (before ++ (key, value) :: after))
    (success : (before ++ (key, value) :: after).predicate options = .ok predicate)
    (apart : AsksByOperator field (before ++ (key, value) :: after))
    (last : ∀ other argument, (other, argument) ∈ after → argument.isBlank = false →
      ¬ (Key.parse other).Asks field "$regex")
    (puts : touch options ⟨field, some "$regex"⟩ key value = .puts pattern)
    (scalar : pattern.isDocument = false) :
    predicate.read ⟨field, some "$regex"⟩ = some pattern ↔ after.Ungrouped field := by
  constructor
  · intro held
    have stands := (read_ne_none_iff wellFormed success apart "$regex").mp
      (by rw [held]; exact Option.some_ne_none _)
    rw [List.append_cons, stands_append_iff] at stands
    rcases stands with later | ⟨-, ungrouped⟩
    · exact absurd later (not_stands last)
    · exact ungrouped
  · intro ungrouped
    have spared : ∀ other argument, (other, argument) ∈ after →
        touch options ⟨field, some "$regex"⟩ other argument = .spares := by
      intro other argument inside
      have member : (other, argument) ∈ before ++ (key, value) :: after := by simp [inside]
      rw [touch_eq_spares_iff success apart member]
      intro filled
      exact ⟨ungrouped other argument inside filled, last other argument inside filled⟩
    obtain ⟨earlier, -, equal⟩ := read_predicate_of_spares wellFormed success spared
    rw [equal, puts, Touch.leave, Operand.over_of_not_document scalar]

theorem read_options_iff (wellFormed : WellFormed (before ++ (key, value) :: after))
    (success : (before ++ (key, value) :: after).predicate options = .ok predicate)
    (apart : AsksByOperator field (before ++ (key, value) :: after))
    (parsed : Key.parse key = .field field (some .contains))
    (last : ∀ other argument, (other, argument) ∈ after → argument.isBlank = false →
      ¬ (Key.parse other).AnyCase field) :
    predicate.read ⟨field, some "$options"⟩ = none ↔
      ¬ (before.Stands field (Key.AnyCase field) ∧ after.Ungrouped field) := by
  have asked : Key.Asks field "$options" = Key.AnyCase field :=
    funext fun key => propext Key.asks_options_iff
  have alone : ¬ Stands field (Key.AnyCase field) [(key, value)] := by
    apply not_stands
    intro other argument same
    obtain ⟨rfl, rfl⟩ := Prod.mk.inj (List.mem_singleton.mp same)
    rw [parsed]
    simp [Key.AnyCase]
  have ungrouped : Ungrouped field [(key, value)] := by
    intro other argument same
    obtain ⟨rfl, rfl⟩ := Prod.mk.inj (List.mem_singleton.mp same)
    rw [parsed]
    exact fun _ => id
  have held := read_ne_none_iff wellFormed success apart "$options"
  rw [asked, List.append_cons, stands_append_iff, stands_append_iff] at held
  rw [← not_iff_not, not_not, ← ne_eq, held]
  constructor
  · rintro (later | ⟨here | ⟨stands, -⟩, kept⟩)
    · exact absurd later (not_stands last)
    · exact absurd here alone
    · exact ⟨stands, kept⟩
  · rintro ⟨stands, kept⟩
    exact Or.inr ⟨Or.inr ⟨stands, ungrouped⟩, kept⟩

end Expression

/-- What a query says about deletion leaves every operator but its own as it is. -/
theorem read_livePredicate {options : Options} {expression : Expression} {live : Document}
    (success : livePredicate options (some expression) = .ok live) :
    ∃ predicate, expression.predicate options = .ok predicate ∧
      ∀ field name, name ≠ "isSet" →
        live.read ⟨field, some name⟩ = predicate.read ⟨field, some name⟩ := by
  obtain ⟨predicate, found, rfl⟩ := livePredicate_eq_ok_iff.mp success
  refine ⟨predicate, found, ?_⟩
  intro field name other
  let clause : Clause := (deletionField, .document [("isSet", .bool false)])
  have spares : Slot.touch ⟨field, some name⟩ clause = .spares := by
    simp only [clause, Slot.touch, Mapping.get?_cons, Mapping.get?_nil, other.symm, if_false,
      ite_self]
  have distinct : clause.2.Distinct := by
    simp [clause, Operand.Distinct, Mapping.Distinct]
  have merged := Document.read_merge_clause distinct predicate ⟨field, some name⟩
  rw [spares] at merged
  exact merged

/-- A literal pattern that no later entry asks over is the pattern of its field and is matched as it
is written exactly if no group of the field's name comes later and no pattern up to case came before,
except where such a group came between. -/
theorem contains_keeps_case_iff {options : Options} {before after : Expression}
    {key field : String} {value : Argument} {live : Document}
    (wellFormed : Expression.WellFormed (before ++ (key, value) :: after))
    (success : livePredicate options (some (before ++ (key, value) :: after)) = .ok live)
    (parsed : Key.parse key = .field field (some .contains)) (solid : value.isBlank = false)
    (last : ∀ other argument, (other, argument) ∈ after → argument.isBlank = false →
      Key.parse other ≠ .field field (some .contains) ∧ ¬ (Key.parse other).AnyCase field)
    (apart : Expression.AsksByOperator field (before ++ (key, value) :: after)) :
    ∃ text, value.toText? = some text ∧
      (live.read ⟨field, some "$regex"⟩ =
            some (.text (String.ofList (Pattern.substring text.toList))) ∧
          live.read ⟨field, some "$options"⟩ = none ↔
        after.Ungrouped field ∧ ¬ before.Stands field (Key.AnyCase field)) := by
  obtain ⟨predicate, found, kept⟩ := read_livePredicate success
  obtain ⟨read, clauses, -⟩ := Expression.predicate_eq_ok_iff.mp found
  obtain ⟨own, here⟩ := Expression.exists_clauseOf_of_mem clauses
    (List.mem_append_right before List.mem_cons_self)
  obtain ⟨text, given, puts⟩ := Expression.touch_contains here parsed solid
  have unasked : ∀ other argument, (other, argument) ∈ after → argument.isBlank = false →
      ¬ (Key.parse other).Asks field "$regex" := by
    intro other argument inside filled asks
    obtain ⟨literal, noCase⟩ := last other argument inside filled
    exact (Key.asks_regex_iff.mp asks).elim literal noCase
  have pattern := Expression.read_regex_iff wellFormed found apart unasked puts rfl
  have option := Expression.read_options_iff wellFormed found apart parsed
    fun other argument inside filled => (last other argument inside filled).2
  refine ⟨text, given, ?_⟩
  rw [kept field "$regex" (by decide), kept field "$options" (by decide), pattern, option]
  constructor
  · rintro ⟨ungrouped, lost⟩
    exact ⟨ungrouped, fun stands => lost ⟨stands, ungrouped⟩⟩
  · rintro ⟨ungrouped, unflagged⟩
    exact ⟨ungrouped, fun lost => unflagged lost.1⟩

/-- Other operators of the field, a pattern up to case of another field and one that is blank leave a
literal pattern as it is. -/
theorem contains_keeps_case_iff_of_bounds :
    ∃ live, livePredicate {} (some [("title_permute", .bool false), ("name_ne", .int 7),
        ("name_contains", .bool true), ("name_gte", .int 5), ("name_permute", .null)]) = .ok live ∧
      live.read ⟨"name", some "$regex"⟩ = some (.text ".*true.*") ∧
      live.read ⟨"name", some "$options"⟩ = none := by
  have parsed : Key.parse "name_contains" = .field "name" (some .contains) := by decide
  have least : Key.parse "name_gte" = .field "name" (some (.compare .atLeast)) := by decide
  have title : Key.parse "title_permute" = .field "title" (some .words) := by decide
  have unlike : Key.parse "name_ne" = .field "name" (some (.compare .notEqual)) := by decide
  have success : livePredicate {} (some [("title_permute", .bool false), ("name_ne", .int 7),
      ("name_contains", .bool true), ("name_gte", .int 5), ("name_permute", .null)]) =
      .ok [("title", .document [("$regex", .text "(?=.*false)"), ("$options", .text "i")]),
        ("name", .document [("$ne", .int 7), ("$regex", .text ".*true.*"), ("$gte", .int 5)]),
        ("deletedAt", .document [("isSet", .bool false)])] := by
    simp [livePredicate, Expression.predicate, Expression.clauses, Expression.clauseOf, parsed,
      least, title, unlike, fieldClause, Operator.operand, Operator.textOperand, Argument.toText?,
      Argument.coerce, Argument.isBlank]
    rfl
  have wellFormed : Expression.WellFormed [("title_permute", .bool false), ("name_ne", .int 7),
      ("name_contains", .bool true), ("name_gte", .int 5), ("name_permute", .null)] := by
    refine .object (by decide) ?_
    intro key value inside
    simp only [List.mem_cons, Prod.mk.injEq, List.not_mem_nil, or_false] at inside
    rcases inside with ⟨-, rfl⟩ | ⟨-, rfl⟩ | ⟨-, rfl⟩ | ⟨-, rfl⟩ | ⟨-, rfl⟩ <;> constructor
  have apart : Expression.AsksByOperator "name" [("title_permute", .bool false),
      ("name_ne", .int 7), ("name_contains", .bool true), ("name_gte", .int 5),
      ("name_permute", .null)] := by
    intro key value inside _
    simp only [List.mem_cons, Prod.mk.injEq, List.not_mem_nil, or_false] at inside
    rcases inside with ⟨rfl, -⟩ | ⟨rfl, -⟩ | ⟨rfl, -⟩ | ⟨rfl, -⟩ | ⟨rfl, -⟩ <;> decide
  have later (key : String) (value : Argument)
      (inside : (key, value) ∈ [("name_gte", Argument.int 5), ("name_permute", .null)])
      (solid : value.isBlank = false) : key = "name_gte" := by
    simp only [List.mem_cons, Prod.mk.injEq, List.not_mem_nil, or_false] at inside
    rcases inside with ⟨rfl, -⟩ | ⟨-, rfl⟩
    · rfl
    · cases solid
  have last : ∀ key value, (key, value) ∈ [("name_gte", Argument.int 5), ("name_permute", .null)] →
      value.isBlank = false → Key.parse key ≠ .field "name" (some .contains) ∧
        ¬ (Key.parse key).AnyCase "name" := by
    intro key value inside solid
    rw [later key value inside solid, least]
    simp [Key.AnyCase]
  have ungrouped :
      Expression.Ungrouped "name" [("name_gte", Argument.int 5), ("name_permute", .null)] := by
    intro key value inside solid
    rw [later key value inside solid, least]
    exact id
  have unflagged : ¬ Expression.Stands "name" (Key.AnyCase "name")
      [("title_permute", .bool false), ("name_ne", .int 7)] := by
    apply Expression.not_stands
    intro key value inside _
    simp only [List.mem_cons, Prod.mk.injEq, List.not_mem_nil, or_false] at inside
    rcases inside with ⟨rfl, -⟩ | ⟨rfl, -⟩
    · simp [title, Key.AnyCase]
    · simp [unlike, Key.AnyCase]
  obtain ⟨text, given, kept⟩ := @contains_keeps_case_iff {}
    [("title_permute", .bool false), ("name_ne", .int 7)] [("name_gte", .int 5), ("name_permute", .null)]
    "name_contains" "name" (.bool true) _ wellFormed success parsed rfl last apart
  obtain rfl : "true" = text := Option.some.inj given
  exact ⟨_, success, kept.mpr ⟨ungrouped, unflagged⟩⟩

/-- A pattern up to case that came before leaves its option, so the literal loses its case. -/
theorem contains_loses_case :
    ∃ live, livePredicate {} (some [("name_permute", .text "a"), ("name_contains", .text "B")]) =
        .ok live ∧
      Key.parse "name_contains" = .field "name" (some .contains) ∧
      live.read ⟨"name", some "$regex"⟩ = some (.text ".*B.*") ∧
      live.read ⟨"name", some "$options"⟩ = some (.text "i") := by
  have words : Key.parse "name_permute" = .field "name" (some .words) := by decide
  have literal : Key.parse "name_contains" = .field "name" (some .contains) := by decide
  have success : livePredicate {}
      (some [("name_permute", .text "a"), ("name_contains", .text "B")]) =
      .ok [("name", .document [("$regex", .text ".*B.*"), ("$options", .text "i")]),
        ("deletedAt", .document [("isSet", .bool false)])] := by
    simp [livePredicate, Expression.predicate, Expression.clauses, Expression.clauseOf, words,
      literal, fieldClause, Operator.operand, Operator.textOperand, Argument.toText?,
      Argument.isBlank]
    rfl
  exact ⟨_, success, literal, rfl, rfl⟩

end ListQuery
