import ListQuery.Draft
import ListQuery.Proofs.Targets
import Mathlib.Data.List.Nodup

set_option autoImplicit false

/-!
The fields of the filters of entities. What is read from an object is the expression of the known
fields of the object (`Entity.toExpression_of_filterOfJson`), no filter of an entity is refused
under any options (`Entity.exists_clauses_of_admits`), and an object with known fields only asks for
what they ask for (`Entity.livePredicate_knownFields`).
-/

namespace ListQuery

def Json.isNull : Json → Bool
  | .null => true
  | _ => false

/-- What the fields of the filters hold. -/
inductive FieldKind where
  | id
  | text
  deriving DecidableEq

namespace FieldKind

def read? : FieldKind → Json → Option String
  | .id => Json.id?
  | .text => Json.text?

/-- The value as a text if it is an identifier. -/
def asText : FieldKind → Json → Json
  | .id, .integer value => .text (String.ofList (Number.signed value))
  | _, value => value

theorem ofJson_asText {kind : FieldKind} {value : Json} {text : String}
    (read : kind.read? value = some text) : Argument.ofJson (kind.asText value) = .text text := by
  cases kind with
  | id =>
    cases value with
    | text held =>
      obtain rfl := Option.some.inj read
      rfl
    | integer held =>
      simp only [read?, Json.id?, Option.ite_none_right_eq_some, Option.some.injEq] at read
      rw [asText, Argument.ofJson, read.2]
    | null | bool | float | array | object => cases read
  | text =>
    cases value with
    | text held =>
      obtain rfl := Option.some.inj read
      rfl
    | null | bool | integer | float | array | object => cases read

theorem asText_of_ne {kind : FieldKind} {value : Json}
    (texts : kind = .id → ∀ number, value ≠ .integer number) : kind.asText value = value := by
  cases kind with
  | text => rfl
  | id =>
    cases value with
    | integer number => exact absurd rfl (texts rfl number)
    | _ => rfl

end FieldKind

inductive Entity where
  | user
  | group
  | message
  | conversation

namespace Entity

/-- The fields of the filter of the entity, in the order of the type. -/
def fields : Entity → List (String × FieldKind)
  | .user => [("id", .id), ("username_regex", .text), ("fullName_regex", .text)]
  | .group =>
    [("id", .id), ("name_regex", .text), ("description_regex", .text), ("memberIds_has", .id)]
  | .message => [("id", .id), ("content_regex", .text)]
  | .conversation => [("user1Id", .id), ("user2Id", .id)]

def names (entity : Entity) : List String := entity.fields.map Prod.fst

def filterOfJson : Entity → Json → Except InputFault FilterArgument
  | .user, value => (UserFilter.ofJson value).map .user
  | .group, value => (GroupFilter.ofJson value).map .group
  | .message, value => (MessageFilter.ofJson value).map .message
  | .conversation, value => (ConversationFilter.ofJson value).map .conversation

/-- The value of the field, unless it is null. -/
def present? (entries : Mapping Json) (name : String) : Option Json :=
  (Mapping.get? entries name).filter fun value => !value.isNull

/-- The fields that the entity knows and that are not null, in the order of the type, with
identifiers as texts. -/
def knownFields (entity : Entity) (entries : Mapping Json) : Mapping Json :=
  entity.fields.filterMap fun field =>
    (present? entries field.1).map fun value => (field.1, field.2.asText value)

/-- An object, which has each key once, that has fields of the entity only and no identifier that
is a number. -/
structure Exact (entity : Entity) (entries : Mapping Json) : Prop where
  distinct : Mapping.Distinct entries
  known : ∀ name ∈ Mapping.keys entries, name ∈ entity.names
  texts : ∀ name number, (name, FieldKind.id) ∈ entity.fields → (name, .integer number) ∉ entries

/-- Texts at keys of the entity, in their order. -/
structure Admits (entity : Entity) (expression : Expression) : Prop where
  keys : (Mapping.keys expression).Sublist entity.names
  texts : ∀ key value, (key, value) ∈ expression → ∃ text, value = .text text

end Entity

section Reading

theorem Mapping.keys_filterMap_sublist {α β γ : Type} (pick : String × α → Option β)
    (make : String × α → β → γ) (fields : Mapping α) :
    (keys (fields.filterMap fun field =>
      (pick field).map fun value => (field.1, make field value))).Sublist (keys fields) := by
  induction fields with
  | nil => exact .slnil
  | cons field rest ih =>
    rw [List.filterMap_cons, keys_cons]
    cases picked : pick field with
    | none => exact ih.cons field.1
    | some value => exact ih.cons_cons field.1

theorem Input.optional_of_required {α : Type} {read : Json → Option α} {fields : Mapping Json}
    {name : String} {field : α} (success : required read fields name = .ok field) :
    optional read fields name = .ok (some field) := by
  unfold required at success
  split at success
  · rename_i found held
    rw [held, Except.ok.inj success]
  · cases success
  · cases success

namespace Entity

variable {entries : Mapping Json}

theorem field_of_optional {kind : FieldKind} {name : String} {found : Option String}
    (success : Input.optional kind.read? entries name = .ok found) :
    (found.map fun text => (name, Argument.text text)) =
      (present? entries name).map fun value => (name, Argument.ofJson (kind.asText value)) := by
  unfold Input.optional at success
  unfold present?
  split at success
  · rename_i missing
    obtain rfl := Except.ok.inj success
    rw [missing]
    rfl
  · rename_i null
    obtain rfl := Except.ok.inj success
    rw [null]
    rfl
  · rename_i value solid held
    split at success
    · rename_i text read
      obtain rfl := Except.ok.inj success
      have present : value.isNull = false := by
        cases value with
        | null => exact absurd rfl solid
        | _ => rfl
      rw [held, Option.filter_some, if_pos (by simp [present]), Option.map_some, Option.map_some,
        FieldKind.ofJson_asText read]
    · cases success

/-- What is held of a field was read from it. -/
def ReadAs (entries : Mapping Json) (field : String × FieldKind) (held : String × Option String) :
    Prop :=
  held.1 = field.1 ∧ Input.optional field.2.read? entries field.1 = .ok held.2

theorem exists_readAs_of_filterOfJson {entity : Entity} {argument : FilterArgument}
    (parsed : entity.filterOfJson (.object entries) = .ok argument) :
    ∃ held, argument.toExpression = .ok (presentTexts held) ∧
      List.Forall₂ (ReadAs entries) entity.fields held := by
  have object {α : Type} {next : Mapping Json → Except InputFault α} :
      ((Json.object entries).fields >>= next) = next entries := rfl
  cases entity with
  | user =>
    obtain ⟨filter, success, rfl⟩ := map_eq_ok_iff.mp parsed
    rw [UserFilter.ofJson, object] at success
    obtain ⟨id, first, success⟩ := bind_eq_ok_iff.mp success
    obtain ⟨username, second, success⟩ := bind_eq_ok_iff.mp success
    obtain ⟨fullName, third, success⟩ := bind_eq_ok_iff.mp success
    obtain rfl := Except.ok.inj success
    exact ⟨_, rfl, .cons ⟨rfl, first⟩ (.cons ⟨rfl, second⟩ (.cons ⟨rfl, third⟩ .nil))⟩
  | group =>
    obtain ⟨filter, success, rfl⟩ := map_eq_ok_iff.mp parsed
    rw [GroupFilter.ofJson, object] at success
    obtain ⟨id, first, success⟩ := bind_eq_ok_iff.mp success
    obtain ⟨name, second, success⟩ := bind_eq_ok_iff.mp success
    obtain ⟨description, third, success⟩ := bind_eq_ok_iff.mp success
    obtain ⟨member, fourth, success⟩ := bind_eq_ok_iff.mp success
    obtain rfl := Except.ok.inj success
    have last := Input.optional_of_required fourth
    exact ⟨_, rfl, .cons ⟨rfl, first⟩ (.cons ⟨rfl, second⟩ (.cons ⟨rfl, third⟩
      (.cons ⟨rfl, last⟩ .nil)))⟩
  | message =>
    obtain ⟨filter, success, rfl⟩ := map_eq_ok_iff.mp parsed
    rw [MessageFilter.ofJson, object] at success
    obtain ⟨id, first, success⟩ := bind_eq_ok_iff.mp success
    obtain ⟨content, second, success⟩ := bind_eq_ok_iff.mp success
    obtain rfl := Except.ok.inj success
    exact ⟨_, rfl, .cons ⟨rfl, first⟩ (.cons ⟨rfl, second⟩ .nil)⟩
  | conversation =>
    obtain ⟨filter, success, rfl⟩ := map_eq_ok_iff.mp parsed
    rw [ConversationFilter.ofJson, object] at success
    obtain ⟨user1Id, first, success⟩ := bind_eq_ok_iff.mp success
    obtain ⟨user2Id, second, success⟩ := bind_eq_ok_iff.mp success
    obtain rfl := Except.ok.inj success
    exact ⟨_, rfl, .cons ⟨rfl, first⟩ (.cons ⟨rfl, second⟩ .nil)⟩

theorem ofJsonEntries_knownFields (entity : Entity) :
    Argument.ofJsonEntries (entity.knownFields entries) =
      entity.fields.filterMap fun field => (present? entries field.1).map fun value =>
        (field.1, Argument.ofJson (field.2.asText value)) := by
  simp only [Argument.ofJsonEntries_eq_map, knownFields, List.map_filterMap, Option.map_map]
  rfl

theorem presentTexts_of_readAs {fields : List (String × FieldKind)}
    {held : List (String × Option String)} (each : List.Forall₂ (ReadAs entries) fields held) :
    presentTexts held = fields.filterMap fun field =>
      (present? entries field.1).map fun value =>
        (field.1, Argument.ofJson (field.2.asText value)) := by
  unfold presentTexts
  induction each with
  | nil => rfl
  | @cons field first fields rest own _ ih =>
    obtain ⟨name, found⟩ := first
    obtain ⟨rfl, success⟩ := own
    rw [List.filterMap_cons, List.filterMap_cons, field_of_optional success, ih]

theorem names_of_readAs {fields : List (String × FieldKind)}
    {held : List (String × Option String)} (each : List.Forall₂ (ReadAs entries) fields held) :
    held.map Prod.fst = fields.map Prod.fst := by
  induction each with
  | nil => rfl
  | cons own _ ih => rw [List.map_cons, List.map_cons, own.1, ih]

theorem admits_presentTexts {entity : Entity} {held : List (String × Option String)}
    (named : held.map Prod.fst = entity.names) : entity.Admits (presentTexts held) := by
  constructor
  · rw [← named]
    exact Mapping.keys_filterMap_sublist Prod.snd (fun _ text => Argument.text text) held
  · intro key value inside
    obtain ⟨text, -, equal⟩ := mem_presentTexts_iff.mp inside
    exact ⟨text, equal⟩

/-- A filter that was read is the expression of the known fields, with texts at all of them. -/
theorem toExpression_of_filterOfJson {entity : Entity} {argument : FilterArgument}
    (parsed : entity.filterOfJson (.object entries) = .ok argument) :
    argument.toExpression = .ok (Argument.ofJsonEntries (entity.knownFields entries)) ∧
      entity.Admits (Argument.ofJsonEntries (entity.knownFields entries)) := by
  obtain ⟨held, given, each⟩ := exists_readAs_of_filterOfJson parsed
  have known : presentTexts held = Argument.ofJsonEntries (entity.knownFields entries) := by
    rw [presentTexts_of_readAs each, ofJsonEntries_knownFields]
  rw [← known]
  exact ⟨given, admits_presentTexts (names_of_readAs each)⟩

end Entity

end Reading

section Predicate

/-- Operators that take every text, whatever the options are. -/
def Operator.takesText : Operator → Bool
  | .compare _ | .contains | .containsAnyCase | .words | .member => true
  | .reference | .select _ | .pattern | .range => false

def Key.takesText : Key → Bool
  | .group _ => false
  | .field _ operator => operator.all Operator.takesText

theorem Operator.exists_operand_of_takesText {operator : Operator}
    (takes : operator.takesText = true) (options : Options) (key field text : String) :
    ∃ operand, operator.operand options key field (.text text) = .ok operand := by
  cases operator with
  | compare | contains | containsAnyCase | words | member => exact ⟨_, rfl⟩
  | reference | select | pattern | range => cases takes

namespace Expression

theorem exists_clauseOf_of_takesText {key : String} (takes : (Key.parse key).takesText = true)
    (options : Options) (text : String) :
    ∃ clause, clauseOf options key (.text text) = .ok clause := by
  unfold clauseOf
  split
  · exact ⟨none, rfl⟩
  · cases parsed : Key.parse key with
    | group connective =>
      rw [parsed] at takes
      cases takes
    | field field operator =>
      rw [parsed] at takes
      cases operator with
      | none => exact ⟨_, rfl⟩
      | some operator =>
        obtain ⟨operand, found⟩ :=
          operator.exists_operand_of_takesText takes options key field text
        refine ⟨some (operator.target field, operand), ?_⟩
        simp only [fieldClause, found]
        rfl

end Expression

namespace Entity

variable {entity : Entity}

theorem takesText_of_mem {key : String} (inside : key ∈ entity.names) :
    (Key.parse key).takesText = true := by
  cases entity <;> revert key <;> decide

theorem nodup_targets (entity : Entity) :
    (entity.names.map (fun key => (Key.parse key).target) ++ [deletionField]).Nodup := by
  cases entity <;> decide

/-- Texts at keys of an entity give a predicate under all options, and no two of the clauses are
about the same field. -/
theorem exists_clauses_of_admits {expression : Expression} (admits : entity.Admits expression)
    (options : Options) :
    ∃ read, Expression.clauses options expression = .ok read ∧
      Mapping.Distinct (read ++ liveClause) := by
  have each : ∀ key value, (key, value) ∈ expression →
      ∃ clause, Expression.clauseOf options key value = .ok clause := by
    intro key value inside
    obtain ⟨text, rfl⟩ := admits.texts key value inside
    have name : key ∈ entity.names := admits.keys.subset (List.mem_map_of_mem inside)
    exact Expression.exists_clauseOf_of_takesText (takesText_of_mem name) options text
  obtain ⟨read, success⟩ := Expression.exists_clauses each
  refine ⟨read, success, ?_⟩
  -- Blank entries have no clause; the others keep the order of the names, whose targets differ.
  have solid : (Mapping.keys (expression.filter fun entry => !entry.2.isBlank)).Sublist
      entity.names := (List.filter_sublist.map Prod.fst).trans admits.keys
  have targets : (Mapping.keys read).Sublist
      (entity.names.map fun key => (Key.parse key).target) := by
    have mapped := solid.map fun key => (Key.parse key).target
    rw [Mapping.keys, List.map_map] at mapped
    rw [Expression.keys_clauses success]
    exact mapped
  rw [Mapping.Distinct, keys_append_liveClause]
  exact entity.nodup_targets.sublist (targets.append_right _)

end Entity

end Predicate

section Untyped

variable {options : Options} {entity : Entity} {entries : Mapping Json}

theorem Expression.clauses_ofJsonEntries_present (entries : Mapping Json) :
    clauses options (Argument.ofJsonEntries (entries.filter fun entry => !entry.2.isNull)) =
      clauses options (Argument.ofJsonEntries entries) := by
  induction entries with
  | nil => rfl
  | cons entry rest ih =>
    obtain ⟨key, value⟩ := entry
    cases null : value.isNull with
    | true =>
      have blank : (Argument.ofJson value).isBlank = true := by
        cases value with
        | null => rfl
        | _ => cases null
      rw [List.filter_cons_of_neg (by simp [null]), ih, Argument.ofJsonEntries,
        clauses_cons_of_isBlank blank]
    | false =>
      rw [List.filter_cons_of_pos (by simp [null]), Argument.ofJsonEntries, clauses_cons, ih]
      rfl

namespace Entity

theorem present?_eq_some_iff {name : String} {value : Json} :
    present? entries name = some value ↔
      Mapping.get? entries name = some value ∧ value.isNull = false := by
  simp [present?, Option.filter_eq_some_iff]

/-- The fields of an exact object that are not null are the known ones. -/
theorem Exact.perm_knownFields (plain : entity.Exact entries) :
    (entity.knownFields entries).Perm (entries.filter fun entry => !entry.2.isNull) := by
  have names : entity.names.Nodup := by cases entity <;> decide
  have ordered : (Mapping.keys (entity.knownFields entries)).Sublist entity.names :=
    Mapping.keys_filterMap_sublist (fun field => present? entries field.1)
      (fun (field : String × FieldKind) value => field.2.asText value) entity.fields
  have left : (entity.knownFields entries).Nodup :=
    List.Nodup.of_map Prod.fst (names.sublist ordered)
  have right : (entries.filter fun entry => !entry.2.isNull).Nodup :=
    (List.Nodup.of_map Prod.fst plain.distinct).filter _
  have kept : ∀ field ∈ entity.fields, ∀ value, (field.1, value) ∈ entries →
      field.2.asText value = value := by
    intro field member value inside
    obtain ⟨name, kind⟩ := field
    apply FieldKind.asText_of_ne
    rintro rfl number rfl
    exact plain.texts name number member inside
  -- Neither list holds an entry twice, so what they hold decides.
  rw [List.perm_ext_iff_of_nodup left right]
  rintro ⟨name, value⟩
  simp only [knownFields, List.mem_filterMap, Option.map_eq_some_iff, present?_eq_some_iff,
    List.mem_filter, Bool.not_eq_true', Prod.mk.injEq]
  constructor
  · rintro ⟨field, member, held, ⟨found, solid⟩, rfl, rfl⟩
    have inside := Mapping.mem_of_get? found
    rw [kept field member held inside]
    exact ⟨inside, solid⟩
  · rintro ⟨inside, solid⟩
    obtain ⟨field, member, rfl⟩ := List.mem_map.mp (plain.known name (List.mem_map_of_mem inside))
    have found := Mapping.get?_of_mem plain.distinct inside
    exact ⟨field, member, value, ⟨found, solid⟩, rfl, kept field member value inside⟩

theorem livePredicate_knownFields (options : Options)
    (admits : entity.Admits (Argument.ofJsonEntries (entity.knownFields entries))) :
    ∃ live, livePredicate options (some (Argument.ofJsonEntries (entity.knownFields entries))) =
        .ok live ∧
      (entity.Exact entries → ∃ other,
        livePredicate options (some (Argument.ofJsonEntries entries)) = .ok other ∧
        live.Perm other) := by
  obtain ⟨read, success, distinct⟩ := exists_clauses_of_admits admits options
  refine ⟨_, livePredicate_of_distinct success distinct, ?_⟩
  intro plain
  have moved : (Argument.ofJsonEntries (entity.knownFields entries)).Perm
      (Argument.ofJsonEntries (entries.filter fun entry => !entry.2.isNull)) := by
    rw [Argument.ofJsonEntries_eq_map, Argument.ofJsonEntries_eq_map]
    exact plain.perm_knownFields.map _
  obtain ⟨other, found, perm⟩ := Expression.clauses_of_perm moved success
  rw [Expression.clauses_ofJsonEntries_present] at found
  have reordered : (read ++ liveClause).Perm (other ++ liveClause) := perm.append_right _
  have apart : Mapping.Distinct (other ++ liveClause) :=
    (reordered.map Prod.fst).nodup_iff.mp distinct
  exact ⟨_, livePredicate_of_distinct found apart, reordered⟩

end Entity

end Untyped

end ListQuery
