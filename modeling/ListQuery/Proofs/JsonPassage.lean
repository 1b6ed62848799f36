import ListQuery.Document.Encoding
import ListQuery.Draft
import ListQuery.Proofs.DistinctKeys

set_option autoImplicit false

/-!
The way of a JSON value through arguments and operands back to JSON. It comes back as it was
exactly if its numbers are whole numbers of 64 bits and finite doubles (`Json.passage_eq_iff`).
Conversions that put the entries of an object into an empty mapping one by one come to the same
wherever objects hold each key once, which every one of the conversions keeps. As a filter, a value
is an expression exactly if it is an object or null (`Json.passes_unchanged`).
-/

namespace ListQuery

theorem map_eq_self_iff {α : Type} {change : α → α} {items : List α} :
    items.map change = items ↔ ∀ item ∈ items, change item = item := by
  have pointwise := List.map_inj_left (l := items) (f := change) (g := id)
  rwa [List.map_id] at pointwise

namespace Json

/-- The values directly in a value. -/
def parts : Json → List Json
  | .array items => items
  | .object entries => entries.map Prod.snd
  | _ => []

/-- The property holds of the value and of all the values in it, at any depth. -/
inductive Everywhere (property : Json → Prop) : Json → Prop
  | intro {value : Json} : property value → (∀ part ∈ value.parts, Everywhere property part) →
    Everywhere property value

/-- Whole numbers have 64 bits, and doubles are finite. -/
def Fits : Json → Prop
  | .integer value => Int64.minValue.toInt ≤ value ∧ value ≤ Int64.maxValue.toInt
  | .float value => value.isFinite = true
  | _ => True

def Distinct : Json → Prop
  | .object entries => Mapping.Distinct entries
  | _ => True

/-- Every number in the value is one that arguments and operands have. -/
def Representable : Json → Prop := Everywhere Fits

def WellFormed : Json → Prop := Everywhere Distinct

/-- What holds of a value if it holds of the values in it holds of all. -/
theorem parts_induction {motive : Json → Prop}
    (step : ∀ value : Json, (∀ part ∈ value.parts, motive part) → motive value) (value : Json) :
    motive value := by
  apply step
  intro part inside
  exact parts_induction step part
termination_by sizeOf value
decreasing_by
  cases value with
  | array items =>
    have inner := List.sizeOf_lt_of_mem inside
    simp only [parts, Json.array.sizeOf_spec] at *
    omega
  | object entries =>
    obtain ⟨⟨key, held⟩, entry, rfl⟩ := List.mem_map.mp inside
    have inner := List.sizeOf_lt_of_mem entry
    simp only [Prod.mk.sizeOf_spec, Json.object.sizeOf_spec] at *
    omega
  | _ => cases inside

section

variable {property : Json → Prop}

theorem everywhere_iff {value : Json} :
    Everywhere property value ↔ property value ∧ ∀ part ∈ value.parts, Everywhere property part :=
  ⟨fun ⟨here, inside⟩ => ⟨here, inside⟩, fun ⟨here, inside⟩ => ⟨here, inside⟩⟩

theorem everywhere_array {items : List Json} :
    Everywhere property (.array items) ↔
      property (.array items) ∧ ∀ item ∈ items, Everywhere property item :=
  everywhere_iff

theorem everywhere_object {entries : List (String × Json)} :
    Everywhere property (.object entries) ↔
      property (.object entries) ∧ ∀ entry ∈ entries, Everywhere property entry.2 := by
  rw [everywhere_iff, parts, List.forall_mem_map]

theorem everywhere_of_parts_nil {value : Json} (leaf : value.parts = []) :
    Everywhere property value ↔ property value := by
  rw [everywhere_iff, leaf]
  simp

variable [DecidablePred property]

mutual

def decideEverywhere : (value : Json) → Decidable (Everywhere property value)
  | .null => decidable_of_iff _ (everywhere_of_parts_nil rfl).symm
  | .bool _ => decidable_of_iff _ (everywhere_of_parts_nil rfl).symm
  | .integer _ => decidable_of_iff _ (everywhere_of_parts_nil rfl).symm
  | .float _ => decidable_of_iff _ (everywhere_of_parts_nil rfl).symm
  | .text _ => decidable_of_iff _ (everywhere_of_parts_nil rfl).symm
  | .array items =>
    have := decideItems items
    decidable_of_iff _ everywhere_array.symm
  | .object entries =>
    have := decideEntries entries
    decidable_of_iff _ everywhere_object.symm

def decideItems : (items : List Json) → Decidable (∀ item ∈ items, Everywhere property item)
  | [] => isTrue nofun
  | item :: rest =>
    have := decideEverywhere item
    have := decideItems rest
    decidable_of_iff _ List.forall_mem_cons.symm

def decideEntries :
    (entries : List (String × Json)) → Decidable (∀ entry ∈ entries, Everywhere property entry.2)
  | [] => isTrue nofun
  | (key, value) :: rest =>
    have := decideEverywhere value
    have := decideEntries rest
    have each : (∀ entry ∈ (key, value) :: rest, Everywhere property entry.2) ↔
        Everywhere property value ∧ ∀ entry ∈ rest, Everywhere property entry.2 :=
      List.forall_mem_cons
    decidable_of_iff _ each.symm

end

end

instance : DecidablePred Fits
  | .integer value => inferInstanceAs (Decidable (_ ∧ value ≤ Int64.maxValue.toInt))
  | .float value => inferInstanceAs (Decidable (value.isFinite = true))
  | .null | .bool _ | .text _ | .array _ | .object _ => isTrue trivial

instance : DecidablePred Distinct
  | .object entries => inferInstanceAs (Decidable (Mapping.Distinct entries))
  | .null | .bool _ | .integer _ | .float _ | .text _ | .array _ => isTrue trivial

instance (value : Json) : Decidable value.Representable := decideEverywhere value

instance (value : Json) : Decidable value.WellFormed := decideEverywhere value

example : ¬ Representable (.array [.text "a", .object [("b", .integer (2 ^ 63))]]) := by decide

end Json

namespace Argument

mutual

/-- The conversion as it is carried out: the entries of an object go one by one into an empty
mapping. -/
def ofJsonByInsert : Json → Argument
  | .null => .null
  | .bool value => .bool value
  | .integer value => ofInteger value
  | .float value => .float value
  | .text value => .text value
  | .array items => .list (itemsByInsert items)
  | .object entries => .object (Mapping.ofEntries (entriesByInsert entries))

def itemsByInsert : List Json → List Argument
  | [] => []
  | item :: rest => ofJsonByInsert item :: itemsByInsert rest

def entriesByInsert : List (String × Json) → List (String × Argument)
  | [] => []
  | (key, value) :: rest => (key, ofJsonByInsert value) :: entriesByInsert rest

end

mutual

/-- The operand as the caller wrote it, with documents built entry by entry. -/
def verbatimByInsert : Argument → Operand
  | .null => .null
  | .bool value => .bool value
  | .int value => .int value
  | .float value => .float value
  | .text value => .text value
  | .date value => .int value.epochMillis
  | .list items => .array (verbatimItemsByInsert items)
  | .object entries => .document (Mapping.ofEntries (verbatimEntriesByInsert entries))

def verbatimItemsByInsert : List Argument → List Operand
  | [] => []
  | item :: rest => verbatimByInsert item :: verbatimItemsByInsert rest

def verbatimEntriesByInsert : List (String × Argument) → List (String × Operand)
  | [] => []
  | (key, value) :: rest => (key, verbatimByInsert value) :: verbatimEntriesByInsert rest

end

theorem itemsByInsert_eq_map (items : List Json) :
    itemsByInsert items = items.map ofJsonByInsert := by
  induction items with
  | nil => rfl
  | cons item rest ih => rw [itemsByInsert, ih, List.map_cons]

theorem entriesByInsert_eq_map (entries : List (String × Json)) :
    entriesByInsert entries = entries.map fun entry => (entry.1, ofJsonByInsert entry.2) := by
  induction entries with
  | nil => rfl
  | cons entry rest ih =>
    obtain ⟨key, value⟩ := entry
    rw [entriesByInsert, ih, List.map_cons]

theorem verbatimItemsByInsert_eq_map (items : List Argument) :
    verbatimItemsByInsert items = items.map verbatimByInsert := by
  induction items with
  | nil => rfl
  | cons item rest ih => rw [verbatimItemsByInsert, ih, List.map_cons]

theorem verbatimEntriesByInsert_eq_map (entries : List (String × Argument)) :
    verbatimEntriesByInsert entries =
      entries.map fun entry => (entry.1, verbatimByInsert entry.2) := by
  induction entries with
  | nil => rfl
  | cons entry rest ih =>
    obtain ⟨key, value⟩ := entry
    rw [verbatimEntriesByInsert, ih, List.map_cons]

theorem wellFormed_ofInteger (value : Int) : (ofInteger value).WellFormed := by
  unfold ofInteger
  split <;> constructor

theorem wellFormed_ofJson {value : Json} (wellFormed : value.WellFormed) :
    (ofJson value).WellFormed := by
  induction value using Json.parts_induction with
  | step value ih =>
    obtain ⟨distinct, inside⟩ := Json.everywhere_iff.mp wellFormed
    cases value with
    | null => exact .null
    | bool value => exact .bool value
    | integer value => exact wellFormed_ofInteger value
    | float value => exact .float value
    | text value => exact .text value
    | array items =>
      rw [ofJson, ofJsonItems_eq_map]
      apply WellFormed.list
      intro argument member
      obtain ⟨item, held, rfl⟩ := List.mem_map.mp member
      exact ih item held (inside item held)
    | object entries =>
      rw [ofJson, ofJsonEntries_eq_map]
      apply WellFormed.object
      · rw [Mapping.Distinct, Mapping.keys_map_values]
        exact distinct
      · intro key argument member
        obtain ⟨⟨name, part⟩, held, equal⟩ := List.mem_map.mp member
        obtain ⟨rfl, rfl⟩ := Prod.mk.inj equal
        have among : part ∈ (Json.object entries).parts := List.mem_map_of_mem held
        exact ih part among (inside part among)

theorem ofJsonByInsert_eq {value : Json} (wellFormed : value.WellFormed) :
    ofJsonByInsert value = ofJson value := by
  induction value using Json.parts_induction with
  | step value ih =>
    obtain ⟨distinct, inside⟩ := Json.everywhere_iff.mp wellFormed
    cases value with
    | array items =>
      have each : items.map ofJsonByInsert = items.map ofJson :=
        List.map_congr_left fun item held => ih item held (inside item held)
      rw [ofJsonByInsert, itemsByInsert_eq_map, each, ofJson, ofJsonItems_eq_map]
    | object entries =>
      have each : ∀ entry ∈ entries, ofJsonByInsert entry.2 = ofJson entry.2 := by
        intro entry held
        have among : entry.2 ∈ (Json.object entries).parts := List.mem_map_of_mem held
        exact ih entry.2 among (inside entry.2 among)
      rw [ofJsonByInsert, entriesByInsert_eq_map, Mapping.ofEntries_map_values distinct each,
        ofJson, ofJsonEntries_eq_map]
    | _ => rfl

theorem verbatimByInsert_eq {value : Argument} (wellFormed : value.WellFormed) :
    value.verbatimByInsert = value.verbatim := by
  induction wellFormed with
  | @list items _ ih =>
    rw [verbatimByInsert, verbatimItemsByInsert_eq_map, List.map_congr_left ih, verbatim,
      verbatimItems_eq_map]
  | @object entries distinct _ ih =>
    have each : ∀ entry ∈ entries, verbatimByInsert entry.2 = verbatim entry.2 :=
      fun entry held => ih entry.1 entry.2 held
    rw [verbatimByInsert, verbatimEntriesByInsert_eq_map,
      Mapping.ofEntries_map_values distinct each, verbatim, verbatimEntries_eq_map]
  | _ => rfl

theorem toJson_verbatim_ofInteger (value : Int) :
    (ofInteger value).verbatim.toJson = .integer value ↔
      Int64.minValue.toInt ≤ value ∧ value ≤ Int64.maxValue.toInt := by
  unfold ofInteger
  split
  · rename_i within
    have kept : (Int64.ofInt value).toInt = value := by
      have least : Int64.minValue.toInt = -2 ^ 63 := by decide
      have greatest : Int64.maxValue.toInt = 2 ^ 63 - 1 := by decide
      apply Int64.toInt_ofInt_of_le <;> omega
    simp only [verbatim, Operand.toJson, kept, within, and_self]
  · rename_i outside
    simp only [verbatim, Operand.toJson, iff_false_intro outside, iff_false]
    split <;> simp

end Argument

/-- The encoder of JSON makes of an operand what is built of it directly, where documents hold each
key once. -/
theorem Operand.encode_eq_toJson {operand : Operand} (wellFormed : operand.WellFormed) :
    operand.encode Json.encoder = operand.toJson := by
  induction wellFormed with
  | @array items _ ih =>
    rw [encode, encodeItems_eq_map, List.map_congr_left ih, toJson, itemsToJson_eq_map]
    rfl
  | @document entries distinct _ ih =>
    have each : ∀ entry ∈ entries, encode Json.encoder entry.2 = toJson entry.2 :=
      fun entry held => ih entry.1 entry.2 held
    rw [encode, encodeEntries_eq_map, toJson, entriesToJson_eq_map]
    exact congrArg Json.object (Mapping.ofEntries_map_values distinct each)
  | _ => rfl

namespace Json

theorem passage_array (items : List Json) :
    (Argument.ofJson (.array items)).verbatim.toJson =
      .array (items.map fun item => (Argument.ofJson item).verbatim.toJson) := by
  rw [Argument.ofJson, Argument.ofJsonItems_eq_map, Argument.verbatim,
    Argument.verbatimItems_eq_map, Operand.toJson, Operand.itemsToJson_eq_map, List.map_map,
    List.map_map]
  rfl

theorem passage_object (entries : List (String × Json)) :
    (Argument.ofJson (.object entries)).verbatim.toJson =
      .object (entries.map fun entry =>
        (entry.1, (Argument.ofJson entry.2).verbatim.toJson)) := by
  rw [Argument.ofJson, Argument.ofJsonEntries_eq_map, Argument.verbatim,
    Argument.verbatimEntries_eq_map, Operand.toJson, Operand.entriesToJson_eq_map, List.map_map,
    List.map_map]
  rfl

/-- A value comes back from an argument and an operand as it was exactly if they have its
numbers. -/
theorem passage_eq_iff (value : Json) :
    (Argument.ofJson value).verbatim.toJson = value ↔ value.Representable := by
  -- Lists and objects go over part by part, so the parts settle it.
  induction value using parts_induction with
  | step value ih =>
    unfold Representable at ih ⊢
    cases value with
    | array items =>
      have here : Fits (.array items) := trivial
      rw [passage_array, Json.array.injEq, map_eq_self_iff, everywhere_array, and_iff_right here]
      exact forall₂_congr ih
    | object entries =>
      have here : Fits (.object entries) := trivial
      rw [passage_object, Json.object.injEq, map_eq_self_iff, everywhere_object,
        and_iff_right here]
      apply forall₂_congr
      intro entry held
      rw [Prod.ext_iff, and_iff_right rfl]
      exact ih entry.2 (List.mem_map_of_mem held)
    | integer value =>
      rw [everywhere_of_parts_nil rfl]
      exact Argument.toJson_verbatim_ofInteger value
    | float value =>
      rw [everywhere_of_parts_nil rfl]
      simp [Argument.ofJson, Argument.verbatim, Operand.toJson, Fits]
    | null | bool | text =>
      rw [everywhere_of_parts_nil rfl]
      simp [Argument.ofJson, Argument.verbatim, Operand.toJson, Fits]

theorem passageByInsert_eq {value : Json} (wellFormed : value.WellFormed) :
    (Argument.ofJsonByInsert value).verbatimByInsert.encode encoder =
      (Argument.ofJson value).verbatim.toJson := by
  have argument := Argument.wellFormed_ofJson wellFormed
  rw [Argument.ofJsonByInsert_eq wellFormed, Argument.verbatimByInsert_eq argument]
  exact Operand.encode_eq_toJson (Argument.wellFormed_verbatim argument)

theorem toExpression_eq_ok_iff {value : Json} {given : Expression} :
    (FilterArgument.json value).toExpression = .ok given ↔
      (∃ entries, value = .object entries) ∧ Argument.ofJson value = .object given ∨
        value = .null ∧ given = [] := by
  cases value <;>
    simp [FilterArgument.toExpression, Expression.ofJson?, Argument.ofJson, eq_comm]

theorem toExpression_eq_error_iff {value : Json} {violation : Violation} :
    (FilterArgument.json value).toExpression = .error violation ↔
      violation = .expectedObject "filter" ∧ value ≠ .null ∧ ∀ entries, value ≠ .object entries := by
  cases value <;> simp [FilterArgument.toExpression, Expression.ofJson?, eq_comm]

/-- JSON goes through arguments and operands unchanged exactly if its numbers are whole numbers of
64 bits and finite doubles, at every depth; where objects hold each key once, it makes no difference
that mappings are built entry by entry on the way. As a filter it is an expression exactly if it is
an object or null. -/
theorem passes_unchanged (value : Json) :
    ((Argument.ofJson value).verbatim.toJson = value ↔ value.Representable) ∧
    (value.WellFormed →
      Argument.ofJsonByInsert value = Argument.ofJson value ∧
      ((Argument.ofJsonByInsert value).verbatimByInsert.encode encoder = value ↔
        value.Representable)) ∧
    (∀ given, (FilterArgument.json value).toExpression = .ok given ↔
      (∃ entries, value = .object entries) ∧ Argument.ofJson value = .object given ∨
        value = .null ∧ given = []) ∧
    (∀ violation, (FilterArgument.json value).toExpression = .error violation ↔
      violation = .expectedObject "filter" ∧ value ≠ .null ∧
        ∀ entries, value ≠ .object entries) := by
  refine ⟨passage_eq_iff value, ?_, fun _ => toExpression_eq_ok_iff,
    fun _ => toExpression_eq_error_iff⟩
  intro wellFormed
  refine ⟨Argument.ofJsonByInsert_eq wellFormed, ?_⟩
  rw [passageByInsert_eq wellFormed]
  exact passage_eq_iff value

/-- The whole number and the double stay apart, and a negative zero keeps its sign. -/
theorem passes_unchanged_through_lists_and_objects :
    ∃ value, value = Json.object [
        ("b", .array [.integer 1, .float ⟨0x3ff0000000000000⟩, .float ⟨0x8000000000000000⟩]),
        ("a", .object [("d", .array []), ("c", .integer (-9223372036854775808))])] ∧
      (Argument.ofJson value).verbatim.toJson = value ∧
      (Argument.ofJsonByInsert value).verbatimByInsert.encode encoder = value := by
  refine ⟨_, rfl, ?_, ?_⟩
  · exact (passes_unchanged _).1.mpr (by decide)
  · exact ((passes_unchanged _).2.1 (by decide)).2.mpr (by decide)

end Json

end ListQuery
