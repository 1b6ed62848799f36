import ListQuery.Coercion

set_option autoImplicit false

/-!
Which texts become references. A field holds references if `_id` stands in its name after the first
character and not at the start (`holdsReferences_iff`); on such a field the texts of identifiers
become references wherever they stand in nested lists, and no other text does
(`Argument.coerce_text_in_lists`). A name that starts with `_id` and has it once more holds none
(`reference_missed_after_leading_id`).
-/

namespace ListQuery

theorem Text.le_length_of_prefix_drop {word text : List Char} {index : Nat} (present : word ≠ [])
    (stands : word <+: text.drop index) : index ≤ text.length := by
  by_cases inside : index ≤ text.length
  · exact inside
  · have beyond : text.drop index = [] := List.drop_eq_nil_of_le (by omega)
    rw [beyond, List.prefix_nil] at stands
    exact absurd stands present

/-- The first `_id` of the name decides, so one at the start hides the others. -/
theorem holdsReferences_iff {field : String} :
    holdsReferences field = true ↔
      (∃ index, 0 < index ∧ "_id".toList <+: field.toList.drop index) ∧
        ¬ "_id".toList <+: field.toList := by
  have present : "_id".toList ≠ [] := by decide
  unfold holdsReferences
  cases found : Text.indexOf? "_id".toList field.toList with
  | none =>
    have absent := Text.indexOf?_eq_none_iff.mp found
    simp only [Bool.false_eq_true, false_iff, not_and]
    intro ⟨index, _, stands⟩ _
    exact absent index (Text.le_length_of_prefix_drop present stands) stands
  | some first =>
    have ⟨_, stands, least⟩ := Text.indexOf?_eq_some_iff.mp found
    simp only [decide_eq_true_eq]
    constructor
    · intro later
      have start := least 0 later
      rw [List.drop_zero] at start
      exact ⟨⟨first, later, stands⟩, start⟩
    · intro ⟨_, start⟩
      apply Nat.pos_of_ne_zero
      intro zero
      rw [zero, List.drop_zero] at stands
      exact start stands

namespace Argument

/-- What stands at a place in nested lists, by an index for each list on the way. -/
def item? (argument : Argument) : List Nat → Option Argument
  | [] => some argument
  | index :: place => (argument.list?.getD [])[index]?.bind fun item => item.item? place

end Argument

namespace Operand

def items : Operand → List Operand
  | .array items => items
  | _ => []

/-- What stands at a place in nested arrays, by an index for each array on the way. -/
def item? (operand : Operand) : List Nat → Option Operand
  | [] => some operand
  | index :: place => operand.items[index]?.bind fun item => item.item? place

end Operand

namespace Argument

theorem items_coerceText (field text : String) : (coerceText field text).items = [] := by
  unfold coerceText
  repeat' split
  all_goals rfl

theorem items_coerce (field : String) (value : Argument) :
    (value.coerce field).items = (value.list?.getD []).map (coerce field) := by
  cases value with
  | text value => exact items_coerceText field value
  | list items => exact coerceItems_eq_map field items
  | _ => rfl

/-- Every item of nested lists is coerced on its own, and no list comes in or goes. -/
theorem item?_coerce (field : String) (value : Argument) (place : List Nat) :
    (value.coerce field).item? place = (value.item? place).map (coerce field) := by
  induction place generalizing value with
  | nil => rfl
  | cons index place ih =>
    rw [Operand.item?, item?, items_coerce, List.getElem?_map]
    cases (value.list?.getD [])[index]? with
    | none => rfl
    | some item => exact ih item

theorem coerceText_of_ofHex? {text : String} {id : Identifier}
    (read : Identifier.ofHex? text = some id) (field : String) :
    coerceText field text = if holdsReferences field then .reference id else .text text := by
  have shape : Identifier.hasShape text = true := by
    rw [← Identifier.isSome_ofHex?_iff, read]
    rfl
  have notTrue : text ≠ "true" := by
    rintro rfl
    exact absurd shape (by decide)
  have notFalse : text ≠ "false" := by
    rintro rfl
    exact absurd shape (by decide)
  simp only [coerceText, notTrue, notFalse, if_false, read]

theorem coerceText_of_not_hasShape {text : String} (shapeless : Identifier.hasShape text = false)
    (notTrue : text ≠ "true") (notFalse : text ≠ "false") (field : String) :
    coerceText field text = .text text := by
  have unread : Identifier.ofHex? text = none := by
    rw [← Option.not_isSome_iff_eq_none, Identifier.isSome_ofHex?_iff, shapeless]
    decide
  simp only [coerceText, notTrue, notFalse, if_false, unread, ite_self]

/-- A text with the shape of an identifier, wherever it stands in nested lists, becomes a reference
on the fields whose name has `_id` after the first character and not at the start, and stays as it is
on all others. Texts of another shape stay as they are on every field, the words of the truth values
apart. -/
theorem coerce_text_in_lists {field text : String} {value : Argument} {place : List Nat}
    (found : value.item? place = some (.text text)) :
    (Identifier.hasShape text = true →
      ∃ id, Identifier.ofHex? text = some id ∧
        ((value.coerce field).item? place = some (.reference id) ↔
          (∃ index, 0 < index ∧ "_id".toList <+: field.toList.drop index) ∧
            ¬ "_id".toList <+: field.toList) ∧
        ((value.coerce field).item? place = some (.text text) ↔
          ¬ ((∃ index, 0 < index ∧ "_id".toList <+: field.toList.drop index) ∧
            ¬ "_id".toList <+: field.toList))) ∧
    (Identifier.hasShape text = false → text ≠ "true" → text ≠ "false" →
      (value.coerce field).item? place = some (.text text)) := by
  have item : (value.coerce field).item? place = some (coerceText field text) := by
    rw [item?_coerce, found]
    rfl
  rw [item]
  constructor
  · intro shape
    obtain ⟨id, read⟩ := Option.isSome_iff_exists.mp ((Identifier.isSome_ofHex?_iff text).mpr shape)
    refine ⟨id, read, ?_⟩
    rw [coerceText_of_ofHex? read, ← holdsReferences_iff]
    cases holdsReferences field with
    | false => simp
    | true => simp
  · intro shapeless notTrue notFalse
    rw [coerceText_of_not_hasShape shapeless notTrue notFalse]

/-- A reference inside two lists, next to a text that is none. -/
theorem coerce_text_in_lists_of_senders :
    ∃ id, Identifier.ofHex? "507f1f77bcf86cd799439011" = some id ∧
      (coerce "sender_id" (.list [.int 1, .list [.text "507f1f77bcf86cd799439011",
        .text "general"]])).item? [1, 0] = some (.reference id) ∧
      (coerce "sender_id" (.list [.int 1, .list [.text "507f1f77bcf86cd799439011",
        .text "general"]])).item? [1, 1] = some (.text "general") := by
  let value : Argument :=
    .list [.int 1, .list [.text "507f1f77bcf86cd799439011", .text "general"]]
  have first : value.item? [1, 0] = some (.text "507f1f77bcf86cd799439011") := rfl
  have second : value.item? [1, 1] = some (.text "general") := rfl
  obtain ⟨id, read, reference, -⟩ :=
    (@coerce_text_in_lists "sender_id" _ _ _ first).1 (by decide)
  refine ⟨id, read, ?_, ?_⟩
  · exact reference.mpr ⟨⟨6, by decide, by decide⟩, by decide⟩
  · exact (coerce_text_in_lists second).2 (by decide) (by decide) (by decide)

end Argument

/-- The name has `_id` after its first character, and the text of an identifier stays a text. -/
theorem reference_missed_after_leading_id :
    "_id".toList <+: "_id_id".toList.drop 3 ∧
    Identifier.hasShape "507f1f77bcf86cd799439011" = true ∧
    Argument.coerce "_id_id" (.text "507f1f77bcf86cd799439011") =
      .text "507f1f77bcf86cd799439011" := by
  refine ⟨by decide, by decide, ?_⟩
  have plain : holdsReferences "_id_id" = false := by decide
  simp [Argument.coerce, Argument.coerceText, plain]

end ListQuery
