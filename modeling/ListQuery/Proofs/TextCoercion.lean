import ListQuery.Proofs.Clauses
import ListQuery.Proofs.IdentifierText
import ListQuery.Proofs.KeyGrammar
import ListQuery.Proofs.ReferenceFields

set_option autoImplicit false

/-!
Coercion as a change of texts. What the field is compared with is the operand as it was written,
after one pass that goes into arrays, but into no document (`Argument.coerce_eq_changeTexts`) and
reads each text by rules of its own (`Argument.coerceText_eq_iff`). So the two have arrays of the
same lengths at the same places, the same documents, numbers and dates, and the field counts only
by whether it holds references (`Argument.coerce_eq_verbatim_up_to_texts`).
-/

namespace ListQuery

namespace Argument

def parts : Argument → List Argument
  | .list items => items
  | .object entries => entries.map Prod.snd
  | _ => []

/-- What stands at a place, by an index for each list or object on the way. -/
def part? (argument : Argument) : List Nat → Option Argument
  | [] => some argument
  | index :: place => argument.parts[index]?.bind fun part => part.part? place

end Argument

namespace Operand

def parts : Operand → List Operand
  | .array items => items
  | .document entries => entries.map Prod.snd
  | _ => []

/-- What stands at a place, by an index for each array or document on the way. -/
def part? (operand : Operand) : List Nat → Option Operand
  | [] => some operand
  | index :: place => operand.parts[index]?.bind fun part => part.part? place

def arrayLength? : Operand → Option Nat
  | .array items => some items.length
  | _ => none

/-- What no text becomes and no change of texts alters. -/
inductive Lasting : Operand → Prop
  | null : Lasting .null
  | int (value : Int64) : Lasting (.int value)
  | float (value : Binary64) : Lasting (.float value)
  | document (entries : Document) : Lasting (.document entries)

mutual

/-- Changes the texts of an operand, those inside arrays too, and leaves documents as they are. -/
def changeTexts (change : String → Operand) : Operand → Operand
  | .text value => change value
  | .array items => .array (changeItems change items)
  | .null => .null
  | .bool value => .bool value
  | .int value => .int value
  | .float value => .float value
  | .reference id => .reference id
  | .document entries => .document entries

def changeItems (change : String → Operand) : List Operand → List Operand
  | [] => []
  | item :: rest => changeTexts change item :: changeItems change rest

end

/-- What a text stands for: the words of the truth values are those, and where references are held
24 hexadecimal digits are the identifier that has their small letters for its text. Any other text
stays one. -/
inductive ReadsAs (references : Bool) (text : String) : Operand → Prop
  | truth : text = "true" → ReadsAs references text (.bool true)
  | falsehood : text = "false" → ReadsAs references text (.bool false)
  | identifier {id : Identifier} :
    references = true → Identifier.hasShape text = true → id.toHex = text.toLower →
    ReadsAs references text (.reference id)
  | plain : text ≠ "true" → text ≠ "false" →
    ¬ (references = true ∧ Identifier.hasShape text = true) → ReadsAs references text (.text text)

theorem changeItems_eq_map (change : String → Operand) (items : List Operand) :
    changeItems change items = items.map (changeTexts change) := by
  induction items with
  | nil => rfl
  | cons item rest ih => rw [changeItems, ih, List.map_cons]

section

variable {references : Bool} {change : String → Operand}

theorem ReadsAs.parts_eq_nil {text : String} {read : Operand}
    (reads : ReadsAs references text read) : read.parts = [] := by
  cases reads <;> rfl

theorem ReadsAs.arrayLength?_eq_none {text : String} {read : Operand}
    (reads : ReadsAs references text read) : read.arrayLength? = none := by
  cases reads <;> rfl

theorem ReadsAs.not_lasting {text : String} {read : Operand}
    (reads : ReadsAs references text read) : ¬ read.Lasting := by
  intro lasting
  cases reads <;> cases lasting

theorem arrayLength?_changeTexts (reads : ∀ text, ReadsAs references text (change text))
    (operand : Operand) : (operand.changeTexts change).arrayLength? = operand.arrayLength? := by
  cases operand with
  | text value => exact (reads value).arrayLength?_eq_none
  | array items => rw [changeTexts, changeItems_eq_map, arrayLength?, arrayLength?, List.length_map]
  | _ => rfl

/-- At every place stands what stood there before, or that with its texts changed. -/
theorem part?_changeTexts (reads : ∀ text, ReadsAs references text (change text))
    (operand : Operand) (place : List Nat) :
    (operand.changeTexts change).part? place = operand.part? place ∨
      (operand.changeTexts change).part? place =
        (operand.part? place).map (changeTexts change) := by
  induction place generalizing operand with
  | nil => exact .inr rfl
  | cons index place ih =>
    cases operand with
    | text value =>
      rw [changeTexts, part?, (reads value).parts_eq_nil]
      exact .inl rfl
    | array items =>
      simp only [changeTexts, changeItems_eq_map, part?, parts, List.getElem?_map]
      cases items[index]? with
      | none => exact .inl rfl
      | some item => exact ih item
    | _ => exact .inl rfl

/-- No text is read as null, a number or a document, and these stay as they are. -/
theorem changeTexts_eq_iff (reads : ∀ text, ReadsAs references text (change text))
    {found : Operand} (lasting : found.Lasting) (operand : Operand) :
    operand.changeTexts change = found ↔ operand = found := by
  cases operand with
  | text value =>
    constructor
    · rintro rfl
      exact absurd lasting (reads value).not_lasting
    · rintro rfl
      cases lasting
  | array items =>
    rw [changeTexts]
    cases lasting <;> simp
  | _ => rfl

theorem part?_changeTexts_eq_some_iff (reads : ∀ text, ReadsAs references text (change text))
    {found : Operand} (lasting : found.Lasting) (operand : Operand) (place : List Nat) :
    (operand.changeTexts change).part? place = some found ↔ operand.part? place = some found := by
  rcases part?_changeTexts reads operand place with same | changed
  · rw [same]
  · rw [changed, Option.map_eq_some_iff]
    simp only [changeTexts_eq_iff reads lasting, exists_eq_right]

theorem arrayLength?_part?_changeTexts (reads : ∀ text, ReadsAs references text (change text))
    (operand : Operand) (place : List Nat) :
    ((operand.changeTexts change).part? place).bind arrayLength? =
      (operand.part? place).bind arrayLength? := by
  rcases part?_changeTexts reads operand place with same | changed
  · rw [same]
  · rw [changed, Option.bind_map]
    congr 1
    funext part
    exact arrayLength?_changeTexts reads part

end

end Operand

namespace Argument

theorem readsAs_coerceText (field text : String) :
    Operand.ReadsAs (holdsReferences field) text (coerceText field text) := by
  by_cases truth : text = "true"
  · subst truth
    exact .truth rfl
  by_cases falsehood : text = "false"
  · subst falsehood
    exact .falsehood rfl
  cases shape : Identifier.hasShape text with
  | false =>
    rw [coerceText_of_not_hasShape shape truth falsehood]
    exact .plain truth falsehood (by simp [shape])
  | true =>
    obtain ⟨id, read⟩ := Option.isSome_iff_exists.mp ((Identifier.isSome_ofHex?_iff text).mpr shape)
    rw [coerceText_of_ofHex? read]
    split
    · exact .identifier ‹_› shape (Identifier.toHex_of_ofHex? read)
    · rename_i without
      exact .plain truth falsehood fun both => without both.1

/-- What a text becomes against a field is what it stands for, and nothing else. -/
theorem coerceText_eq_iff {field text : String} {operand : Operand} :
    coerceText field text = operand ↔ Operand.ReadsAs (holdsReferences field) text operand := by
  constructor
  · rintro rfl
    exact readsAs_coerceText field text
  · intro reads
    cases reads with
    | truth word => subst word; rfl
    | falsehood word => subst word; rfl
    | @identifier id holds shape written =>
      obtain ⟨found, read⟩ :=
        Option.isSome_iff_exists.mp ((Identifier.isSome_ofHex?_iff text).mpr shape)
      -- The text that an identifier is written as leaves no choice of it.
      have same : found.toHex = id.toHex := (Identifier.toHex_of_ofHex? read).trans written.symm
      rw [coerceText_of_ofHex? read, if_pos holds, Identifier.toHex_inj.mp same]
    | plain notTrue notFalse shapeless =>
      cases shape : Identifier.hasShape text with
      | false => exact coerceText_of_not_hasShape shape notTrue notFalse field
      | true =>
        obtain ⟨id, read⟩ :=
          Option.isSome_iff_exists.mp ((Identifier.isSome_ofHex?_iff text).mpr shape)
        rw [coerceText_of_ofHex? read, if_neg fun holds => shapeless ⟨holds, shape⟩]

theorem coerceText_congr {field other : String}
    (same : holdsReferences other = holdsReferences field) :
    coerceText other = coerceText field := by
  funext text
  unfold coerceText
  rw [same]

mutual

/-- Coercion is one change of texts on the operand as it was written. -/
theorem coerce_eq_changeTexts (field : String) :
    ∀ value : Argument, value.coerce field = value.verbatim.changeTexts (coerceText field)
  | .list items => congrArg Operand.array (coerceItems_eq_changeItems field items)
  | .text _ | .null | .bool _ | .int _ | .float _ | .date _ | .object _ => rfl

theorem coerceItems_eq_changeItems (field : String) :
    ∀ items : List Argument,
      coerceItems field items = Operand.changeItems (coerceText field) (verbatimItems items)
  | [] => rfl
  | item :: rest =>
    congrArg₂ List.cons (coerce_eq_changeTexts field item) (coerceItems_eq_changeItems field rest)

end

theorem parts_verbatim (value : Argument) : value.verbatim.parts = value.parts.map verbatim := by
  cases value with
  | list items => exact verbatimItems_eq_map items
  | object entries =>
    rw [verbatim, verbatimEntries_eq_map, Operand.parts, parts, List.map_map, List.map_map]
    rfl
  | _ => rfl

theorem part?_verbatim (value : Argument) (place : List Nat) :
    value.verbatim.part? place = (value.part? place).map verbatim := by
  induction place generalizing value with
  | nil => rfl
  | cons index place ih =>
    rw [Operand.part?, part?, parts_verbatim, List.getElem?_map]
    cases value.parts[index]? with
    | none => rfl
    | some part => exact ih part

theorem clauseOf_selection {field : String} (present : field ≠ "") (options : Options)
    (selection : Selection) (items : List Argument) :
    Expression.clauseOf options (field ++ (Operator.select selection).suffix) (.list items) =
      .ok (some (field, .document
        [(selection.symbol, selection.operand field (.list items))])) := by
  have parsed : Key.parse (field ++ (Operator.select selection).suffix) =
      .field field (some (.select selection)) :=
    Key.parse_eq_field_some_iff.mpr ⟨rfl, present⟩
  have array : .array (items.map (selection.operand field)) =
      selection.operand field (.list items) := by
    cases selection with
    | everyOf => exact congrArg Operand.array (verbatimItems_eq_map items).symm
    | noneOf | oneOf => exact congrArg Operand.array (coerceItems_eq_map field items).symm
  rw [← array]
  exact Expression.clauseOf_of_operator rfl parsed rfl

/-- What the field is compared with is the operand as it was written, after one change of texts,
which makes of each text what it stands for. At the same places the two have arrays of the same
lengths, and the same numbers and documents; a date is its epoch milliseconds in both, inside
objects too. Of the field it only matters whether it holds references. A list under `_in` or `_nin`
is coerced as a whole, and one under `_all` stays as it was written. -/
theorem coerce_eq_verbatim_up_to_texts (field : String) (value : Argument) :
    (∃ change : String → Operand,
      (∀ text operand,
        change text = operand ↔ Operand.ReadsAs (holdsReferences field) text operand) ∧
      value.coerce field = value.verbatim.changeTexts change) ∧
    (∀ place, ((value.coerce field).part? place).bind Operand.arrayLength? =
      (value.verbatim.part? place).bind Operand.arrayLength?) ∧
    (∀ place found, Operand.Lasting found →
      ((value.coerce field).part? place = some found ↔
        value.verbatim.part? place = some found)) ∧
    (∀ place date, value.part? place = some (.date date) →
      (value.coerce field).part? place = some (.int date.epochMillis) ∧
        value.verbatim.part? place = some (.int date.epochMillis)) ∧
    (∀ other, holdsReferences other = holdsReferences field →
      value.coerce other = value.coerce field) ∧
    (field ≠ "" → ∀ options items,
      Expression.clauseOf options (field ++ "_in") (.list items) =
        .ok (some (field, .document [("$in", (Argument.list items).coerce field)])) ∧
      Expression.clauseOf options (field ++ "_nin") (.list items) =
        .ok (some (field, .document [("$nin", (Argument.list items).coerce field)])) ∧
      Expression.clauseOf options (field ++ "_all") (.list items) =
        .ok (some (field, .document [("$all", (Argument.list items).verbatim)]))) := by
  have pass := coerce_eq_changeTexts field value
  have reads := readsAs_coerceText field
  have lasts : ∀ place found, Operand.Lasting found →
      ((value.coerce field).part? place = some found ↔
        value.verbatim.part? place = some found) := by
    intro place found lasting
    rw [pass]
    exact Operand.part?_changeTexts_eq_some_iff reads lasting _ place
  refine ⟨⟨coerceText field, fun _ _ => coerceText_eq_iff, pass⟩, ?_, lasts, ?_, ?_, ?_⟩
  · intro place
    rw [pass]
    exact Operand.arrayLength?_part?_changeTexts reads _ place
  · intro place date found
    have millis : value.verbatim.part? place = some (.int date.epochMillis) := by
      rw [part?_verbatim, found]
      rfl
    exact ⟨(lasts place _ (.int _)).mpr millis, millis⟩
  · intro other same
    rw [coerce_eq_changeTexts other, coerceText_congr same, pass]
  · intro present options items
    exact ⟨clauseOf_selection present options .oneOf items,
      clauseOf_selection present options .noneOf items,
      clauseOf_selection present options .everyOf items⟩

/-- A reference in an inner list, a text in an object, and a date below both. -/
theorem coerce_eq_verbatim_up_to_texts_of_senders :
    ∃ id : Identifier, id.toHex = "507f1f77bcf86cd799439011" ∧
      ∃ date : Instant, date.seconds = -1 ∧ ∃ value : Argument,
        value = .list [.text "true", .list [.text "507F1F77BCF86CD799439011", .text "general"],
          .object [("a", .list [.text "true", .date date])]] ∧
        value.coerce "sender_id" = .array [.bool true, .array [.reference id, .text "general"],
          .document [("a", .array [.text "true", .int (-1000)])]] ∧
        (value.coerce "sender_id").part? [2, 0, 1] = some (.int (-1000)) ∧
        value.coerce "x_idle" = value.coerce "sender_id" ∧
        "sender_id" ≠ "" ∧
        Expression.clauseOf {} ("sender_id" ++ "_nin") value =
          .ok (some ("sender_id", .document [("$nin", value.coerce "sender_id")])) := by
  let id : Identifier := ⟨[80, 127, 31, 119, 188, 248, 108, 215, 153, 67, 144, 17], rfl⟩
  let date : Instant := ⟨-1, 0, by decide, by decide⟩
  have hex : id.toHex = "507f1f77bcf86cd799439011" := by decide
  have lowered : "507F1F77BCF86CD799439011".toLower = "507f1f77bcf86cd799439011" :=
    Identifier.toLower_eq_iff.mpr (by decide)
  have millis : date.epochMillis = -1000 := by decide
  have holds : holdsReferences "sender_id" = true := by decide
  have present : "sender_id" ≠ "" := by decide
  obtain ⟨⟨change, reads, pass⟩, -, -, dates, alike, lists⟩ := coerce_eq_verbatim_up_to_texts
    "sender_id" (.list [.text "true", .list [.text "507F1F77BCF86CD799439011", .text "general"],
      .object [("a", .list [.text "true", .date date])]])
  have word : change "true" = .bool true := (reads _ _).mpr (.truth rfl)
  have sender : change "507F1F77BCF86CD799439011" = .reference id :=
    (reads _ _).mpr (.identifier holds (by decide) (hex.trans lowered.symm))
  have plain : change "general" = .text "general" :=
    (reads _ _).mpr (.plain (by decide) (by decide) (by decide))
  refine ⟨id, hex, date, rfl, _, rfl, ?_, ?_, ?_, present, ?_⟩
  · rw [pass]
    simp [verbatim, verbatimItems, verbatimEntries, Operand.changeTexts, Operand.changeItems, word,
      sender, plain, millis]
  · rw [(dates [2, 0, 1] date rfl).1, millis]
  · exact alike "x_idle" (by decide)
  · exact (lists present {} _).2.1

end Argument

end ListQuery
