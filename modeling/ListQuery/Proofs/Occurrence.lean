import ListQuery.Coercion

set_option autoImplicit false

/-!
What stands under a key, at any depth of an operand or an argument. A merge puts nothing new under
a key but the merge of two documents that stood under it (`everywhere_merge`), and coercion leaves
what stands in the objects of an argument as it is written (`under_of_coerce`).
-/

namespace ListQuery

namespace Operand

/-- Whether the operand is held under the key in a document that is part of the other operand. -/
inductive Under (key : String) (held : Operand) : Operand → Prop
  | here {entries : List (String × Operand)} :
    (key, held) ∈ entries → Under key held (.document entries)
  | entry {entries : List (String × Operand)} {name : String} {inner : Operand} :
    (name, inner) ∈ entries → Under key held inner → Under key held (.document entries)
  | item {items : List Operand} {inner : Operand} :
    inner ∈ items → Under key held inner → Under key held (.array items)

def Everywhere (key : String) (property : Operand → Prop) (operand : Operand) : Prop :=
  ∀ held, Under key held operand → property held

def isDocument : Operand → Bool
  | .document _ => true
  | _ => false

variable {key : String} {property : Operand → Prop}

theorem everywhere_document {entries : List (String × Operand)} :
    Everywhere key property (.document entries) ↔
      ∀ name inner, (name, inner) ∈ entries →
        (name = key → property inner) ∧ Everywhere key property inner := by
  constructor
  · intro all name inner member
    constructor
    · rintro rfl
      exact all inner (.here member)
    · intro held under
      exact all held (.entry member under)
  · intro all held under
    cases under with
    | here member => exact (all key held member).1 rfl
    | entry member under => exact (all _ _ member).2 held under

theorem everywhere_array {items : List Operand} :
    Everywhere key property (.array items) ↔ ∀ item ∈ items, Everywhere key property item := by
  constructor
  · intro all item member held under
    exact all held (.item member under)
  · intro all held under
    cases under with
    | item member under => exact all _ member held under

theorem Everywhere.mono {other : Operand → Prop} {operand : Operand}
    (all : Everywhere key property operand) (weaker : ∀ held, property held → other held) :
    Everywhere key other operand := by
  intro held under
  exact weaker held (all held under)

theorem everywhere_of_leaf {operand : Operand} (noItems : ∀ items, operand ≠ .array items)
    (noEntries : ∀ entries, operand ≠ .document entries) : Everywhere key property operand := by
  intro held under
  cases under with
  | here member => exact absurd rfl (noEntries _)
  | entry member under => exact absurd rfl (noEntries _)
  | item member under => exact absurd rfl (noItems _)

theorem everywhere_single {key name : String} {inner : Operand} :
    Everywhere key property (.document (Document.single name inner)) ↔
      (name = key → property inner) ∧ Everywhere key property inner := by
  simp [everywhere_document, Document.single]

theorem everywhere_nil {key : String} : Everywhere key property (.document []) := by
  simp [everywhere_document]

theorem everywhere_text (key text : String) : Everywhere key property (.text text) :=
  everywhere_of_leaf (by simp) (by simp)

/-- What holds of a document if it holds of the operands in it, and of all that is no document,
holds of all operands. -/
theorem document_induction {motive : Operand → Prop}
    (document : ∀ entries : List (String × Operand),
      (∀ name inner, (name, inner) ∈ entries → motive inner) → motive (.document entries))
    (other : ∀ operand, operand.isDocument = false → motive operand) (operand : Operand) :
    motive operand := by
  match operand with
  | .document entries =>
    apply document
    intro name inner member
    exact document_induction document other inner
  | .null | .bool _ | .int _ | .float _ | .text _ | .reference _ | .array _ =>
    exact other _ rfl
termination_by sizeOf operand
decreasing_by
  have inside := List.sizeOf_lt_of_mem member
  simp only [Prod.mk.sizeOf_spec, Operand.document.sizeOf_spec] at *
  omega

theorem over_of_not_document {incoming : Operand} (scalar : incoming.isDocument = false)
    (held : Option Operand) : Operand.over held incoming = incoming := by
  cases incoming with
  | document entries => cases scalar
  | _ => rfl

theorem isDocument_over (held : Option Operand) (incoming : Operand) :
    (Operand.over held incoming).isDocument = incoming.isDocument := by
  cases incoming with
  | document entries =>
    unfold Operand.over
    split <;> rfl
  | _ => rfl

theorem get?_entries_over {entries : Document} (distinct : Mapping.Distinct entries)
    (held : Option Operand) (name : String) :
    Mapping.get? (Operand.entries (some (Operand.over held (.document entries)))) name =
      match Mapping.get? entries name with
      | some inner => some (Operand.over (Mapping.get? (Operand.entries held) name) inner)
      | none => Mapping.get? (Operand.entries held) name := by
  rw [over_document distinct held]
  exact Document.get?_merge distinct (Operand.entries held) name

/-- What holds of two documents, if both were there, holds of the one over the other. -/
theorem property_over
    (merged : ∀ base entries : Document, property (.document base) →
      property (.document entries) → property (.document (Document.merge base entries)))
    {held : Option Operand} {incoming : Operand} (before : ∀ operand ∈ held, property operand)
    (own : property incoming) : property (Operand.over held incoming) := by
  cases incoming with
  | document entries =>
    unfold Operand.over
    split
    · exact merged _ _ (before _ rfl) own
    · exact own
  | _ => exact own

theorem everywhere_merge_of_over {entries : List (String × Operand)}
    (merged : ∀ base entries : Document, property (.document base) →
      property (.document entries) → property (.document (Document.merge base entries)))
    (step : ∀ name incoming, (name, incoming) ∈ entries → ∀ held : Option Operand,
      (∀ operand ∈ held, Everywhere key property operand) →
      Everywhere key property (Operand.over held incoming))
    {base : Document} (before : Everywhere key property (.document base))
    (own : Everywhere key property (.document entries)) :
    Everywhere key property (.document (Document.merge base entries)) := by
  induction entries generalizing base with
  | nil => exact before
  | cons entry rest ih =>
    obtain ⟨name, incoming⟩ := entry
    rw [everywhere_document] at own
    have here := (own name incoming (by simp)).1
    rw [Document.merge_cons]
    apply ih
    · intro other inner member
      exact step other inner (List.mem_cons_of_mem _ member)
    · rw [everywhere_document] at before ⊢
      intro other inner member
      rcases Mapping.mem_alter member with written | there
      · obtain ⟨rfl, rfl⟩ := Prod.mk.inj written
        -- A write at the key itself meets what the base holds there, so both sides are asked.
        constructor
        · intro same
          apply property_over merged _ (here same)
          intro operand found
          exact (before other operand (Mapping.mem_of_get? found)).1 same
        · apply step other incoming (by simp)
          intro operand found
          exact (before other operand (Mapping.mem_of_get? found)).2
      · exact before other inner there
    · rw [everywhere_document]
      intro other inner member
      exact own other inner (List.mem_cons_of_mem _ member)

theorem everywhere_over
    (merged : ∀ base entries : Document, property (.document base) →
      property (.document entries) → property (.document (Document.merge base entries)))
    (incoming : Operand) :
    ∀ held : Option Operand, (∀ operand ∈ held, Everywhere key property operand) →
      Everywhere key property incoming → Everywhere key property (Operand.over held incoming) := by
  induction incoming using document_induction with
  | document entries ih =>
    intro held before own
    unfold Operand.over
    split
    · rename_i base
      apply everywhere_merge_of_over merged _ (before _ rfl) own
      intro name inner member within fine
      exact ih name inner member within fine ((everywhere_document.mp own) name inner member).2
    · exact own
  | other incoming scalar =>
    intro held before own
    rw [over_of_not_document scalar]
    exact own

/-- A merge of documents that are fine is fine, if two documents under the key may be merged. -/
theorem everywhere_merge
    (merged : ∀ base entries : Document, property (.document base) →
      property (.document entries) → property (.document (Document.merge base entries)))
    {base : Document} {entries : List (String × Operand)}
    (before : Everywhere key property (.document base))
    (own : Everywhere key property (.document entries)) :
    Everywhere key property (.document (Document.merge base entries)) := by
  apply everywhere_merge_of_over merged _ before own
  intro name incoming member held fine
  exact everywhere_over merged incoming held fine
    ((everywhere_document.mp own) name incoming member).2

end Operand

namespace Argument

inductive Under (key : String) (held : Argument) : Argument → Prop
  | here {entries : List (String × Argument)} :
    (key, held) ∈ entries → Under key held (.object entries)
  | entry {entries : List (String × Argument)} {name : String} {inner : Argument} :
    (name, inner) ∈ entries → Under key held inner → Under key held (.object entries)
  | item {items : List Argument} {inner : Argument} :
    inner ∈ items → Under key held inner → Under key held (.list items)

variable {key : String} {held : Operand}

theorem under_of_verbatim {operand : Operand} (under : Operand.Under key held operand) :
    ∀ value : Argument, operand = value.verbatim →
      ∃ written, Under key written value ∧ held = written.verbatim := by
  induction under with
  | here member =>
    intro value equal
    cases value with
    | object entries =>
      simp only [verbatim, Operand.document.injEq, verbatimEntries_eq_map] at equal
      rw [equal] at member
      obtain ⟨⟨name, written⟩, inside, same⟩ := List.mem_map.mp member
      obtain ⟨rfl, rfl⟩ := Prod.mk.inj same
      exact ⟨written, .here inside, rfl⟩
    | _ => simp [verbatim] at equal
  | entry member _ ih =>
    intro value equal
    cases value with
    | object entries =>
      simp only [verbatim, Operand.document.injEq, verbatimEntries_eq_map] at equal
      rw [equal] at member
      obtain ⟨⟨name, inner⟩, inside, same⟩ := List.mem_map.mp member
      obtain ⟨rfl, rfl⟩ := Prod.mk.inj same
      obtain ⟨written, under, origin⟩ := ih inner rfl
      exact ⟨written, .entry inside under, origin⟩
    | _ => simp [verbatim] at equal
  | item member _ ih =>
    intro value equal
    cases value with
    | list items =>
      simp only [verbatim, Operand.array.injEq, verbatimItems_eq_map] at equal
      rw [equal] at member
      obtain ⟨inner, inside, rfl⟩ := List.mem_map.mp member
      obtain ⟨written, under, origin⟩ := ih inner rfl
      exact ⟨written, .item inside under, origin⟩
    | _ => simp [verbatim] at equal

theorem coerceText_ne_document (field text : String) (entries : List (String × Operand)) :
    coerceText field text ≠ .document entries := by
  unfold coerceText
  repeat' split
  all_goals simp

theorem coerceText_ne_array (field text : String) (items : List Operand) :
    coerceText field text ≠ .array items := by
  unfold coerceText
  repeat' split
  all_goals simp

/-- What stands under a key after coercion is what the caller wrote there, as it is written. -/
theorem under_of_coerce {field : String} {operand : Operand}
    (under : Operand.Under key held operand) :
    ∀ value : Argument, operand = value.coerce field →
      ∃ written, Under key written value ∧ held = written.verbatim := by
  have object : ∀ (value : Argument) (entries : List (String × Operand)),
      .document entries = value.coerce field → value.coerce field = value.verbatim := by
    intro value entries equal
    cases value with
    | text text => exact absurd equal.symm (coerceText_ne_document field text entries)
    | object inner => rfl
    | _ => simp [coerce] at equal
  induction under with
  | here member =>
    intro value equal
    exact under_of_verbatim (.here member) value (equal.trans (object value _ equal))
  | entry member inner _ =>
    intro value equal
    exact under_of_verbatim (.entry member inner) value (equal.trans (object value _ equal))
  | item member _ ih =>
    intro value equal
    cases value with
    | list items =>
      simp only [coerce, Operand.array.injEq, coerceItems_eq_map] at equal
      rw [equal] at member
      obtain ⟨inner, inside, rfl⟩ := List.mem_map.mp member
      obtain ⟨written, under, origin⟩ := ih inner rfl
      exact ⟨written, .item inside under, origin⟩
    | text text => exact absurd equal.symm (coerceText_ne_array field text _)
    | _ => simp [coerce] at equal

end Argument

end ListQuery
