import ListQuery.Identifier
import ListQuery.Mapping
import ListQuery.Number.Binary64

set_option autoImplicit false

/-!
Predicate documents, the language of the store: a mapping from fields and operators to operands.
Documents merge key by key at every depth, and the keys of the first keep their places
(`keys_prefix_merge`).
-/

namespace ListQuery

/-- What a predicate holds against a field or an operator. -/
inductive Operand where
  | null
  | bool (value : Bool)
  | int (value : Int64)
  | float (value : Binary64)
  | text (value : String)
  | reference (id : Identifier)
  | array (items : List Operand)
  | document (entries : List (String × Operand))

abbrev Document : Type := Mapping Operand

/-- The entries of a document; anything else, and nothing, has none. -/
def Operand.entries : Option Operand → Document
  | some (.document entries) => entries
  | _ => []

mutual

/-- What a write leaves in place of the operand held: a document merges into a document, and
anything else is replaced. -/
def Operand.over (held : Option Operand) : Operand → Operand
  | .document incoming =>
    match held with
    | some (.document base) => .document (Document.merge base incoming)
    | _ => .document incoming
  | incoming => incoming

/-- Writes the entries over the document one after the other. -/
def Document.merge (base : Document) : List (String × Operand) → Document
  | [] => base
  | (key, incoming) :: rest =>
    Document.merge (Mapping.alter (fun held => Operand.over held incoming) key base) rest

end

theorem Operand.over_none (incoming : Operand) : Operand.over none incoming = incoming := by
  cases incoming <;> rfl

namespace Document

def single (key : String) (operand : Operand) : Document := [(key, operand)]

@[simp] theorem merge_nil (base : Document) : merge base [] = base := rfl

theorem merge_cons (base : Document) (key : String) (incoming : Operand)
    (rest : List (String × Operand)) :
    merge base ((key, incoming) :: rest) =
      merge (Mapping.alter (fun held => Operand.over held incoming) key base) rest := rfl

theorem merge_append (base : Document) (first second : List (String × Operand)) :
    merge base (first ++ second) = merge (merge base first) second := by
  induction first generalizing base with
  | nil => rfl
  | cons entry rest ih =>
    obtain ⟨key, incoming⟩ := entry
    rw [List.cons_append, merge_cons, ih, merge_cons]

theorem keys_prefix_merge (base : Document) (entries : List (String × Operand)) :
    Mapping.keys base <+: Mapping.keys (merge base entries) := by
  induction entries generalizing base with
  | nil => exact List.prefix_refl _
  | cons entry rest ih =>
    obtain ⟨key, incoming⟩ := entry
    rw [merge_cons]
    refine List.IsPrefix.trans ?_ (ih _)
    rw [Mapping.keys_alter]
    split
    · exact List.prefix_refl _
    · exact List.prefix_append _ _

theorem distinct_merge {base : Document} (distinct : Mapping.Distinct base)
    (entries : List (String × Operand)) : Mapping.Distinct (merge base entries) := by
  induction entries generalizing base with
  | nil => exact distinct
  | cons entry rest ih =>
    obtain ⟨key, incoming⟩ := entry
    exact ih (Mapping.distinct_alter distinct _ key)

theorem get?_merge {entries : Document} (distinct : Mapping.Distinct entries) (base : Document)
    (key : String) :
    Mapping.get? (merge base entries) key =
      match Mapping.get? entries key with
      | some incoming => some (Operand.over (Mapping.get? base key) incoming)
      | none => Mapping.get? base key := by
  induction entries generalizing base with
  | nil => rfl
  | cons entry rest ih =>
    obtain ⟨name, incoming⟩ := entry
    have fresh : name ∉ Mapping.keys rest := (List.nodup_cons.mp distinct).1
    rw [merge_cons, ih (List.nodup_cons.mp distinct).2, Mapping.get?_cons, Mapping.get?_alter]
    by_cases same : name = key
    · subst same
      simp only [(Mapping.get?_eq_none_iff rest name).mpr fresh, if_true]
    · simp only [same, if_false]

theorem merge_eq_append {base entries : Document}
    (distinct : Mapping.Distinct (base ++ entries)) : merge base entries = base ++ entries := by
  -- The base takes up the entries one by one, so the induction is for every base.
  induction entries generalizing base with
  | nil => rw [merge_nil, List.append_nil]
  | cons entry rest ih =>
    obtain ⟨key, incoming⟩ := entry
    have fresh : key ∉ Mapping.keys base := Mapping.notMem_keys_of_distinct distinct
    have regrouped : base ++ (key, incoming) :: rest = (base ++ [(key, incoming)]) ++ rest :=
      List.append_cons ..
    rw [regrouped] at distinct
    rw [merge_cons, Mapping.alter_of_notMem _ fresh, Operand.over_none, ih distinct, regrouped]

theorem merge_nil_left {document : Document} (distinct : Mapping.Distinct document) :
    merge [] document = document :=
  merge_eq_append distinct

end Document

theorem Operand.over_document {incoming : Document} (distinct : Mapping.Distinct incoming)
    (held : Option Operand) :
    Operand.over held (.document incoming) =
      .document (Document.merge (Operand.entries held) incoming) := by
  have fresh := Document.merge_nil_left distinct
  rcases held with _ | held
  · exact congrArg Operand.document fresh.symm
  · cases held with
    | document base => rfl
    | _ => exact congrArg Operand.document fresh.symm

end ListQuery
