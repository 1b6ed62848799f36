import ListQuery.Proofs.DistinctKeys

set_option autoImplicit false

/-!
Merges without the order of writes. A merge writes the incoming entries one after the other, each
over what the writes before it left; the overlay of two documents says at once what is held at each
key, at every depth. Where each key stands once the two are equal (`Document.merge_pointwise`).
-/

namespace ListQuery

namespace Mapping

variable {α : Type}

/-- The entries at keys that the base does not have. -/
def missingFrom (base entries : Mapping α) : Mapping α :=
  entries.filter fun entry => entry.1 ∉ keys base

theorem keys_missingFrom (base entries : Mapping α) :
    keys (missingFrom base entries) = (keys entries).filter (· ∉ keys base) := by
  simp only [missingFrom, keys, List.filter_map]
  rfl

theorem get?_missingFrom {base : Mapping α} {key : String} (absent : key ∉ keys base)
    (entries : Mapping α) : get? (missingFrom base entries) key = get? entries key := by
  induction entries with
  | nil => rfl
  | cons entry rest ih =>
    obtain ⟨name, held⟩ := entry
    unfold missingFrom at ih ⊢
    rw [List.filter_cons, get?_cons]
    by_cases same : name = key
    · simp [get?_cons, same, absent]
    · rw [if_neg same, ← ih]
      split
      · rw [get?_cons, if_neg same]
      · rfl

end Mapping

mutual

/-- What is held where an operand comes over another one: of two documents the overlay, and
otherwise the operand that comes. -/
def Operand.overlay : Operand → Operand → Operand
  | .document base, .document incoming =>
    .document (Document.overlayHeld base incoming ++ Mapping.missingFrom base incoming)
  | _, incoming => incoming

/-- The entries of the base, each with what comes at its key over what is held there. -/
def Document.overlayHeld : List (String × Operand) → Document → Document
  | [], _ => []
  | (key, held) :: rest, incoming =>
    (key, match Mapping.get? incoming key with
      | some operand => held.overlay operand
      | none => held) :: Document.overlayHeld rest incoming

end

namespace Document

/-- The keys of the base in their order, then those of the incoming document that the base does not
have, in theirs. -/
def overlay (base incoming : Document) : Document :=
  overlayHeld base incoming ++ Mapping.missingFrom base incoming

variable {base incoming : Document}

theorem keys_overlayHeld (base incoming : Document) :
    Mapping.keys (overlayHeld base incoming) = Mapping.keys base := by
  induction base with
  | nil => rfl
  | cons entry rest ih =>
    obtain ⟨key, held⟩ := entry
    rw [overlayHeld, Mapping.keys_cons, ih, Mapping.keys_cons]

theorem keys_overlay (base incoming : Document) :
    Mapping.keys (overlay base incoming) =
      Mapping.keys base ++ (Mapping.keys incoming).filter (· ∉ Mapping.keys base) := by
  rw [overlay, Mapping.keys_append, keys_overlayHeld, Mapping.keys_missingFrom]

theorem get?_overlayHeld (base incoming : Document) (key : String) :
    Mapping.get? (overlayHeld base incoming) key =
      (Mapping.get? base key).map fun held =>
        match Mapping.get? incoming key with
        | some operand => held.overlay operand
        | none => held := by
  induction base with
  | nil => rfl
  | cons entry rest ih =>
    obtain ⟨name, held⟩ := entry
    rw [overlayHeld, Mapping.get?_cons, Mapping.get?_cons, ih]
    by_cases same : name = key
    · simp [same]
    · simp [same]

theorem get?_overlay (base incoming : Document) (key : String) :
    Mapping.get? (overlay base incoming) key =
      match Mapping.get? base key, Mapping.get? incoming key with
      | some held, some operand => some (held.overlay operand)
      | some held, none => some held
      | none, operand => operand := by
  rw [overlay, Mapping.get?_append, get?_overlayHeld]
  cases held : Mapping.get? base key with
  | none =>
    have absent : key ∉ Mapping.keys base := (Mapping.get?_eq_none_iff base key).mp held
    rw [Mapping.get?_missingFrom absent]
    rfl
  | some operand => cases Mapping.get? incoming key <;> rfl

theorem keys_merge (base : Document) (distinct : Mapping.Distinct incoming) :
    Mapping.keys (merge base incoming) =
      Mapping.keys base ++ (Mapping.keys incoming).filter (· ∉ Mapping.keys base) := by
  -- Each write may add a key to the base, so the induction is for every base.
  induction incoming generalizing base with
  | nil => simp
  | cons entry rest ih =>
    obtain ⟨key, operand⟩ := entry
    obtain ⟨fresh, later⟩ := List.nodup_cons.mp distinct
    rw [merge_cons, ih _ later, Mapping.keys_alter, Mapping.keys_cons]
    by_cases present : key ∈ Mapping.keys base
    · simp [present]
    · have apart : ∀ name ∈ Mapping.keys rest, name ≠ key := by
        intro name inside same
        exact fresh (same ▸ inside)
      have rests : (Mapping.keys rest).filter (· ∉ Mapping.keys base ++ [key]) =
          (Mapping.keys rest).filter (· ∉ Mapping.keys base) := by
        apply List.filter_congr
        intro name inside
        simp [apart name inside]
      rw [if_neg present, rests, List.filter_cons_of_pos (by simpa using present),
        List.append_assoc]
      rfl

theorem merge_eq_overlay_of_over (first : Mapping.Distinct base)
    (second : Mapping.Distinct incoming)
    (each : ∀ key held operand, Mapping.get? base key = some held →
      Mapping.get? incoming key = some operand →
      Operand.over (some held) operand = held.overlay operand) :
    merge base incoming = overlay base incoming := by
  apply Mapping.eq_of_get? (distinct_merge first incoming)
  · rw [keys_merge base second, keys_overlay]
  · intro key
    rw [get?_merge second, get?_overlay]
    cases right : Mapping.get? incoming key with
    | none => cases Mapping.get? base key <;> rfl
    | some operand =>
      cases left : Mapping.get? base key with
      | none => simp only [Operand.over_none]
      | some held => simp only [each key held operand left right]

end Document

/-- A write over an operand leaves the overlay of the two. -/
theorem Operand.over_eq_overlay {incoming : Operand} (fine : incoming.WellFormed) :
    ∀ held : Operand, held.WellFormed →
      Operand.over (some held) incoming = held.overlay incoming := by
  induction incoming using document_induction with
  | document entries ih =>
    intro held before
    cases held with
    | document base =>
      have merged : Document.merge base entries = Document.overlay base entries := by
        apply Document.merge_eq_overlay_of_over (Document.WellFormed.distinct before)
          (Document.WellFormed.distinct fine)
        intro key inner operand left right
        have below : operand.WellFormed := Document.WellFormed.get? fine right
        exact ih key operand (Mapping.mem_of_get? right) below inner
          (Document.WellFormed.get? before left)
      exact congrArg Operand.document merged
    | _ => rfl
  | other incoming scalar =>
    intro held _
    rw [over_of_not_document scalar]
    cases incoming with
    | document entries => cases scalar
    | _ => cases held <;> rfl

/-- A merge of documents that hold each key once at every depth is their overlay: the keys of the
base in order, then the new ones in order, and at each key the merge of two documents, else what
comes, else what is held. -/
theorem Document.merge_pointwise {base incoming : Document} (before : base.WellFormed)
    (fine : incoming.WellFormed) :
    merge base incoming = overlay base incoming ∧
    Mapping.keys (merge base incoming) =
      Mapping.keys base ++ (Mapping.keys incoming).filter (· ∉ Mapping.keys base) ∧
    ∀ key, Mapping.get? (merge base incoming) key =
      match Mapping.get? base key, Mapping.get? incoming key with
      | some (.document inner), some (.document written) => some (.document (merge inner written))
      | _, some operand => some operand
      | held, none => held := by
  refine ⟨?_, keys_merge base fine.distinct, ?_⟩
  · exact Operand.document.inj (Operand.over_eq_overlay fine (.document base) before)
  · intro key
    rw [get?_merge fine.distinct]
    rcases Mapping.get? base key with _ | held
    · rcases Mapping.get? incoming key with _ | operand
      · rfl
      · exact congrArg some (Operand.over_none operand)
    · rcases Mapping.get? incoming key with _ | operand
      · cases held <;> rfl
      · cases held <;> cases operand <;> rfl

/-- Bounds merge, and a list, a text and a document against a text are replaced, in their places. -/
theorem Document.merge_pointwise_of_bounds :
    WellFormed [("age", .document [("$gte", .int 18), ("$in", .array [.int 20, .int 30])]),
      ("name", .text "a"), ("open", .document [("$ne", .null)])] ∧
    WellFormed [("kind", .int 1), ("name", .document [("$ne", .text "b")]), ("open", .bool true),
      ("age", .document [("$lt", .int 65), ("$in", .array [.int 40])])] ∧
    merge [("age", .document [("$gte", .int 18), ("$in", .array [.int 20, .int 30])]),
        ("name", .text "a"), ("open", .document [("$ne", .null)])]
      [("kind", .int 1), ("name", .document [("$ne", .text "b")]), ("open", .bool true),
        ("age", .document [("$lt", .int 65), ("$in", .array [.int 40])])] =
      [("age", .document [("$gte", .int 18), ("$in", .array [.int 40]), ("$lt", .int 65)]),
        ("name", .document [("$ne", .text "b")]), ("open", .bool true), ("kind", .int 1)] := by
  have before : WellFormed
      [("age", .document [("$gte", .int 18), ("$in", .array [.int 20, .int 30])]),
        ("name", .text "a"), ("open", .document [("$ne", .null)])] := by decide
  have fine : WellFormed [("kind", .int 1), ("name", .document [("$ne", .text "b")]),
      ("open", .bool true), ("age", .document [("$lt", .int 65), ("$in", .array [.int 40])])] := by
    decide
  refine ⟨before, fine, ?_⟩
  rw [(merge_pointwise before fine).1]
  rfl

end ListQuery
