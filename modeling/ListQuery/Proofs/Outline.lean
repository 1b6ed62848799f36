import ListQuery.Proofs.DistinctKeys

set_option autoImplicit false

/-!
Documents along paths of keys. The outline of an operand says at each path what is held there, but
not in which order keys stand. A merge of documents without a conflict has the outlines of both
(`Document.outline_merge`), and what any merge has depends on the outline of its base alone
(`Operand.outline_over_congr`).
-/

namespace ListQuery

namespace Operand

/-- What is held at the end of a path of keys through documents. -/
def at? (operand : Operand) : List String → Option Operand
  | [] => some operand
  | key :: path => (Mapping.get? (entries (some operand)) key).bind fun inner => inner.at? path

/-- A document without its entries, and anything else as it is. -/
def hollow : Operand → Operand
  | .document _ => .document []
  | operand => operand

/-- What is held at the end of a path, but for what is in a document there. -/
def outline (operand : Operand) (path : List String) : Option Operand :=
  (operand.at? path).map hollow

theorem at?_cons (operand : Operand) (key : String) (path : List String) :
    operand.at? (key :: path) =
      (Mapping.get? (entries (some operand)) key).bind fun inner => inner.at? path := rfl

theorem at?_cons_of_get? {document : Document} {key : String} {operand : Operand}
    (found : Mapping.get? document key = some operand) (path : List String) :
    (Operand.document document).at? (key :: path) = operand.at? path := by
  rw [at?_cons, entries, found, Option.bind_some]

theorem exists_get?_of_at?_cons {document : Document} {key : String} {path : List String}
    {held : Operand} (found : (Operand.document document).at? (key :: path) = some held) :
    ∃ inner, Mapping.get? document key = some inner ∧ inner.at? path = some held :=
  Option.bind_eq_some_iff.mp found

theorem exists_entries_of_at? {operand : Operand} {path : List String} {inner : Document}
    (found : operand.at? path = some (.document inner)) :
    ∃ entries, operand = .document entries := by
  cases path with
  | nil => exact ⟨inner, Option.some.inj found⟩
  | cons key path =>
    cases operand with
    | document entries => exact ⟨entries, rfl⟩
    | _ => cases found

theorem eq_nil_of_at? {operand held : Operand} {path : List String}
    (scalar : operand.isDocument = false) (found : operand.at? path = some held) : path = [] := by
  cases path with
  | nil => rfl
  | cons key path =>
    cases operand with
    | document entries => cases scalar
    | _ => cases found

@[simp] theorem outline_nil (operand : Operand) : operand.outline [] = some operand.hollow := rfl

theorem outline_cons (operand : Operand) (key : String) (path : List String) :
    operand.outline (key :: path) =
      (Mapping.get? (entries (some operand)) key).bind fun inner => inner.outline path := by
  rw [outline, at?_cons, Option.map_bind]
  rfl

theorem bind_outline_cons (held : Option Operand) (key : String) (path : List String) :
    (held.bind fun operand => operand.outline (key :: path)) =
      (Mapping.get? (entries held) key).bind fun inner => inner.outline path := by
  cases held with
  | none => rfl
  | some operand => exact outline_cons operand key path

theorem isDocument_hollow (operand : Operand) : operand.hollow.isDocument = operand.isDocument := by
  cases operand <;> rfl

theorem hollow_of_not_document {operand : Operand} (scalar : operand.isDocument = false) :
    operand.hollow = operand := by
  cases operand with
  | document entries => cases scalar
  | _ => rfl

theorem hollow_of_isDocument {operand : Operand} (shape : operand.isDocument = true) :
    operand.hollow = .document [] := by
  cases operand with
  | document entries => rfl
  | _ => cases shape

theorem exists_entries_of_isDocument {operand : Operand} (shape : operand.isDocument = true) :
    ∃ entries, operand = .document entries := by
  cases operand with
  | document entries => exact ⟨entries, rfl⟩
  | _ => cases shape

theorem hollow_over (held : Option Operand) (incoming : Operand) :
    (Operand.over held incoming).hollow = incoming.hollow := by
  cases shape : incoming.isDocument with
  | false => rw [over_of_not_document shape]
  | true =>
    rw [hollow_of_isDocument shape, hollow_of_isDocument]
    rw [isDocument_over, shape]

theorem outline_over_congr {incoming : Operand} (fine : incoming.WellFormed)
    {first second : Option Operand}
    (same : ∀ path, (first.bind fun held => held.outline path) =
      second.bind fun held => held.outline path) (path : List String) :
    (Operand.over first incoming).outline path = (Operand.over second incoming).outline path := by
  induction path generalizing incoming first second with
  | nil => rw [outline_nil, outline_nil, hollow_over, hollow_over]
  | cons key path ih =>
    cases shape : incoming.isDocument with
    | false => rw [over_of_not_document shape, over_of_not_document shape]
    | true =>
      obtain ⟨written, rfl⟩ := exists_entries_of_isDocument shape
      have below : ∀ path,
          ((Mapping.get? (entries first) key).bind fun inner => inner.outline path) =
            (Mapping.get? (entries second) key).bind fun inner => inner.outline path := by
        intro path
        rw [← bind_outline_cons, ← bind_outline_cons, same]
      rw [outline_cons, outline_cons, get?_entries_over (Document.WellFormed.distinct fine),
        get?_entries_over (Document.WellFormed.distinct fine)]
      cases found : Mapping.get? written key with
      | none => exact below path
      | some inner => exact ih (Document.WellFormed.get? fine found) below

end Operand

namespace Document

/-- At some path both documents hold something, and not both hold a document. -/
def Conflicts (first second : Document) : Prop :=
  ∃ path one two, (Operand.document first).at? path = some one ∧
    (Operand.document second).at? path = some two ∧
    (one.isDocument = false ∨ two.isDocument = false)

theorem Conflicts.symm {first second : Document} (conflict : first.Conflicts second) :
    second.Conflicts first := by
  obtain ⟨path, one, two, left, right, scalar⟩ := conflict
  exact ⟨path, two, one, right, left, scalar.symm⟩

/-- Without a conflict, what both documents hold at a key is two documents without a conflict. -/
theorem not_conflicts_iff {first second : Document} :
    ¬ first.Conflicts second ↔
      ∀ key one two, Mapping.get? first key = some one → Mapping.get? second key = some two →
        ∃ inner other : Document,
          one = .document inner ∧ two = .document other ∧ ¬ inner.Conflicts other := by
  constructor
  · intro apart key one two left right
    have shapes : one.isDocument = true ∧ two.isDocument = true := by
      by_contra scalar
      apply apart
      refine ⟨[key], one, two, Operand.at?_cons_of_get? left [],
        Operand.at?_cons_of_get? right [], ?_⟩
      simpa only [not_and_or, Bool.not_eq_true] using scalar
    obtain ⟨inner, rfl⟩ := Operand.exists_entries_of_isDocument shapes.1
    obtain ⟨other, rfl⟩ := Operand.exists_entries_of_isDocument shapes.2
    refine ⟨inner, other, rfl, rfl, ?_⟩
    rintro ⟨path, deeper, below, start, finish, scalar⟩
    exact apart ⟨key :: path, deeper, below, (Operand.at?_cons_of_get? left path).trans start,
      (Operand.at?_cons_of_get? right path).trans finish, scalar⟩
  · rintro each ⟨path, one, two, left, right, scalar⟩
    cases path with
    | nil =>
      obtain rfl := Option.some.inj left
      obtain rfl := Option.some.inj right
      rcases scalar with impossible | impossible <;> cases impossible
    | cons key path =>
      obtain ⟨start, found, left⟩ := Operand.exists_get?_of_at?_cons left
      obtain ⟨finish, held, right⟩ := Operand.exists_get?_of_at?_cons right
      obtain ⟨inner, other, rfl, rfl, apart⟩ := each key start finish found held
      exact apart ⟨path, one, two, left, right, scalar⟩

theorem not_conflicts_nil (document : Document) : ¬ Conflicts [] document := by
  rw [not_conflicts_iff]
  intro key one two impossible
  cases impossible

theorem not_conflicts_single_of_ne {first second : String} (different : first ≠ second)
    (one two : Operand) : ¬ Conflicts [(first, one)] [(second, two)] := by
  rw [not_conflicts_iff]
  intro key left right found held
  obtain ⟨rfl, -⟩ := Prod.mk.inj (List.mem_singleton.mp (Mapping.mem_of_get? found))
  obtain ⟨rfl, -⟩ := Prod.mk.inj (List.mem_singleton.mp (Mapping.mem_of_get? held))
  exact absurd rfl different

theorem not_conflicts_single {inner other : Document} (apart : ¬ inner.Conflicts other)
    (key : String) : ¬ Conflicts [(key, .document inner)] [(key, .document other)] := by
  rw [not_conflicts_iff]
  intro name left right found held
  obtain ⟨-, rfl⟩ := Prod.mk.inj (List.mem_singleton.mp (Mapping.mem_of_get? found))
  obtain ⟨-, rfl⟩ := Prod.mk.inj (List.mem_singleton.mp (Mapping.mem_of_get? held))
  exact ⟨inner, other, rfl, rfl, apart⟩

/-- Without a conflict, a merge has at each path what either document has there. -/
theorem outline_merge {base entries : Document} (fine : entries.WellFormed)
    (apart : ¬ base.Conflicts entries) (path : List String) (held : Operand) :
    (Operand.document (merge base entries)).outline path = some held ↔
      (Operand.document base).outline path = some held ∨
      (Operand.document entries).outline path = some held := by
  induction path generalizing base entries with
  | nil =>
    show some (Operand.document []) = some held ↔ _ ∨ some (Operand.document []) = some held
    exact (or_iff_right_of_imp id).symm
  | cons key path ih =>
    simp only [Operand.outline_cons, Operand.entries, get?_merge fine.distinct]
    cases right : Mapping.get? entries key with
    | none => simp
    | some incoming =>
      cases left : Mapping.get? base key with
      | none => simp [Operand.over_none]
      | some operand =>
        obtain ⟨inner, written, rfl, rfl, below⟩ :=
          not_conflicts_iff.mp apart key operand incoming left right
        exact ih (fine.get? right) below

theorem conflicts_of_merge {base entries other : Document} (fine : entries.WellFormed)
    (apart : ¬ base.Conflicts entries) (conflict : (merge base entries).Conflicts other) :
    base.Conflicts other ∨ entries.Conflicts other := by
  obtain ⟨path, one, two, left, right, scalar⟩ := conflict
  have split : ∀ document : Document,
      (Operand.document document).outline path = some one.hollow → document.Conflicts other := by
    intro document same
    obtain ⟨operand, found, equal⟩ := Option.map_eq_some_iff.mp same
    refine ⟨path, operand, two, found, right, ?_⟩
    rwa [← Operand.isDocument_hollow operand, equal, Operand.isDocument_hollow]
  have whole : (Operand.document (merge base entries)).outline path = some one.hollow := by
    rw [Operand.outline, left, Option.map_some]
  rcases (outline_merge fine apart path _).mp whole with here | there
  · exact Or.inl (split base here)
  · exact Or.inr (split entries there)

/-- Clauses without conflicts, merged one after the other, have the outlines of all of them. -/
theorem outline_merge_clauses {read : List (String × Operand)} {base : Document}
    (fine : ∀ clause ∈ read, clause.2.WellFormed)
    (apart : ∀ clause ∈ read, ¬ base.Conflicts [clause])
    (pairwise : read.Pairwise fun one two => ¬ Conflicts [one] [two])
    (path : List String) (held : Operand) :
    (Operand.document (merge base read)).outline path = some held ↔
      (Operand.document base).outline path = some held ∨
      ∃ clause ∈ read, (Operand.document [clause]).outline path = some held := by
  induction read generalizing base with
  | nil => simp
  | cons clause rest ih =>
    obtain ⟨others, later⟩ := List.pairwise_cons.mp pairwise
    have single : WellFormed [clause] := wellFormed_single (fine clause (List.mem_cons_self ..))
    have first := apart clause (List.mem_cons_self ..)
    have step : merge base (clause :: rest) = merge (merge base [clause]) rest :=
      merge_append base [clause] rest
    rw [step, ih, outline_merge single first]
    · simp only [List.mem_cons, exists_eq_or_imp, or_assoc]
    · intro other inside
      exact fine other (List.mem_cons_of_mem _ inside)
    · intro other inside conflict
      rcases conflicts_of_merge single first conflict with before | own
      · exact apart other (List.mem_cons_of_mem _ inside) before
      · exact others other inside own
    · exact later

end Document

end ListQuery
