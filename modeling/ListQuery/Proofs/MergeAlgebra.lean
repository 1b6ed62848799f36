import ListQuery.Proofs.Outline
import ListQuery.Proofs.Overlay

set_option autoImplicit false

/-!
The algebra of merges. The empty document changes nothing on either side, and neither does a second
merge of one document. Merges may be regrouped exactly where what the middle document cuts off from
the last one is in the last one anyway (`Document.merge_assoc_iff`), and so wherever it cuts off
nothing.
-/

namespace ListQuery

/-- What holds of a document if it holds of the documents at its keys holds of all. -/
theorem Document.nested_induction {motive : Document → Prop}
    (step : ∀ document : Document,
      (∀ key inner, (key, Operand.document inner) ∈ document → motive inner) → motive document)
    (document : Document) : motive document := by
  have each : ∀ operand : Operand, ∀ inner : Document, operand = .document inner →
      motive inner := by
    intro operand
    induction operand using Operand.document_induction with
    | document entries ih =>
      intro inner same
      obtain rfl := Operand.document.inj same
      apply step
      intro key below inside
      exact ih key (.document below) inside below rfl
    | other operand scalar =>
      intro inner same
      rw [same] at scalar
      cases scalar
  exact each (.document document) document rfl

theorem Document.merge_eq_self {base : Document} {incoming : List (String × Operand)}
    (each : ∀ key operand, (key, operand) ∈ incoming →
      ∃ held, Mapping.get? base key = some held ∧ Operand.over (some held) operand = held) :
    merge base incoming = base := by
  induction incoming with
  | nil => rfl
  | cons entry rest ih =>
    obtain ⟨key, operand⟩ := entry
    obtain ⟨held, found, same⟩ := each key operand (List.mem_cons_self ..)
    rw [merge_cons, Mapping.alter_eq_self found same]
    apply ih
    intro name other inside
    exact each name other (List.mem_cons_of_mem _ inside)

namespace Operand

theorem over_some_of_not_document {held : Operand} (scalar : held.isDocument = false)
    (incoming : Operand) : Operand.over (some held) incoming = incoming := by
  cases held with
  | document entries => cases scalar
  | _ => cases incoming <;> rfl

theorem over_over_self {incoming : Operand} (fine : incoming.WellFormed) :
    ∀ held : Option Operand,
      Operand.over (some (Operand.over held incoming)) incoming = Operand.over held incoming := by
  induction incoming using document_induction with
  | document written ih =>
    intro held
    have distinct : Mapping.Distinct written := Document.WellFormed.distinct fine
    rw [over_document distinct held, over_document distinct]
    apply congrArg document
    apply Document.merge_eq_self
    intro key operand inside
    have found : Mapping.get? written key = some operand := Mapping.get?_of_mem distinct inside
    refine ⟨Operand.over (Mapping.get? (entries held) key) operand, ?_, ?_⟩
    · show Mapping.get? (Document.merge (entries held) written) key = _
      rw [Document.get?_merge distinct, found]
    · exact ih key operand inside (Document.WellFormed.operand fine inside) _
  | other incoming scalar =>
    intro held
    rw [over_of_not_document scalar, over_of_not_document scalar]

theorem entries_eq_nil_or (held : Option Operand) :
    entries held = [] ∨ ∃ outer, held = some (.document outer) := by
  rcases held with _ | held
  · exact Or.inl rfl
  · cases held with
    | document outer => exact Or.inr ⟨outer, rfl⟩
    | _ => exact Or.inl rfl

/-- A write and a document after it may be grouped either way exactly if, of a document written, the
merges may be, and if else the entries held add nothing to the document. -/
theorem over_over_iff {operand : Operand} (fine : operand.WellFormed) {inner : Document}
    (distinct : Mapping.Distinct inner) (held : Option Operand) :
    Operand.over (some (Operand.over held operand)) (.document inner) =
        Operand.over held (Operand.over (some operand) (.document inner)) ↔
      (operand.isDocument = false → Document.merge (entries held) inner = inner) ∧
      ∀ between, operand = .document between →
        Document.merge (Document.merge (entries held) between) inner =
          Document.merge (entries held) (Document.merge between inner) := by
  cases shape : operand.isDocument with
  | false =>
    have noDocument : ∀ between, operand ≠ .document between := by
      rintro between rfl
      cases shape
    rw [over_of_not_document shape, over_some_of_not_document shape, over_document distinct,
      document.injEq]
    simp [noDocument, eq_comm]
  | true =>
    obtain ⟨between, rfl⟩ := exists_entries_of_isDocument shape
    have own : Mapping.Distinct between := Document.WellFormed.distinct fine
    have joined : Operand.over (some (document between)) (.document inner) =
        .document (Document.merge between inner) := rfl
    rw [joined, over_document own, over_document distinct,
      over_document (Document.distinct_merge own inner)]
    simp [entries]

end Operand

namespace Document

variable {first middle last : Document}

theorem merge_merge_self {incoming : Document} (fine : incoming.WellFormed) (base : Document) :
    merge (merge base incoming) incoming = merge base incoming :=
  Operand.document.inj (Operand.over_over_self fine (some (.document base)))

theorem merge_self {document : Document} (fine : document.WellFormed) :
    merge document document = document := by
  have twice := merge_merge_self fine []
  rwa [merge_nil_left fine.distinct] at twice

/-- At some path the document in the middle holds what is no document, and those on both sides hold
documents. -/
def Severs (middle first last : Document) : Prop :=
  ∃ path outer operand inner, (Operand.document first).at? path = some (.document outer) ∧
    (Operand.document middle).at? path = some operand ∧ operand.isDocument = false ∧
    (Operand.document last).at? path = some (.document inner)

/-- Wherever the document in the middle severs the other two, what the first one holds there adds
nothing to what the last one holds. -/
def Regroups (first middle last : Document) : Prop :=
  ∀ path outer operand inner, (Operand.document first).at? path = some (.document outer) →
    (Operand.document middle).at? path = some operand → operand.isDocument = false →
    (Operand.document last).at? path = some (.document inner) → merge outer inner = inner

theorem regroups_of_not_severs (whole : ¬ middle.Severs first last) :
    Regroups first middle last := by
  intro path outer operand inner left between scalar right
  exact absurd ⟨path, outer, operand, inner, left, between, scalar, right⟩ whole

theorem WellFormed.entries_get? {document : Document} (fine : document.WellFormed)
    (key : String) : WellFormed (Operand.entries (Mapping.get? document key)) := by
  rcases Operand.entries_eq_nil_or (Mapping.get? document key) with empty | ⟨outer, held⟩
  · rw [empty]
    exact wellFormed_nil
  · rw [held]
    exact fine.get? held

theorem regroups_nil (middle last : Document) : Regroups [] middle last := by
  intro path outer operand inner left between scalar right
  cases path with
  | nil =>
    obtain rfl := Option.some.inj between
    cases scalar
  | cons key path => cases left

/-- Whether merges may be regrouped is settled key by key. -/
theorem regroups_iff (fine : last.WellFormed) :
    Regroups first middle last ↔
      ∀ key operand inner, Mapping.get? middle key = some operand →
        Mapping.get? last key = some (.document inner) →
        (operand.isDocument = false →
          merge (Operand.entries (Mapping.get? first key)) inner = inner) ∧
        ∀ between, operand = .document between →
          Regroups (Operand.entries (Mapping.get? first key)) between inner := by
  constructor
  · intro all key operand inner inside right
    have distinct : Mapping.Distinct inner := Document.WellFormed.distinct (fine.get? right)
    rcases Operand.entries_eq_nil_or (Mapping.get? first key) with empty | ⟨outer, left⟩
    · rw [empty]
      exact ⟨fun _ => merge_nil_left distinct, fun between _ => regroups_nil between inner⟩
    · rw [left]
      constructor
      · intro scalar
        exact all [key] outer operand inner (Operand.at?_cons_of_get? left [])
          (Operand.at?_cons_of_get? inside []) scalar (Operand.at?_cons_of_get? right [])
      · rintro between rfl path deep held low down within scalar up
        exact all (key :: path) deep held low ((Operand.at?_cons_of_get? left path).trans down)
          ((Operand.at?_cons_of_get? inside path).trans within) scalar
          ((Operand.at?_cons_of_get? right path).trans up)
  · intro each path outer operand inner left between scalar right
    cases path with
    | nil =>
      obtain rfl := Option.some.inj between
      cases scalar
    | cons key path =>
      obtain ⟨start, found, left⟩ := Operand.exists_get?_of_at?_cons left
      obtain ⟨held, inside, between⟩ := Operand.exists_get?_of_at?_cons between
      obtain ⟨finish, taken, right⟩ := Operand.exists_get?_of_at?_cons right
      obtain ⟨above, rfl⟩ := Operand.exists_entries_of_at? left
      obtain ⟨below, rfl⟩ := Operand.exists_entries_of_at? right
      have rooted : Operand.entries (Mapping.get? first key) = above :=
        congrArg Operand.entries found
      obtain ⟨cut, whole⟩ := each key held below inside taken
      rw [rooted] at cut whole
      cases shape : held.isDocument with
      | true =>
        obtain ⟨document, rfl⟩ := Operand.exists_entries_of_isDocument shape
        exact whole document rfl path outer operand inner left between scalar right
      | false =>
        obtain rfl := Operand.eq_nil_of_at? shape between
        obtain rfl := Operand.document.inj (Option.some.inj left)
        obtain rfl := Operand.document.inj (Option.some.inj right)
        exact cut shape

theorem keys_merge_assoc (first : Document) (two : Mapping.Distinct middle)
    (three : Mapping.Distinct last) :
    Mapping.keys (merge (merge first middle) last) =
      Mapping.keys (merge first (merge middle last)) := by
  rw [keys_merge _ three, keys_merge _ two, keys_merge _ (distinct_merge two last),
    keys_merge _ three, List.filter_append, List.append_assoc, List.filter_filter]
  have fresh : ∀ key ∈ Mapping.keys last,
      decide (key ∉ Mapping.keys first ++ (Mapping.keys middle).filter (· ∉ Mapping.keys first)) =
        (decide (key ∉ Mapping.keys first) && decide (key ∉ Mapping.keys middle)) := by
    intro key _
    by_cases held : key ∈ Mapping.keys first
    · simp [held]
    · simp [held]
  rw [List.filter_congr fresh]

theorem merge_assoc_iff_over (one : Mapping.Distinct first) (two : Mapping.Distinct middle)
    (three : Mapping.Distinct last) :
    merge (merge first middle) last = merge first (merge middle last) ↔
      ∀ key operand incoming, Mapping.get? middle key = some operand →
        Mapping.get? last key = some incoming →
        Operand.over (some (Operand.over (Mapping.get? first key) operand)) incoming =
          Operand.over (Mapping.get? first key) (Operand.over (some operand) incoming) := by
  have reads : ∀ key, Mapping.get? (merge (merge first middle) last) key =
      Mapping.get? (merge first (merge middle last)) key ↔
      ∀ operand incoming, Mapping.get? middle key = some operand →
        Mapping.get? last key = some incoming →
        Operand.over (some (Operand.over (Mapping.get? first key) operand)) incoming =
          Operand.over (Mapping.get? first key) (Operand.over (some operand) incoming) := by
    intro key
    rw [get?_merge three, get?_merge two, get?_merge (distinct_merge two last), get?_merge three]
    cases Mapping.get? middle key <;> cases Mapping.get? last key <;>
      simp [Operand.over_none]
  constructor
  · intro same key
    exact (reads key).mp (by rw [same])
  · intro each
    apply Mapping.eq_of_get? (distinct_merge (distinct_merge one middle) last)
    · exact keys_merge_assoc first two three
    · intro key
      exact (reads key).mpr (each key)

/-- Merges of well-formed documents may be grouped either way exactly if, wherever the middle one
severs the other two, what the first holds adds nothing to what the last holds. -/
theorem merge_assoc_iff (one : first.WellFormed) (two : middle.WellFormed)
    (three : last.WellFormed) :
    merge (merge first middle) last = merge first (merge middle last) ↔
      Regroups first middle last := by
  induction last using nested_induction generalizing first middle with
  | step last ih =>
    rw [merge_assoc_iff_over one.distinct two.distinct three.distinct, regroups_iff three]
    have below : ∀ key between inner, Mapping.get? middle key = some (.document between) →
        Mapping.get? last key = some (.document inner) →
        (merge (merge (Operand.entries (Mapping.get? first key)) between) inner =
            merge (Operand.entries (Mapping.get? first key)) (merge between inner) ↔
          Regroups (Operand.entries (Mapping.get? first key)) between inner) := by
      intro key between inner inside right
      exact ih key inner (Mapping.mem_of_get? right) (one.entries_get? key) (two.get? inside)
        (three.get? right)
    constructor
    · intro each key operand inner inside right
      have distinct : Mapping.Distinct inner := Document.WellFormed.distinct (three.get? right)
      obtain ⟨cut, whole⟩ := (Operand.over_over_iff (two.get? inside) distinct _).mp
        (each key operand (.document inner) inside right)
      refine ⟨cut, ?_⟩
      rintro between rfl
      exact (below key between inner inside right).mp (whole between rfl)
    · intro all key operand incoming inside right
      cases shape : incoming.isDocument with
      | false =>
        rw [Operand.over_of_not_document shape, Operand.over_of_not_document shape,
          Operand.over_of_not_document shape]
      | true =>
        obtain ⟨inner, rfl⟩ := Operand.exists_entries_of_isDocument shape
        have distinct : Mapping.Distinct inner := Document.WellFormed.distinct (three.get? right)
        obtain ⟨cut, whole⟩ := all key operand inner inside right
        refine (Operand.over_over_iff (two.get? inside) distinct _).mpr ⟨cut, ?_⟩
        rintro between rfl
        exact (below key between inner inside right).mpr (whole between rfl)

/-- The laws of merges of well-formed documents. The empty document is neutral on both sides; a
document merged into itself or merged again changes nothing, nor does the exclusion of deleted
records; and merges may be grouped either way if the document in the middle severs nothing, and
else only if what is held where it does adds nothing. -/
theorem merge_laws (one : first.WellFormed) (two : middle.WellFormed) (three : last.WellFormed) :
    (merge [] first = first ∧ merge first [] = first) ∧
    merge first first = first ∧
    merge (merge first middle) middle = merge first middle ∧
    merge (merge first liveClause) liveClause = merge first liveClause ∧
    (¬ middle.Severs first last →
      merge (merge first middle) last = merge first (merge middle last)) ∧
    (merge (merge first middle) last = merge first (merge middle last) ↔
      Regroups first middle last) := by
  have exact : merge (merge first middle) last = merge first (merge middle last) ↔
      Regroups first middle last := merge_assoc_iff one two three
  refine ⟨⟨merge_nil_left one.distinct, merge_nil first⟩, merge_self one,
    merge_merge_self two first, merge_merge_self wellFormed_liveClause first, ?_, exact⟩
  intro whole
  exact exact.mpr (regroups_of_not_severs whole)

/-- Bounds of one field may be grouped either way around an equality of another. -/
theorem merge_laws_of_bounds :
    WellFormed [("age", .document [("$gte", .int 18)])] ∧
    WellFormed [("name", .text "a"), ("age", .document [("$lt", .int 65)])] ∧
    WellFormed [("name", .document []), ("age", .document [("$gte", .int 21)])] ∧
    ¬ Severs [("name", .text "a"), ("age", .document [("$lt", .int 65)])]
      [("age", .document [("$gte", .int 18)])]
      [("name", .document []), ("age", .document [("$gte", .int 21)])] ∧
    merge (merge [("age", .document [("$gte", .int 18)])]
        [("name", .text "a"), ("age", .document [("$lt", .int 65)])])
        [("name", .document []), ("age", .document [("$gte", .int 21)])] =
      merge [("age", .document [("$gte", .int 18)])]
        (merge [("name", .text "a"), ("age", .document [("$lt", .int 65)])]
          [("name", .document []), ("age", .document [("$gte", .int 21)])]) := by
  have one : WellFormed [("age", .document [("$gte", .int 18)])] := by decide
  have two : WellFormed [("name", .text "a"), ("age", .document [("$lt", .int 65)])] := by decide
  have three : WellFormed [("name", .document []), ("age", .document [("$gte", .int 21)])] := by
    decide
  have whole : ¬ Severs [("name", .text "a"), ("age", .document [("$lt", .int 65)])]
      [("age", .document [("$gte", .int 18)])]
      [("name", .document []), ("age", .document [("$gte", .int 21)])] := by
    rintro ⟨path, outer, operand, inner, left, between, scalar, -⟩
    -- The first document has one document below it, at `age`, and none below that.
    rcases path with _ | ⟨key, path⟩
    · obtain rfl := Option.some.inj between
      cases scalar
    · obtain ⟨held, found, below⟩ := Operand.exists_get?_of_at?_cons left
      obtain ⟨rfl, rfl⟩ := Prod.mk.inj (List.mem_singleton.mp (Mapping.mem_of_get? found))
      rcases path with _ | ⟨name, path⟩
      · obtain rfl := Option.some.inj between
        cases scalar
      · obtain ⟨bound, inside, further⟩ := Operand.exists_get?_of_at?_cons below
        obtain ⟨-, rfl⟩ := Prod.mk.inj (List.mem_singleton.mp (Mapping.mem_of_get? inside))
        obtain ⟨entries, impossible⟩ := Operand.exists_entries_of_at? further
        cases impossible
  exact ⟨one, two, three, whole, (merge_laws one two three).2.2.2.2.1 whole⟩

/-- What an equality cuts off is lost if it is merged before the rest, and else kept. -/
example :
    merge (merge [("age", .document [("$gte", .int 18)])] [("age", .int 30)])
        [("age", .document [("$lt", .int 65)])] = [("age", .document [("$lt", .int 65)])] ∧
    merge [("age", .document [("$gte", .int 18)])]
        (merge [("age", .int 30)] [("age", .document [("$lt", .int 65)])]) =
      [("age", .document [("$gte", .int 18), ("$lt", .int 65)])] := ⟨rfl, rfl⟩

end Document

end ListQuery
