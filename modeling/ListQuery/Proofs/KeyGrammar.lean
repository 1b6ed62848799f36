import ListQuery.Key
import Mathlib.Data.List.Nodup

set_option autoImplicit false

/-!
How a key reads. A suffix is a mark and a word without marks, so the last mark of a key decides
which suffix it can have, and at most one operator takes a key (`Operator.eq_of_field?`). With that
the order of the table does not matter to what a key reads as (`Key.parseWith_congr`), and
`Key.parse_grammar` says what it reads as.
-/

namespace ListQuery

namespace Operator

/-- A suffix is a mark and a word without marks. -/
theorem exists_word (operator : Operator) :
    ∃ word, operator.suffix.toList = '_' :: word ∧ '_' ∉ word := by
  have marked : ∀ other ∈ all, other.suffix.toList.head? = some '_' ∧
      '_' ∉ other.suffix.toList.tail := by decide
  obtain ⟨start, unmarked⟩ := marked operator (mem_all operator)
  exact ⟨operator.suffix.toList.tail, (List.cons_head?_tail start).symm, unmarked⟩

theorem suffix_injective : Function.Injective suffix := by
  intro first second same
  have once : (all.map suffix).Nodup := by decide
  exact List.inj_on_of_nodup_map once (mem_all first) (mem_all second) same

theorem append_suffix_inj {first second : Operator} {field other : String}
    (same : field ++ first.suffix = other ++ second.suffix) : field = other ∧ first = second := by
  obtain ⟨word, ending, unmarked⟩ := exists_word first
  obtain ⟨name, suffix, clean⟩ := exists_word second
  have letters : field.toList ++ '_' :: word = other.toList ++ '_' :: name := by
    rw [← ending, ← suffix, ← String.toList_append, ← String.toList_append, same]
  -- Both words have no mark, so both divisions are at the last one.
  have left : Text.splitLast? '_' (field.toList ++ '_' :: word) = some (field.toList, word) :=
    Text.splitLast?_eq_some_iff.mpr ⟨rfl, unmarked⟩
  have right : Text.splitLast? '_' (field.toList ++ '_' :: word) = some (other.toList, name) :=
    Text.splitLast?_eq_some_iff.mpr ⟨letters, clean⟩
  obtain ⟨fields, words⟩ := Prod.mk.inj (Option.some.inj (left.symm.trans right))
  constructor
  · exact String.toList_inj.mp fields
  · apply suffix_injective
    apply String.toList_inj.mp
    rw [ending, suffix, words]

theorem eq_of_field? {first second : Operator} {key field other : String}
    (one : first.field? key = some field) (two : second.field? key = some other) :
    first = second ∧ field = other := by
  have left := (field?_eq_some_iff.mp one).1
  have right := (field?_eq_some_iff.mp two).1
  exact (append_suffix_inj (left.symm.trans right)).symm

/-- No operator takes the key: it has no mark, or nothing stands before its last mark, or the word
after that is not the name of an operator. -/
theorem field?_eq_none_iff {key : String} :
    (∀ operator : Operator, operator.field? key = none) ↔
      '_' ∉ key.toList ∨ ∃ before word, Text.splitLast? '_' key.toList = some (before, word) ∧
        (before = [] ∨ ∀ operator : Operator, operator.suffix.toList ≠ '_' :: word) := by
  have taken (operator : Operator) (field : String) :=
    @field?_eq_some_iff operator key field
  constructor
  · intro untaken
    cases split : Text.splitLast? '_' key.toList with
    | none => exact Or.inl (Text.splitLast?_eq_none_iff.mp split)
    | some parts =>
      obtain ⟨before, word⟩ := parts
      have letters := (Text.splitLast?_eq_some_iff.mp split).1
      refine Or.inr ⟨before, word, rfl, ?_⟩
      by_contra named
      simp only [not_or, not_forall, not_not] at named
      obtain ⟨present, operator, ending⟩ := named
      have whole : key = String.ofList before ++ operator.suffix := by
        apply String.toList_inj.mp
        rw [letters, String.toList_append, ending, String.toList_ofList]
      have nonempty : String.ofList before ≠ "" := by
        intro empty
        apply present
        rw [← String.toList_ofList (l := before), empty]
        rfl
      have found := (taken operator _).mpr ⟨whole, nonempty⟩
      rw [untaken operator] at found
      cases found
  · intro plain operator
    cases found : operator.field? key with
    | none => rfl
    | some field =>
      exfalso
      obtain ⟨whole, present⟩ := (taken operator field).mp found
      obtain ⟨word, ending, unmarked⟩ := exists_word operator
      have letters : key.toList = field.toList ++ '_' :: word := by
        rw [whole, String.toList_append, ending]
      have split := Text.splitLast?_eq_some_iff.mpr ⟨letters, unmarked⟩
      rcases plain with unmarkedKey | ⟨before, name, parts, missing⟩
      · rw [Text.splitLast?_eq_none_iff.mpr unmarkedKey] at split
        cases split
      · have same : (before, name) = (field.toList, word) :=
          Option.some.inj (parts.symm.trans split)
        obtain ⟨rfl, rfl⟩ := Prod.mk.inj same
        rcases missing with empty | unnamed
        · exact present (String.toList_inj.mp (by rw [empty]; rfl))
        · exact unnamed operator ending

end Operator

theorem Connective.ofWord?_eq_some_iff {word : String} {connective : Connective} :
    ofWord? word = some connective ↔
      connective = .disjunction ∧ (word = "OR" ∨ word = "or") ∨
      connective = .conjunction ∧ (word = "AND" ∨ word = "and") := by
  unfold ofWord?
  split
  · rename_i either
    rcases either with rfl | rfl <;> cases connective <;> decide
  · rename_i neither
    split
    · rename_i both
      rcases both with rfl | rfl <;> cases connective <;> decide
    · rename_i other
      simp [neither, other]

theorem Connective.ofWord?_eq_none_iff {word : String} :
    ofWord? word = none ↔ word ∉ ["OR", "or", "AND", "and"] := by
  unfold ofWord?
  by_cases either : word = "OR" ∨ word = "or"
  · rcases either with rfl | rfl <;> decide
  · by_cases both : word = "AND" ∨ word = "and"
    · rcases both with rfl | rfl <;> decide
    · rw [not_or] at either both
      simp [either, both]

theorem Connective.ofWord?_of_field? {operator : Operator} {key field : String}
    (read : operator.field? key = some field) : ofWord? key = none := by
  obtain ⟨word, ending, -⟩ := operator.exists_word
  have mark : '_' ∈ key.toList := by
    rw [(Operator.field?_eq_some_iff.mp read).1, String.toList_append, ending]
    exact List.mem_append_right _ (List.mem_cons_self ..)
  cases found : ofWord? key with
  | none => rfl
  | some connective =>
    rcases ofWord?_eq_some_iff.mp found with ⟨-, rfl | rfl⟩ | ⟨-, rfl | rfl⟩
    all_goals exact absurd mark (by decide)

namespace Key

theorem withSuffix?_eq_some_iff {key : String} {operator : Operator} {read : Key} :
    withSuffix? key operator = some read ↔
      ∃ name, operator.field? key = some name ∧ read = .field name (some operator) := by
  unfold withSuffix?
  rw [Option.map_eq_some_iff]
  simp only [eq_comm]

theorem exists_field?_of_findSome? {table : List Operator} {key : String} {read : Key}
    (found : table.findSome? (withSuffix? key) = some read) :
    ∃ operator ∈ table, ∃ name, operator.field? key = some name ∧
      read = .field name (some operator) := by
  obtain ⟨operator, inside, taken⟩ := List.exists_of_findSome?_eq_some found
  exact ⟨operator, inside, withSuffix?_eq_some_iff.mp taken⟩

theorem parseWith_eq_field_some_iff {table : List Operator} {key name : String}
    {operator : Operator} :
    parseWith table key = .field name (some operator) ↔
      operator ∈ table ∧ operator.field? key = some name := by
  unfold parseWith
  constructor
  · intro read
    split at read
    · cases read
    · cases found : table.findSome? (withSuffix? key) with
      | none => simp [found] at read
      | some first =>
        simp only [found, Option.getD_some] at read
        obtain ⟨taker, inside, field, own, equal⟩ := exists_field?_of_findSome? found
        rw [read, Key.field.injEq, Option.some.injEq] at equal
        obtain ⟨rfl, rfl⟩ := equal
        exact ⟨inside, own⟩
  · intro ⟨inside, read⟩
    rw [Connective.ofWord?_of_field? read]
    have own : withSuffix? key operator = some (.field name (some operator)) :=
      withSuffix?_eq_some_iff.mpr ⟨name, read, rfl⟩
    have some : (table.findSome? (withSuffix? key)).isSome :=
      List.findSome?_isSome_iff.mpr ⟨operator, inside, by rw [own]; rfl⟩
    obtain ⟨first, found⟩ := Option.isSome_iff_exists.mp some
    obtain ⟨taker, -, field, other, rfl⟩ := exists_field?_of_findSome? found
    obtain ⟨rfl, rfl⟩ := Operator.eq_of_field? read other
    rw [found]
    rfl

theorem parseWith_eq_field_none_iff {table : List Operator} {key name : String} :
    parseWith table key = .field name none ↔
      name = key ∧ Connective.ofWord? key = none ∧
        ∀ operator ∈ table, operator.field? key = none := by
  have untaken : table.findSome? (withSuffix? key) = none ↔
      ∀ operator ∈ table, operator.field? key = none := by
    rw [List.findSome?_eq_none_iff]
    simp only [withSuffix?, Option.map_eq_none_iff]
  unfold parseWith
  rw [← untaken]
  cases Connective.ofWord? key with
  | some connective => simp
  | none =>
    cases found : table.findSome? (withSuffix? key) with
    | none => simp [eq_comm]
    | some first =>
      obtain ⟨taker, -, field, -, rfl⟩ := exists_field?_of_findSome? found
      simp

theorem parseWith_eq_group_iff {table : List Operator} {key : String} {connective : Connective} :
    parseWith table key = .group connective ↔ Connective.ofWord? key = some connective := by
  unfold parseWith
  constructor
  · intro read
    split at read
    · rename_i found
      rw [found, Key.group.inj read]
    · cases found : table.findSome? (withSuffix? key) with
      | none => simp [found] at read
      | some first =>
        obtain ⟨taker, -, field, -, rfl⟩ := exists_field?_of_findSome? found
        simp [found] at read
  · intro found
    rw [found]

/-- How a key reads depends on which operators are in the table, not on how they stand in it. -/
theorem parseWith_congr {first second : List Operator}
    (same : ∀ operator, operator ∈ first ↔ operator ∈ second) (key : String) :
    parseWith first key = parseWith second key := by
  cases read : parseWith second key with
  | group connective =>
    exact parseWith_eq_group_iff.mpr (parseWith_eq_group_iff.mp read)
  | field name operator =>
    cases operator with
    | some operator =>
      obtain ⟨inside, own⟩ := parseWith_eq_field_some_iff.mp read
      exact parseWith_eq_field_some_iff.mpr ⟨(same operator).mpr inside, own⟩
    | none =>
      obtain ⟨whole, noWord, untaken⟩ := parseWith_eq_field_none_iff.mp read
      refine parseWith_eq_field_none_iff.mpr ⟨whole, noWord, ?_⟩
      intro operator inside
      exact untaken operator ((same operator).mp inside)

theorem parse_eq_field_some_iff {key name : String} {operator : Operator} :
    parse key = .field name (some operator) ↔ key = name ++ operator.suffix ∧ name ≠ "" := by
  unfold parse
  rw [parseWith_eq_field_some_iff, Operator.field?_eq_some_iff]
  exact and_iff_right (Operator.mem_all operator)

theorem parse_eq_field_none_iff {key name : String} :
    parse key = .field name none ↔
      name = key ∧ Connective.ofWord? key = none ∧
        ∀ operator : Operator, operator.field? key = none := by
  unfold parse
  rw [parseWith_eq_field_none_iff]
  simp only [Operator.mem_all, true_imp_iff]

theorem parse_eq_group_iff {key : String} {connective : Connective} :
    parse key = .group connective ↔ Connective.ofWord? key = some connective :=
  parseWith_eq_group_iff

/-- A key reads as a field with an operator exactly if it is the field, which is not empty, and the
suffix of the operator, and no key is that in two ways. A key that is no word of a connective
reads otherwise as a field as it stands, which is the case where it has no mark, where the word
after its last mark names no operator and where nothing stands before that mark. The suffixes may
be tried in any order. -/
theorem parse_grammar (key : String) :
    (∀ name operator, parse key = .field name (some operator) ↔
      key = name ++ operator.suffix ∧ name ≠ "") ∧
    (∀ (name other : String) (first second : Operator), key = name ++ first.suffix →
      key = other ++ second.suffix → name = other ∧ first = second) ∧
    (key ∉ ["OR", "or", "AND", "and"] →
      (parse key = .field key none ↔
        ¬ ∃ (name : String) (operator : Operator), key = name ++ operator.suffix ∧ name ≠ "") ∧
      (parse key = .field key none ↔
        '_' ∉ key.toList ∨ ∃ before word, Text.splitLast? '_' key.toList = some (before, word) ∧
          (before = [] ∨ ∀ operator : Operator, operator.suffix.toList ≠ '_' :: word))) ∧
    ∀ table : List Operator, table.Perm Operator.all → parseWith table key = parse key := by
  refine ⟨?_, ?_, ?_, ?_⟩
  · intro name operator
    exact parse_eq_field_some_iff
  · intro name other first second left right
    exact Operator.append_suffix_inj (left.symm.trans right)
  · intro noWord
    have noConnective : Connective.ofWord? key = none := by
      simp only [List.mem_cons, List.not_mem_nil, or_false, not_or] at noWord
      simp [Connective.ofWord?, noWord]
    have plain : parse key = .field key none ↔
        ∀ operator : Operator, operator.field? key = none := by
      rw [parse_eq_field_none_iff]
      simp only [noConnective, true_and]
    constructor
    · rw [plain]
      simp only [Option.eq_none_iff_forall_ne_some, ne_eq, Operator.field?_eq_some_iff, not_exists]
      exact forall_comm
    · rw [plain, Operator.field?_eq_none_iff]
  · intro table reordered
    apply parseWith_congr
    intro operator
    exact reordered.mem_iff

/-- Of two suffixes the last one counts, from whichever end the table is tried, and a suffix on its
own is a field. -/
theorem parse_grammar_of_stacked_suffixes :
    Operator.all.reverse.Perm Operator.all ∧
    parseWith Operator.all.reverse "count_in_gte" =
      .field "count_in" (some (.compare .atLeast)) ∧
    (∀ (name : String) (operator : Operator), "count_in_gte" = name ++ operator.suffix →
      name = "count_in" ∧ operator = .compare .atLeast) ∧
    "_gte" ∉ ["OR", "or", "AND", "and"] ∧ parse "_gte" = .field "_gte" none := by
  obtain ⟨read, unique, -, anyOrder⟩ := parse_grammar "count_in_gte"
  obtain ⟨-, -, plain, -⟩ := parse_grammar "_gte"
  have reordered : Operator.all.reverse.Perm Operator.all := List.reverse_perm _
  have whole : "count_in_gte" = "count_in" ++ Operator.suffix (.compare .atLeast) := by decide
  have noWord : "_gte" ∉ ["OR", "or", "AND", "and"] := by decide
  have split : Text.splitLast? '_' "_gte".toList = some ([], ['g', 't', 'e']) := by decide
  refine ⟨reordered, ?_, ?_, noWord, ?_⟩
  · rw [anyOrder _ reordered]
    exact (read "count_in" (.compare .atLeast)).mpr ⟨whole, by decide⟩
  · intro name operator given
    exact unique name "count_in" operator (.compare .atLeast) given whole
  · exact (plain noWord).2.mpr (Or.inr ⟨[], _, split, Or.inl rfl⟩)

end Key

end ListQuery
