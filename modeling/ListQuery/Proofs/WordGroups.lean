import ListQuery.Pattern
import Mathlib.Logic.Function.Defs

set_option autoImplicit false

/-!
The pattern of all words as a row of groups, each a lookahead with a literal in it. No two rows are
written alike (`Pattern.writtenGroups_injective`), because a plain character is neither a backslash
nor a closing bracket, so no word gets out of its lookahead. The literals of the one row that is
written as the pattern are the words of the text, in order (`Pattern.allWords_groups`), and the words
are what stands between the blanks (`Text.parted_iff`).
-/

namespace ListQuery

namespace Text

/-- The text is the words in their order, with blanks before, between and after them; where one word
follows another there is a blank. -/
inductive Parted : List Char → List (List Char) → Prop
  | blank {gap : List Char} : (∀ c ∈ gap, isBlank c = true) → Parted gap []
  | word {gap word rest : List Char} {words : List (List Char)} :
    (∀ c ∈ gap, isBlank c = true) → word ≠ [] → (∀ c ∈ word, isBlank c = false) →
    (∀ c ∈ rest.head?, isBlank c = true) → Parted rest words →
    Parted (gap ++ word ++ rest) (word :: words)

theorem words_blank_append {gap : List Char} (blank : ∀ c ∈ gap, isBlank c = true)
    (text : List Char) : words (gap ++ text) = words text := by
  induction gap with
  | nil => rfl
  | cons c rest ih =>
    obtain ⟨first, others⟩ := List.forall_mem_cons.mp blank
    have parted : words ([] ++ c :: (rest ++ text)) = words [] ++ words (rest ++ text) :=
      words_append_blank first [] (rest ++ text)
    rw [List.cons_append]
    exact parted.trans (ih others)

/-- A gap between two texts parts their words. -/
theorem words_append_gap {gap : List Char} (present : gap ≠ [])
    (blank : ∀ c ∈ gap, isBlank c = true) (before after : List Char) :
    words (before ++ gap ++ after) = words before ++ words after := by
  obtain ⟨c, rest, rfl⟩ := List.exists_cons_of_ne_nil present
  obtain ⟨first, others⟩ := List.forall_mem_cons.mp blank
  rw [List.append_assoc, List.cons_append, words_append_blank first, words_blank_append others]

theorem words_of_solid {word : List Char} (present : word ≠ [])
    (solid : ∀ c ∈ word, isBlank c = false) : words word = [word] := by
  simp [words, pieces_of_solid solid, present]

theorem words_of_parted {text : List Char} {found : List (List Char)}
    (parted : Parted text found) : words text = found := by
  induction parted with
  | blank gap => exact words_of_isBlank gap
  | @word gap word rest others blank present solid bounded _ ih =>
    rw [List.append_assoc, words_blank_append blank]
    cases rest with
    | nil => rw [List.append_nil, words_of_solid present solid, ← ih]; rfl
    | cons c after =>
      have here : isBlank c = true := bounded c rfl
      have gone : words (c :: after) = words after :=
        words_blank_append (List.forall_mem_singleton.mpr here) after
      rw [words_append_blank here, words_of_solid present solid, ← gone, ih, List.singleton_append]

theorem Parted.cons_blank {c : Char} (here : isBlank c = true) {text : List Char}
    {found : List (List Char)} (parted : Parted text found) : Parted (c :: text) found := by
  cases parted with
  | blank gap => exact .blank (List.forall_mem_cons.mpr ⟨here, gap⟩)
  | @word gap word rest others blank present solid bounded later =>
    have longer : ∀ d ∈ c :: gap, isBlank d = true := List.forall_mem_cons.mpr ⟨here, blank⟩
    exact @Parted.word (c :: gap) word rest others longer present solid bounded later

/-- Another character starts a word, or goes to the one at the start of a text. -/
theorem Parted.cons_solid {c : Char} (here : isBlank c = false) {text : List Char}
    {found : List (List Char)} (parted : Parted text found) :
    ∃ others, Parted (c :: text) others := by
  have alone : ∀ d ∈ [c], isBlank d = false := List.forall_mem_singleton.mpr here
  have noGap : ∀ d ∈ [], isBlank d = true := List.forall_mem_nil _
  -- Before a blank or the end the character is a word of its own.
  have start {rest : List Char} {words : List (List Char)}
      (bounded : ∀ d ∈ rest.head?, isBlank d = true) (later : Parted rest words) :
      ∃ others, Parted (c :: rest) others :=
    ⟨_, @Parted.word [] [c] rest words noGap (List.cons_ne_nil c []) alone bounded later⟩
  cases parted with
  | blank gap => exact start (fun d first => gap d (List.mem_of_mem_head? first)) (.blank gap)
  | @word gap word rest words blank present solid bounded later =>
    cases gap with
    | nil =>
      have longer : ∀ d ∈ c :: word, isBlank d = false := List.forall_mem_cons.mpr ⟨here, solid⟩
      exact ⟨_, @Parted.word [] (c :: word) rest words noGap (List.cons_ne_nil c word) longer
        bounded later⟩
    | cons b gap =>
      apply start _ (.word blank present solid bounded later)
      rintro d ⟨⟩
      exact blank b (List.mem_cons_self ..)

theorem exists_parted (text : List Char) : ∃ found, Parted text found := by
  induction text with
  | nil => exact ⟨[], .blank (List.forall_mem_nil _)⟩
  | cons c rest ih =>
    obtain ⟨found, parted⟩ := ih
    cases here : isBlank c with
    | true => exact ⟨found, parted.cons_blank here⟩
    | false => exact parted.cons_solid here

theorem parted_iff {text : List Char} {found : List (List Char)} :
    Parted text found ↔ found = words text := by
  constructor
  · intro parted
    exact (words_of_parted parted).symm
  · rintro rfl
    obtain ⟨found, parted⟩ := exists_parted text
    rwa [words_of_parted parted]

end Text

namespace Pattern

/-- A character of a literal, as it is written. -/
inductive Mark where
  | escaped (c : Char)
  | plain (c : Char) (ordinary : c ∉ metacharacters)

namespace Mark

def char : Mark → Char
  | escaped c => c
  | plain c _ => c

def written : Mark → List Char
  | escaped c => ['\\', c]
  | plain c _ => [c]

/-- Metacharacters are escaped and no others. -/
def ofChar (c : Char) : Mark :=
  if special : c ∈ metacharacters then escaped c else plain c special

theorem char_ofChar (c : Char) : (ofChar c).char = c := by
  unfold ofChar
  split <;> rfl

theorem written_append_inj {first second : Mark} {rest other : List Char}
    (same : first.written ++ rest = second.written ++ other) : first = second ∧ rest = other := by
  have backslash : '\\' ∈ metacharacters := by decide
  cases first with
  | escaped c =>
    cases second with
    | escaped d => simpa [written] using same
    | plain d ordinary =>
      obtain ⟨rfl, -⟩ := List.cons.inj same
      exact absurd backslash ordinary
  | plain c ordinary =>
    cases second with
    | escaped d =>
      obtain ⟨rfl, -⟩ := List.cons.inj same
      exact absurd backslash ordinary
    | plain d _ => simpa [written] using same

theorem written_append_ne_close (mark : Mark) (rest other : List Char) :
    mark.written ++ rest ≠ ')' :: other := by
  have bracket : ')' ∈ metacharacters := by decide
  intro same
  cases mark with
  | escaped c => cases same
  | plain c ordinary =>
    obtain ⟨rfl, -⟩ := List.cons.inj same
    exact ordinary bracket

end Mark

/-- A lookahead for a literal, anywhere in what is left of the line. -/
def writtenGroup (literal : List Mark) : List Char :=
  '(' :: '?' :: '=' :: '.' :: '*' :: (literal.flatMap Mark.written ++ [')'])

def writtenGroups (literals : List (List Mark)) : List Char := literals.flatMap writtenGroup

/-- A literal goes as far as the first closing bracket that is not escaped. -/
theorem written_literal_inj {first second : List Mark} {rest other : List Char}
    (same : first.flatMap Mark.written ++ ')' :: rest =
      second.flatMap Mark.written ++ ')' :: other) : first = second ∧ rest = other := by
  induction first generalizing second with
  | nil =>
    cases second with
    | nil => exact ⟨rfl, (List.cons.inj same).2⟩
    | cons mark marks =>
      rw [List.flatMap_cons, List.append_assoc] at same
      exact absurd same.symm (mark.written_append_ne_close _ _)
  | cons mark marks ih =>
    rw [List.flatMap_cons, List.append_assoc] at same
    cases second with
    | nil => exact absurd same (mark.written_append_ne_close _ _)
    | cons another others =>
      rw [List.flatMap_cons, List.append_assoc] at same
      obtain ⟨rfl, later⟩ := Mark.written_append_inj same
      obtain ⟨rfl, remaining⟩ := ih later
      exact ⟨rfl, remaining⟩

theorem writtenGroup_append (literal : List Mark) (rest : List Char) :
    writtenGroup literal ++ rest =
      ['(', '?', '=', '.', '*'] ++ (literal.flatMap Mark.written ++ ')' :: rest) := by
  simp only [writtenGroup, List.cons_append, List.append_assoc, List.nil_append]

theorem writtenGroup_append_ne_nil (literal : List Mark) (rest : List Char) :
    writtenGroup literal ++ rest ≠ [] := by
  simp [writtenGroup]

theorem writtenGroups_injective : Function.Injective writtenGroups := by
  intro first second same
  induction first generalizing second with
  | nil =>
    cases second with
    | nil => rfl
    | cons literal others => exact absurd same.symm (writtenGroup_append_ne_nil literal _)
  | cons literal literals ih =>
    cases second with
    | nil => exact absurd same (writtenGroup_append_ne_nil literal _)
    | cons another others =>
      change writtenGroup literal ++ writtenGroups literals =
        writtenGroup another ++ writtenGroups others at same
      rw [writtenGroup_append, writtenGroup_append] at same
      obtain ⟨rfl, later⟩ := written_literal_inj (List.append_cancel_left same)
      rw [ih later]

theorem flatMap_written_ofChar (word : List Char) :
    (word.map Mark.ofChar).flatMap Mark.written = escape word := by
  induction word with
  | nil => rfl
  | cons c rest ih =>
    rw [List.map_cons, List.flatMap_cons, ih, escape, Mark.ofChar]
    split <;> rfl

theorem writtenGroups_ofChar (words : List (List Char)) :
    writtenGroups (words.map (·.map Mark.ofChar)) = words.flatMap lookahead := by
  have group (word : List Char) : writtenGroup (word.map Mark.ofChar) = lookahead word := by
    rw [writtenGroup, flatMap_written_ofChar, lookahead_eq]
  rw [writtenGroups, List.flatMap_map]
  simp only [group]

theorem map_char_ofChar (words : List (List Char)) :
    (words.map (·.map Mark.ofChar)).map (·.map Mark.char) = words := by
  simp [Function.comp_def, Mark.char_ofChar]

theorem allWords_inj {first second : List Char} :
    allWords first = allWords second ↔ Text.words first = Text.words second := by
  constructor
  · intro same
    have rows := writtenGroups_injective
      ((writtenGroups_ofChar _).trans (same.trans (writtenGroups_ofChar _).symm))
    rw [← map_char_ofChar (Text.words first), rows, map_char_ofChar]
  · intro same
    rw [allWords, allWords, same]

/-- The pattern of all words is one row of groups and no other, and the literals of the row are the
words of the text in order, which stand between its blanks. So patterns are equal exactly if the
words are, and a gap between two texts parts their patterns. -/
theorem allWords_groups (text : List Char) :
    (∃ literals, writtenGroups literals = allWords text ∧
      Text.Parted text (literals.map (·.map Mark.char)) ∧
      ∀ others, writtenGroups others = allWords text → others = literals) ∧
    (∀ words, Text.Parted text words ↔ words = Text.words text) ∧
    (∀ other, allWords text = allWords other ↔ Text.words text = Text.words other) ∧
    ∀ gap other, gap ≠ [] → (∀ c ∈ gap, Text.isBlank c = true) →
      allWords (text ++ gap ++ other) = allWords text ++ allWords other := by
  have row := writtenGroups_ofChar (Text.words text)
  refine ⟨⟨_, row, ?_, ?_⟩, fun _ => Text.parted_iff, fun _ => allWords_inj, ?_⟩
  · rw [map_char_ofChar, Text.parted_iff]
  · intro others same
    exact writtenGroups_injective (same.trans row.symm)
  · intro gap other present blank
    rw [allWords, Text.words_append_gap present blank, List.flatMap_append]
    rfl

/-- Words that look like the end of a lookahead and the start of another. -/
theorem allWords_groups_of_brackets :
    ['\u3000', ' '] ≠ [] ∧ (∀ c ∈ ['\u3000', ' '], Text.isBlank c = true) ∧
    allWords ("a)(?=.*b\\".toList ++ ['\u3000', ' '] ++ ")".toList) =
      "(?=.*a\\)\\(\\?=\\.\\*b\\\\)(?=.*\\))".toList ∧
    ∃ literals, writtenGroups literals = allWords "a)(?=.*b\\".toList ∧
      literals.map (·.map Mark.char) = ["a)(?=.*b\\".toList] := by
  have blank : ∀ c ∈ ['\u3000', ' '], Text.isBlank c = true :=
    List.forall_mem_cons.mpr ⟨by decide, List.forall_mem_singleton.mpr (by decide)⟩
  obtain ⟨⟨literals, row, parted, -⟩, words, -, parts⟩ := allWords_groups "a)(?=.*b\\".toList
  refine ⟨by simp, blank, ?_, literals, row, ?_⟩
  · rw [parts _ ")".toList (by simp) blank]
    decide
  · rw [(words _).mp parted]
    decide

end Pattern

end ListQuery
