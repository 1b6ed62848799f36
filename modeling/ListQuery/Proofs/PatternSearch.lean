import ListQuery.Proofs.PatternMeaning
import ListQuery.Text.Letters
import Mathlib.Data.List.Infix
import Mathlib.Data.List.TakeWhile

set_option autoImplicit false

/-!
What the patterns of literal texts find. The substring pattern finds the texts that hold the literal
(`finds_substring_iff`). The pattern of several words finds the texts with all of them in one line
(`finds_allWords_iff_in_one_line`), so it misses words that stand in different lines
(`words_missed_across_lines`).
-/

namespace ListQuery.Pattern

open Term

theorem read?_substring (value : List Char) :
    read? (substring value) =
      some (sequence (star inLine :: value.map literal ++ [star inLine])) := by
  rw [substring_eq, read?, readTerms_gap, readTerms_escape, readTerms_gap]
  simp [readTerms]

/-- The word, anywhere in what is left of the line. -/
def wordAhead (word : List Char) : Term := ahead (sequence (star inLine :: word.map literal))

theorem readTerms_lookahead (terms : List Term) (word rest : List Char) :
    readTerms [] terms (lookahead word ++ rest) = readTerms [] (wordAhead word :: terms) rest := by
  have ordered : ((word.map literal).reverse ++ [star inLine]).reverse =
      star inLine :: word.map literal := by simp
  rw [lookahead_eq]
  simp only [List.cons_append, List.append_assoc, List.nil_append]
  rw [readTerms_open, readTerms_gap, readTerms_escape, readTerms_close, ordered, wordAhead]

theorem readTerms_lookaheads (terms : List Term) (words : List (List Char)) :
    readTerms [] terms (words.flatMap lookahead) =
      some (sequence (terms.reverse ++ words.map wordAhead)) := by
  induction words generalizing terms with
  | nil => simp [readTerms]
  | cons word others ih =>
    rw [List.flatMap_cons, readTerms_lookahead, ih]
    simp

theorem read?_allWords (value : List Char) :
    read? (allWords value) = some (sequence ((Text.words value).map wordAhead)) :=
  readTerms_lookaheads [] (Text.words value)

section Matching

variable {fold : Char → Char} {whole rest after : List Char}

theorem leaves_gap_literals {word : List Char} :
    (sequence (star inLine :: word.map literal)).Leaves fold whole rest after ↔
      ∃ gap part, rest = gap ++ (part ++ after) ∧ '\n' ∉ gap ∧ part.map fold = word.map fold := by
  simp only [leaves_cons, leaves_star_inLine, leaves_literals]
  constructor
  · rintro ⟨middle, ⟨gap, rfl, clean⟩, part, rfl, folded⟩
    exact ⟨gap, part, rfl, clean, folded⟩
  · rintro ⟨gap, part, rfl, clean, folded⟩
    exact ⟨part ++ after, ⟨gap, rfl, clean⟩, part, rfl, folded⟩

theorem leaves_wordAhead {word : List Char} :
    (wordAhead word).Leaves fold whole rest after ↔
      after = rest ∧ ∃ gap part beyond, rest = gap ++ (part ++ beyond) ∧ '\n' ∉ gap ∧
        part.map fold = word.map fold := by
  rw [wordAhead, leaves_ahead]
  simp only [leaves_gap_literals]
  constructor
  · rintro ⟨same, beyond, gap, part, found⟩
    exact ⟨same, gap, part, beyond, found⟩
  · rintro ⟨same, gap, part, beyond, found⟩
    exact ⟨same, beyond, gap, part, found⟩

/-- Lookaheads take nothing, so all look from the same place on. -/
theorem leaves_wordAheads {words : List (List Char)} :
    (sequence (words.map wordAhead)).Leaves fold whole rest after ↔
      after = rest ∧ ∀ word ∈ words, ∃ gap part beyond, rest = gap ++ (part ++ beyond) ∧
        '\n' ∉ gap ∧ part.map fold = word.map fold := by
  induction words with
  | nil => simp [leaves_nil]
  | cons word others ih =>
    rw [List.map_cons, leaves_cons, List.forall_mem_cons]
    constructor
    · rintro ⟨middle, head, tail⟩
      obtain ⟨rfl, first⟩ := leaves_wordAhead.mp head
      obtain ⟨same, later⟩ := ih.mp tail
      exact ⟨same, first, later⟩
    · rintro ⟨same, first, later⟩
      exact ⟨rest, leaves_wordAhead.mpr ⟨rfl, first⟩, ih.mpr ⟨same, later⟩⟩

theorem finds_substring_iff_of_fold {value text : List Char} :
    Finds fold (substring value) text ↔ value.map fold <:+: text.map fold := by
  rw [finds_iff (read?_substring value), List.infix_map_iff]
  simp only [FoundIn, leaves_append, leaves_gap_literals]
  constructor
  · rintro ⟨before, rest, after, rfl, middle, ⟨gap, part, rfl, -, folded⟩, -⟩
    exact ⟨part, ⟨before ++ gap, middle, by simp⟩, folded.symm⟩
  · rintro ⟨part, ⟨before, behind, rfl⟩, folded⟩
    have nothing : (sequence [star inLine]).Leaves fold (before ++ part ++ behind) behind behind :=
      ⟨behind, leaves_star_inLine.mpr ⟨[], rfl, List.not_mem_nil⟩, rfl⟩
    exact ⟨before, part ++ behind, behind, List.append_assoc .., behind,
      ⟨[], part, rfl, List.not_mem_nil, folded.symm⟩, nothing⟩

/-- The pattern of all words matches where every word stands in what is left of the line. -/
theorem finds_allWords_iff {value text : List Char} :
    Finds fold (allWords value) text ↔
      ∃ before rest, text = before ++ rest ∧ ∀ word ∈ Text.words value, ∃ gap part beyond,
        rest = gap ++ (part ++ beyond) ∧ '\n' ∉ gap ∧ part.map fold = word.map fold := by
  rw [finds_iff (read?_allWords value)]
  simp only [FoundIn, leaves_wordAheads]
  constructor
  · rintro ⟨before, rest, after, split, rfl, ahead⟩
    exact ⟨before, after, split, ahead⟩
  · rintro ⟨before, rest, split, ahead⟩
    exact ⟨before, rest, rest, split, rfl, ahead⟩

end Matching

/-- Literal search: the substring pattern finds exactly the texts that hold the literal, whatever
characters the two are made of. -/
theorem finds_substring_iff (value text : List Char) :
    Finds id (substring value) text ↔ value <:+: text := by
  rw [finds_substring_iff_of_fold, List.map_id, List.map_id]

section Lines

variable {fold : Char → Char}

theorem newline_notMem_of_mem_words {value word : List Char} (inside : word ∈ Text.words value) :
    '\n' ∉ word := by
  intro held
  exact absurd (Text.isBlank_of_mem_words inside held) (by decide)

theorem newline_notMem_of_folded (newline : ∀ c, fold c = fold '\n' → c = '\n')
    {part word : List Char} (folded : part.map fold = word.map fold) (clean : '\n' ∉ word) :
    '\n' ∉ part := by
  intro held
  have image : fold '\n' ∈ word.map fold := folded ▸ List.mem_map_of_mem held
  obtain ⟨c, inside, same⟩ := List.mem_map.mp image
  exact clean (newline c same ▸ inside)

theorem infix_of_newline_notMem {line front back : List Char}
    (inside : line <:+: front ++ '\n' :: back) (clean : '\n' ∉ line) :
    line <:+: front ∨ line <:+: back := by
  have noStart : ∀ start : List Char, '\n' ∉ start → start <+: '\n' :: back → start = [] := by
    intro start unmarked prefixed
    cases start with
    | nil => rfl
    | cons c others =>
      obtain ⟨rfl, -⟩ := List.cons_prefix_cons.mp prefixed
      exact absurd (List.mem_cons_self ..) unmarked
  rcases List.infix_append_iff.mp inside with left | right | ⟨first, second, rfl, suffixed, prefixed⟩
  · exact Or.inl left
  · rcases List.infix_cons_iff.mp right with prefixed | later
    · rw [noStart line clean prefixed]
      exact Or.inl List.nil_infix
    · exact Or.inr later
  · have empty : second = [] := by
      apply noStart second _ prefixed
      intro held
      exact clean (List.mem_append_right _ held)
    rw [empty, List.append_nil]
    exact Or.inl suffixed.isInfix

/-- The pattern of all words finds the texts with a stretch of one line that holds every word. -/
theorem finds_allWords_iff_exists_line (newline : ∀ c, fold c = fold '\n' → c = '\n')
    {value text : List Char} :
    Finds fold (allWords value) text ↔
      ∃ line, line <:+: text ∧ '\n' ∉ line ∧
        ∀ word ∈ Text.words value, word.map fold <:+: line.map fold := by
  rw [finds_allWords_iff]
  constructor
  · rintro ⟨before, rest, rfl, ahead⟩
    refine ⟨rest.takeWhile (· ≠ '\n'), ?_, ?_, ?_⟩
    · exact List.infix_append_of_infix_right (List.takeWhile_prefix _).isInfix
    · intro held
      have other := List.mem_takeWhile_imp held
      simp at other
    · intro word inside
      obtain ⟨gap, part, beyond, rfl, clean, folded⟩ := ahead word inside
      have whole := newline_notMem_of_folded newline folded (newline_notMem_of_mem_words inside)
      have passed : ∀ c ∈ gap ++ part, decide (c ≠ '\n') = true := by
        intro c held
        simp only [decide_eq_true_eq]
        rintro rfl
        rcases List.mem_append.mp held with early | late
        · exact clean early
        · exact whole late
      rw [← List.append_assoc, List.takeWhile_append_of_pos passed, List.infix_map_iff]
      exact ⟨part, List.infix_append .., folded.symm⟩
  · rintro ⟨line, ⟨before, after, rfl⟩, clean, held⟩
    refine ⟨before, line ++ after, List.append_assoc .., ?_⟩
    intro word inside
    obtain ⟨part, ⟨gap, behind, rfl⟩, folded⟩ := List.infix_map_iff.mp (held word inside)
    refine ⟨gap, part, behind ++ after, by simp, ?_, folded.symm⟩
    intro early
    exact clean (List.mem_append_left _ (List.mem_append_left _ early))

end Lines

/-- The pattern of all words matches a text exactly if some stretch of it without newlines holds
every word, in any order and also one over the other. So what it matches holds every word; for a
text of one line, or one word at most, nothing more is asked; and the pattern of a blank text
matches every text. Characters that `fold` takes to one count as the same. -/
theorem finds_allWords_iff_in_one_line {fold : Char → Char}
    (newline : ∀ c, fold c = fold '\n' → c = '\n') (value text : List Char) :
    (Finds fold (allWords value) text ↔
      ∃ line, line <:+: text ∧ '\n' ∉ line ∧
        ∀ word ∈ Text.words value, word.map fold <:+: line.map fold) ∧
    (Finds fold (allWords value) text →
      ∀ word ∈ Text.words value, word.map fold <:+: text.map fold) ∧
    ('\n' ∉ text ∨ (Text.words value).length ≤ 1 →
      (Finds fold (allWords value) text ↔
        ∀ word ∈ Text.words value, word.map fold <:+: text.map fold)) ∧
    ((∀ c ∈ value, Text.isBlank c = true) → Finds fold (allWords value) text) := by
  have found := @finds_allWords_iff_exists_line fold newline value text
  have needed : Finds fold (allWords value) text →
      ∀ word ∈ Text.words value, word.map fold <:+: text.map fold := by
    intro matched word inside
    obtain ⟨line, stretch, -, held⟩ := found.mp matched
    exact (held word inside).trans (stretch.map fold)
  refine ⟨found, needed, ?_, ?_⟩
  · intro simple
    refine ⟨needed, fun held => found.mpr ?_⟩
    rcases simple with oneLine | oneWord
    · exact ⟨text, List.infix_rfl, oneLine, held⟩
    · cases words : Text.words value with
      | nil => exact ⟨[], List.nil_infix, List.not_mem_nil, by simp⟩
      | cons word others =>
        rw [words] at held oneWord
        obtain rfl : others = [] := by simpa using oneWord
        obtain ⟨part, stretch, folded⟩ :=
          List.infix_map_iff.mp (held word (List.mem_cons_self ..))
        have clean : '\n' ∉ word := newline_notMem_of_mem_words (words ▸ List.mem_cons_self ..)
        refine ⟨part, stretch, newline_notMem_of_folded newline folded.symm clean, ?_⟩
        rw [List.forall_mem_singleton, folded]
  · intro blank
    apply found.mpr
    rw [Text.words_of_isBlank blank]
    exact ⟨[], List.nil_infix, List.not_mem_nil, by simp⟩

theorem eq_newline_of_toLower {c : Char} (same : c.toLower = '\n'.toLower) : c = '\n' := by
  rcases Text.sameLetter_iff.mpr same with same | ⟨least, -, value⟩ | ⟨least, -, -⟩
  · exact same
  · have bound : 65 ≤ c.toNat := UInt32.le_iff_toNat_le.mp least
    change 10 = c.toNat + 32 at value
    omega
  · exact absurd least (by decide)

/-- Up to case, with a line before the one that holds both words, in one line, and for a blank. -/
theorem finds_allWords_up_to_case :
    (∀ c : Char, c.toLower = '\n'.toLower → c = '\n') ∧
    Finds Char.toLower (allWords " white Mush ".toList) "red\nmushroom, White".toList ∧
    '\n' ∉ "A".toList ∧ ¬ Finds Char.toLower (allWords "a b".toList) "A".toList ∧
    (∀ c ∈ [' ', '\t'], Text.isBlank c = true) ∧ Finds Char.toLower (allWords [' ', '\t']) [] := by
  have newline : ∀ c : Char, c.toLower = '\n'.toLower → c = '\n' := fun _ => eq_newline_of_toLower
  have blank : ∀ c ∈ [' ', '\t'], Text.isBlank c = true :=
    List.forall_mem_cons.mpr ⟨by decide, List.forall_mem_singleton.mpr (by decide)⟩
  have oneLine : '\n' ∉ "A".toList := by decide
  refine ⟨newline, ?_, oneLine, ?_, blank, ?_⟩
  · apply (finds_allWords_iff_in_one_line newline _ _).1.mpr
    exact ⟨"mushroom, White".toList, by decide, by decide, by decide⟩
  · rw [(finds_allWords_iff_in_one_line newline _ _).2.2.1 (Or.inl oneLine)]
    decide
  · exact (finds_allWords_iff_in_one_line newline _ _).2.2.2 blank

/-- Both words stand in the text, and the pattern does not match it: no line has both. -/
theorem words_missed_across_lines :
    (∀ word ∈ Text.words "white mushroom".toList, word <:+: "mushroom\nwhite".toList) ∧
    ¬ Finds id (allWords "white mushroom".toList) "mushroom\nwhite".toList := by
  refine ⟨by decide, ?_⟩
  have exact : ∀ c, id c = id '\n' → c = '\n' := fun _ same => same
  rw [finds_allWords_iff_exists_line exact]
  rintro ⟨line, stretch, clean, held⟩
  have both : ∀ word ∈ Text.words "white mushroom".toList, word <:+: line := by
    simpa only [List.map_id] using held
  have split : "mushroom\nwhite".toList = "mushroom".toList ++ '\n' :: "white".toList := by decide
  rw [split] at stretch
  rcases infix_of_newline_notMem stretch clean with first | second
  · have white := (both "white".toList (by decide)).trans first
    exact absurd white (by decide)
  · have mushroom := (both "mushroom".toList (by decide)).trans second
    exact absurd mushroom (by decide)

end ListQuery.Pattern
