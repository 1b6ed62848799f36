set_option autoImplicit false

/-!
Words of a text: the runs of characters between blanks. A blank is a character with the Unicode
property White_Space. Splitting at a blank splits the pieces (`pieces_append_blank`), and a text
without blanks is one piece (`pieces_of_solid`).
-/

namespace ListQuery.Text

/-- First and last code points of the ranges with the property White_Space. -/
def blankRanges : List (Nat × Nat) :=
  [(0x09, 0x0D), (0x20, 0x20), (0x85, 0x85), (0xA0, 0xA0), (0x1680, 0x1680), (0x2000, 0x200A),
    (0x2028, 0x2029), (0x202F, 0x202F), (0x205F, 0x205F), (0x3000, 0x3000)]

def isBlank (c : Char) : Bool :=
  blankRanges.any fun range => range.1 ≤ c.toNat && c.toNat ≤ range.2

/-- The texts between the blanks, empty ones included. -/
def pieces : List Char → List (List Char)
  | [] => [[]]
  | c :: rest =>
    if isBlank c then [] :: pieces rest
    else match pieces rest with
      | [] => [[c]]
      | first :: others => (c :: first) :: others

/-- The texts between the blanks that hold a character. -/
def words (text : List Char) : List (List Char) :=
  (pieces text).filter fun piece => !piece.isEmpty

theorem pieces_ne_nil (text : List Char) : pieces text ≠ [] := by
  cases text with
  | nil => simp [pieces]
  | cons c rest =>
    unfold pieces
    split
    · simp
    · split <;> simp

theorem pieces_cons_blank {c : Char} (blank : isBlank c = true) (rest : List Char) :
    pieces (c :: rest) = [] :: pieces rest := by
  simp [pieces, blank]

theorem pieces_append_blank {c : Char} (blank : isBlank c = true) (before after : List Char) :
    pieces (before ++ c :: after) = pieces before ++ pieces after := by
  induction before with
  | nil => simp [pieces, blank]
  | cons first rest ih =>
    by_cases here : isBlank first = true
    · simp [pieces_cons_blank here, ih]
    · cases parts : pieces rest with
      | nil => exact absurd parts (pieces_ne_nil rest)
      | cons head others => simp [pieces, here, ih, parts]

theorem pieces_of_solid {text : List Char} (solid : ∀ c ∈ text, isBlank c = false) :
    pieces text = [text] := by
  induction text with
  | nil => rfl
  | cons c rest ih =>
    have first := solid c (by simp)
    have others := ih fun d inside => solid d (by simp [inside])
    simp [pieces, first, others]

theorem words_append_blank {c : Char} (blank : isBlank c = true) (before after : List Char) :
    words (before ++ c :: after) = words before ++ words after := by
  simp [words, pieces_append_blank blank]

theorem isBlank_of_mem_pieces {text piece : List Char} {c : Char} (inside : piece ∈ pieces text)
    (held : c ∈ piece) : isBlank c = false := by
  induction text generalizing piece with
  | nil =>
    obtain rfl : piece = [] := by simpa [pieces] using inside
    cases held
  | cons first rest ih =>
    by_cases blank : isBlank first = true
    · rw [pieces_cons_blank blank] at inside
      rcases List.mem_cons.mp inside with rfl | there
      · cases held
      · exact ih there held
    · cases parts : pieces rest with
      | nil => exact absurd parts (pieces_ne_nil rest)
      | cons head others =>
        rw [parts] at ih
        simp only [pieces, blank, parts, Bool.false_eq_true, if_false, List.mem_cons] at inside
        rcases inside with rfl | there
        · rcases List.mem_cons.mp held with rfl | later
          · exact Bool.eq_false_iff.mpr blank
          · exact ih (List.mem_cons_self ..) later
        · exact ih (List.mem_cons_of_mem _ there) held

theorem isBlank_of_mem_words {text word : List Char} {c : Char} (inside : word ∈ words text)
    (held : c ∈ word) : isBlank c = false :=
  isBlank_of_mem_pieces (List.mem_filter.mp inside).1 held

theorem words_of_isBlank {text : List Char} (blank : ∀ c ∈ text, isBlank c = true) :
    words text = [] := by
  induction text with
  | nil => rfl
  | cons c rest ih =>
    have first : words ([] ++ c :: rest) = words [] ++ words rest :=
      words_append_blank (blank c (List.mem_cons_self ..)) [] rest
    have others : words rest = [] := by
      apply ih
      intro d inside
      exact blank d (List.mem_cons_of_mem _ inside)
    rw [others] at first
    exact first

end ListQuery.Text
