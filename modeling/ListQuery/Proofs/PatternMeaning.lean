import ListQuery.Pattern
import Mathlib.Logic.Relation

set_option autoImplicit false

/-!
What patterns mean to a search. A pattern reads as a sequence of terms (`Pattern.read?`), and a term
matches what is left of a text from some place on (`Term.Leaves`); the search may start anywhere
(`Pattern.Finds`). An escaped text reads as its own characters (`readTerms_escape`), and a sequence
of literals takes that text and no other (`Term.leaves_literals`).
-/

namespace ListQuery.Pattern

/-- What a pattern asks of a text at a place. -/
inductive Term where
  | empty
  | literal (c : Char)
  /-- A character that is no newline. -/
  | inLine
  /-- A character of one of the ranges, ends included. -/
  | within (ranges : List (Char × Char))
  /-- The start of the text. -/
  | start
  /-- The end of the text; no newline may be left. -/
  | finish
  | seq (first second : Term)
  /-- Any number of times, none included. -/
  | star (inner : Term)
  /-- What follows matches, and nothing of it is taken. -/
  | ahead (inner : Term)
  deriving DecidableEq, Repr

namespace Term

def sequence (terms : List Term) : Term := terms.foldr seq empty

def times (count : Nat) (inner : Term) : Term := sequence (List.replicate count inner)

end Term

open Term

mutual

/-- Reads the rest of a pattern. Given are the terms before each lookahead that is still open, the
innermost first, and those since the last opening, the last one first. Metacharacters in any other
use are refused. -/
def readTerms (opened : List (List Term)) (terms : List Term) : List Char → Option Term
  | [] => if opened.isEmpty then some (sequence terms.reverse) else none
  | '\\' :: c :: rest => readTerms opened (.literal c :: terms) rest
  | '.' :: rest => readTerms opened (.inLine :: terms) rest
  | '^' :: rest => readTerms opened (.start :: terms) rest
  | '$' :: rest => readTerms opened (.finish :: terms) rest
  | '*' :: rest =>
    match terms with
    | last :: earlier => readTerms opened (.star last :: earlier) rest
    | [] => none
  | '\x7b' :: rest =>
    match terms with
    | last :: earlier => readCount opened earlier last 0 rest
    | [] => none
  | '[' :: rest => readRanges opened terms [] rest
  | '(' :: '?' :: '=' :: rest => readTerms (terms :: opened) [] rest
  | ')' :: rest =>
    match opened with
    | outer :: others => readTerms others (.ahead (sequence terms.reverse) :: outer) rest
    | [] => none
  | c :: rest => if c ∈ metacharacters then none else readTerms opened (.literal c :: terms) rest

/-- Reads on inside the braces after a term, with the count so far. -/
def readCount (opened : List (List Term)) (terms : List Term) (last : Term) (count : Nat) :
    List Char → Option Term
  | '\x7d' :: rest => readTerms opened (times count last :: terms) rest
  | c :: rest =>
    if c.isDigit then readCount opened terms last (10 * count + (c.toNat - 48)) rest else none
  | [] => none

/-- Reads on inside the brackets of a class, with the ranges so far, the last one first. -/
def readRanges (opened : List (List Term)) (terms : List Term) (ranges : List (Char × Char)) :
    List Char → Option Term
  | ']' :: rest => readTerms opened (.within ranges.reverse :: terms) rest
  | low :: '-' :: high :: rest => readRanges opened terms ((low, high) :: ranges) rest
  | _ => none

end

def read? (pattern : List Char) : Option Term := readTerms [] [] pattern

/-- The term can take the text from `rest` up to `after`. Characters that `fold` takes to one are
the same to it, and `whole` is the text that is searched. -/
def Term.Leaves (fold : Char → Char) (whole : List Char) : Term → List Char → List Char → Prop
  | .empty, rest, after => after = rest
  | .literal c, rest, after => ∃ d, rest = d :: after ∧ fold d = fold c
  | .inLine, rest, after => ∃ d, rest = d :: after ∧ d ≠ '\n'
  | .within ranges, rest, after =>
    ∃ d e, rest = d :: after ∧ fold d = fold e ∧ ∃ range ∈ ranges, range.1 ≤ e ∧ e ≤ range.2
  | .start, rest, after => after = rest ∧ rest = whole
  | .finish, rest, after => after = rest ∧ rest = []
  | .seq first second, rest, after =>
    ∃ middle, first.Leaves fold whole rest middle ∧ second.Leaves fold whole middle after
  | .star inner, rest, after => Relation.ReflTransGen (inner.Leaves fold whole) rest after
  | .ahead inner, rest, after => after = rest ∧ ∃ beyond, inner.Leaves fold whole rest beyond

def Term.FoundIn (fold : Char → Char) (term : Term) (text : List Char) : Prop :=
  ∃ before rest after, text = before ++ rest ∧ term.Leaves fold text rest after

/-- The pattern can be read and matches somewhere in the text. -/
def Finds (fold : Char → Char) (pattern text : List Char) : Prop :=
  ∃ term, read? pattern = some term ∧ term.FoundIn fold text

theorem finds_iff {fold : Char → Char} {pattern text : List Char} {term : Term}
    (read : read? pattern = some term) : Finds fold pattern text ↔ term.FoundIn fold text := by
  unfold Finds
  constructor
  · rintro ⟨other, same, found⟩
    rw [read, Option.some.injEq] at same
    exact same ▸ found
  · intro found
    exact ⟨term, read, found⟩

section Reading

variable (opened : List (List Term)) (terms : List Term)

theorem readTerms_escaped (c : Char) (rest : List Char) :
    readTerms opened terms ('\\' :: c :: rest) = readTerms opened (.literal c :: terms) rest := rfl

theorem readTerms_gap (rest : List Char) :
    readTerms opened terms ('.' :: '*' :: rest) = readTerms opened (.star .inLine :: terms) rest :=
  rfl

theorem readTerms_open (rest : List Char) :
    readTerms opened terms ('(' :: '?' :: '=' :: rest) = readTerms (terms :: opened) [] rest := rfl

theorem readTerms_close (outer : List Term) (rest : List Char) :
    readTerms (outer :: opened) terms (')' :: rest) =
      readTerms opened (.ahead (sequence terms.reverse) :: outer) rest := rfl

theorem readTerms_plain {c : Char} (plain : c ∉ metacharacters) (rest : List Char) :
    readTerms opened terms (c :: rest) = readTerms opened (.literal c :: terms) rest := by
  rw [readTerms.eq_def]
  split
  all_goals simp_all [metacharacters]

theorem readTerms_escape (text rest : List Char) :
    readTerms opened terms (escape text ++ rest) =
      readTerms opened ((text.map literal).reverse ++ terms) rest := by
  -- Each character adds to the terms, so the induction is for any terms before.
  induction text generalizing terms with
  | nil => rfl
  | cons c others ih =>
    have moved : (literal c :: others.map literal).reverse ++ terms =
        (others.map literal).reverse ++ literal c :: terms := by
      rw [List.reverse_cons, List.append_assoc]
      rfl
    rw [List.map_cons, moved, ← ih]
    by_cases special : c ∈ metacharacters
    · rw [escape, if_pos special]
      exact readTerms_escaped opened terms c _
    · rw [escape, if_neg special]
      exact readTerms_plain opened terms special _

end Reading

namespace Term

variable {fold : Char → Char} {whole rest after : List Char}

theorem leaves_nil : (sequence []).Leaves fold whole rest after ↔ after = rest := Iff.rfl

theorem leaves_cons {first : Term} {others : List Term} :
    (sequence (first :: others)).Leaves fold whole rest after ↔
      ∃ middle, first.Leaves fold whole rest middle ∧
        (sequence others).Leaves fold whole middle after := Iff.rfl

theorem leaves_ahead {inner : Term} :
    (ahead inner).Leaves fold whole rest after ↔
      after = rest ∧ ∃ beyond, inner.Leaves fold whole rest beyond := Iff.rfl

theorem leaves_append {first second : List Term} :
    (sequence (first ++ second)).Leaves fold whole rest after ↔
      ∃ middle, (sequence first).Leaves fold whole rest middle ∧
        (sequence second).Leaves fold whole middle after := by
  induction first generalizing rest with
  | nil => simp [leaves_nil]
  | cons term others ih =>
    simp only [List.cons_append, leaves_cons, ih]
    constructor
    · rintro ⟨here, head, middle, tail, last⟩
      exact ⟨middle, ⟨here, head, tail⟩, last⟩
    · rintro ⟨middle, ⟨here, head, tail⟩, last⟩
      exact ⟨here, head, middle, tail, last⟩

theorem leaves_literals {word : List Char} :
    (sequence (word.map literal)).Leaves fold whole rest after ↔
      ∃ part, rest = part ++ after ∧ part.map fold = word.map fold := by
  induction word generalizing rest with
  | nil => simp [leaves_nil, eq_comm]
  | cons c others ih =>
    simp only [List.map_cons, leaves_cons, ih]
    constructor
    · rintro ⟨middle, ⟨d, rfl, same⟩, part, rfl, folded⟩
      exact ⟨d :: part, rfl, by rw [List.map_cons, same, folded]⟩
    · rintro ⟨part, rfl, folded⟩
      cases part with
      | nil => cases folded
      | cons d part =>
        obtain ⟨same, folded⟩ := List.cons.inj folded
        exact ⟨part ++ after, ⟨d, rfl, same⟩, part, rfl, folded⟩

theorem leaves_star_inLine :
    (star inLine).Leaves fold whole rest after ↔ ∃ gap, rest = gap ++ after ∧ '\n' ∉ gap := by
  constructor
  · intro steps
    change Relation.ReflTransGen _ rest after at steps
    induction steps using Relation.ReflTransGen.head_induction_on with
    | refl => exact ⟨[], rfl, List.not_mem_nil⟩
    | head step _ ih =>
      obtain ⟨d, rfl, inside⟩ := step
      obtain ⟨gap, rfl, clean⟩ := ih
      refine ⟨d :: gap, rfl, ?_⟩
      simp only [List.mem_cons, not_or]
      exact ⟨inside.symm, clean⟩
  · rintro ⟨gap, rfl, clean⟩
    induction gap with
    | nil => exact .refl
    | cons d gap ih =>
      simp only [List.mem_cons, not_or] at clean
      exact .head ⟨d, rfl, Ne.symm clean.1⟩ (ih clean.2)

theorem leaves_times_within {ranges : List (Char × Char)} {count : Nat} :
    (times count (within ranges)).Leaves fold whole rest after ↔
      ∃ part, rest = part ++ after ∧ part.length = count ∧
        ∀ c ∈ part, ∃ d, fold c = fold d ∧ ∃ range ∈ ranges, range.1 ≤ d ∧ d ≤ range.2 := by
  unfold times
  induction count generalizing rest with
  | zero =>
    constructor
    · rintro rfl
      exact ⟨[], rfl, rfl, by simp⟩
    · rintro ⟨part, rfl, empty, -⟩
      rw [List.length_eq_zero_iff.mp empty]
      rfl
  | succ count ih =>
    rw [List.replicate_succ, leaves_cons]
    simp only [ih]
    constructor
    · rintro ⟨middle, ⟨c, d, rfl, first⟩, part, rfl, length, others⟩
      refine ⟨c :: part, rfl, by rw [List.length_cons, length], ?_⟩
      exact List.forall_mem_cons.mpr ⟨⟨d, first⟩, others⟩
    · rintro ⟨part, rfl, length, all⟩
      cases part with
      | nil => cases length
      | cons c part =>
        obtain ⟨⟨d, first⟩, others⟩ := List.forall_mem_cons.mp all
        exact ⟨part ++ after, ⟨c, d, rfl, first⟩, part, rfl, Nat.succ.inj length, others⟩

end Term

end ListQuery.Pattern
