set_option autoImplicit false

/-!
Where a text divides: at its last mark, before an ending, and at the first place where a word
stands in it. Texts are lists of characters here.
-/

namespace ListQuery.Text

/-- The text before the last mark and the text after it. -/
def splitLast? (mark : Char) : List Char → Option (List Char × List Char)
  | [] => none
  | c :: rest =>
    match splitLast? mark rest with
    | some (before, after) => some (c :: before, after)
    | none => if c = mark then some ([], rest) else none

/-- The text after the last mark, or the whole text if it has no mark. -/
def afterLast (mark : Char) (text : List Char) : List Char :=
  match splitLast? mark text with
  | some (_, after) => after
  | none => text

/-- What stands before the ending, if the text has that ending. -/
def dropEnding? (ending text : List Char) : Option (List Char) :=
  if ending <:+ text then some (text.take (text.length - ending.length)) else none

/-- The least number of characters before an occurrence of the word. -/
def indexOf? (word : List Char) : List Char → Option Nat
  | [] => if word = [] then some 0 else none
  | c :: rest =>
    if word <+: c :: rest then some 0 else (indexOf? word rest).map (· + 1)

theorem splitLast?_eq_none_iff {mark : Char} {text : List Char} :
    splitLast? mark text = none ↔ mark ∉ text := by
  induction text with
  | nil => simp [splitLast?]
  | cons c rest ih =>
    cases split : splitLast? mark rest with
    | none =>
      have absent := ih.mp split
      by_cases same : c = mark <;> simp [splitLast?, split, same, absent, Ne.symm]
    | some parts =>
      have present : mark ∈ rest := Classical.not_not.mp fun absent => by
        simp [ih.mpr absent] at split
      simp [splitLast?, split, present]

theorem splitLast?_eq_some_iff {mark : Char} {text before after : List Char} :
    splitLast? mark text = some (before, after) ↔
      text = before ++ mark :: after ∧ mark ∉ after := by
  induction text generalizing before after with
  | nil => simp [splitLast?]
  | cons c rest ih =>
    cases split : splitLast? mark rest with
    | none =>
      have absent := splitLast?_eq_none_iff.mp split
      cases before with
      | nil =>
        by_cases same : c = mark
        · simp only [splitLast?, split, same, if_true, Option.some.injEq, Prod.mk.injEq, true_and,
            List.nil_append, List.cons.injEq]
          exact ⟨fun equal => ⟨equal, equal ▸ absent⟩, fun parts => parts.1⟩
        · simp [splitLast?, split, same]
      | cons first others =>
        have outside : rest ≠ others ++ mark :: after := fun equal => absent (by simp [equal])
        by_cases same : c = mark <;> simp [splitLast?, split, same, outside]
    | some parts =>
      obtain ⟨front, back⟩ := parts
      have exact := ih.mp split
      cases before with
      | nil =>
        simp only [splitLast?, split, Option.some.injEq, Prod.mk.injEq, reduceCtorEq, false_and,
          List.nil_append, List.cons.injEq, false_iff, not_and]
        rintro ⟨-, rfl⟩ absent
        exact absent (by simp [exact.1])
      | cons first others =>
        have step := @ih others after
        rw [split] at step
        simp only [Option.some.injEq, Prod.mk.injEq] at step
        simp only [splitLast?, split, Option.some.injEq, Prod.mk.injEq, List.cons.injEq,
          List.cons_append, and_assoc]
        exact and_congr_right fun _ => step

theorem afterLast_append_cons {mark : Char} {after : List Char} (unmarked : mark ∉ after)
    (before : List Char) : afterLast mark (before ++ mark :: after) = after := by
  have split := splitLast?_eq_some_iff.mpr ⟨@rfl _ (before ++ mark :: after), unmarked⟩
  rw [afterLast, split]

theorem afterLast_of_notMem {mark : Char} {text : List Char} (unmarked : mark ∉ text) :
    afterLast mark text = text := by
  rw [afterLast, splitLast?_eq_none_iff.mpr unmarked]

theorem dropEnding?_eq_some_iff {ending text before : List Char} :
    dropEnding? ending text = some before ↔ text = before ++ ending := by
  unfold dropEnding?
  constructor
  · intro found
    split at found
    · rename_i ends
      obtain ⟨front, rfl⟩ := ends
      simp at found
      rw [found]
    · simp at found
  · rintro rfl
    simp

theorem indexOf?_eq_some_iff {word text : List Char} {index : Nat} :
    indexOf? word text = some index ↔
      index ≤ text.length ∧ word <+: text.drop index ∧ ∀ i < index, ¬ word <+: text.drop i := by
  induction text generalizing index with
  | nil =>
    by_cases empty : word = []
    · simp only [indexOf?, empty, if_true, Option.some.injEq, List.length_nil, List.drop_nil,
        List.nil_prefix, not_true_eq_false, true_and, Nat.le_zero]
      exact ⟨fun equal => ⟨equal.symm, fun i before => by omega⟩, fun parts => parts.1.symm⟩
    · simp [indexOf?, empty]
  | cons c rest ih =>
    by_cases here : word <+: c :: rest
    · simp only [indexOf?, here, if_true, Option.some.injEq]
      constructor
      · rintro rfl
        exact ⟨by omega, here, fun i before => by omega⟩
      · rintro ⟨-, -, least⟩
        cases index with
        | zero => rfl
        | succ previous => exact absurd here (least 0 (by omega))
    · cases index with
      | zero =>
        simp [indexOf?, here]
      | succ previous =>
        have moved : (indexOf? word rest).map (· + 1) = some (previous + 1) ↔
            indexOf? word rest = some previous := by
          simp [Option.map_eq_some_iff]
        simp only [indexOf?, here, if_false, moved, ih, List.length_cons, List.drop_succ_cons,
          Nat.add_le_add_iff_right]
        refine and_congr_right fun _ => and_congr_right fun _ => ⟨fun least i before => ?_,
          fun least i before => least (i + 1) (by omega)⟩
        cases i with
        | zero => exact here
        | succ i => exact least i (by omega)

theorem indexOf?_eq_none_iff {word text : List Char} :
    indexOf? word text = none ↔ ∀ index, index ≤ text.length → ¬ word <+: text.drop index := by
  induction text with
  | nil => simp [indexOf?]
  | cons c rest ih =>
    by_cases here : word <+: c :: rest
    · simp only [indexOf?, here, if_true, reduceCtorEq, false_iff]
      intro absent
      exact absent 0 (Nat.zero_le _) here
    · simp only [indexOf?, here, if_false, Option.map_eq_none_iff, ih]
      constructor
      · intro absent index inside
        cases index with
        | zero => exact here
        | succ previous => exact absent previous (Nat.le_of_succ_le_succ inside)
      · intro absent index inside
        exact absent (index + 1) (Nat.succ_le_succ inside)

end ListQuery.Text
