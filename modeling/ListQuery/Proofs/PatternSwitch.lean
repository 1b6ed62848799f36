import ListQuery.Proofs.Clauses
import ListQuery.Proofs.KeyGrammar

set_option autoImplicit false

/-!
The switch for raw patterns. Two runs on one filter, with raw patterns on and off, go side by side
until the walk meets the key of a raw pattern; there the second run stops, so that the switch takes
filters away and never changes a predicate (`livePredicate_of_patterns_off`).
-/

namespace ListQuery

/-- The key is a field with the suffix of raw patterns. -/
def Key.NamesPattern (key : String) : Prop := ∃ field, key = field ++ "_dregex" ∧ field ≠ ""

theorem Key.namesPattern_iff {key : String} :
    NamesPattern key ↔ (Operator.pattern.field? key).isSome = true := by
  simp only [Option.isSome_iff_exists, Operator.field?_eq_some_iff]
  rfl

instance : DecidablePred Key.NamesPattern := fun _ => decidable_of_iff' _ Key.namesPattern_iff

theorem Key.namesPattern_iff_parse {key : String} :
    NamesPattern key ↔ ∃ field, parse key = .field field (some .pattern) := by
  simp only [parse_eq_field_some_iff]
  rfl

namespace Expression

mutual

/-- The entries that a walk meets from an entry on into its groups. A blank one is passed over. -/
def entryWalk (key : String) (value : Argument) : List (String × Argument) :=
  if value.isBlank then []
  else (key, value) ::
    match Key.parse key with
    | .field _ _ => []
    | .group _ =>
      match value with
      | .list items => groupWalk items
      | _ => []

def groupWalk : List Argument → List (String × Argument)
  | [] => []
  | .object entries :: rest => walk entries ++ groupWalk rest
  | _ :: rest => groupWalk rest

/-- The entries that are not blank, depth first and left to right, in groups too. -/
def walk : List (String × Argument) → List (String × Argument)
  | [] => []
  | (key, value) :: rest => entryWalk key value ++ walk rest

end

def patternKeys (entries : List (String × Argument)) : List String :=
  (Mapping.keys entries).filter (Key.NamesPattern ·)

theorem patternKeys_append (first second : List (String × Argument)) :
    patternKeys (first ++ second) = patternKeys first ++ patternKeys second := by
  simp only [patternKeys, Mapping.keys, List.map_append, List.filter_append]

theorem patternKeys_cons_of_not {key : String} (other : ¬ Key.NamesPattern key)
    (value : Argument) (rest : List (String × Argument)) :
    patternKeys ((key, value) :: rest) = patternKeys rest := by
  simp only [patternKeys, Mapping.keys_cons, List.filter_cons, other, decide_false,
    Bool.false_eq_true, if_false]

end Expression

/-- How a run with raw patterns off ends next to one with them on, if these are the keys of raw
patterns on the way: it stops at the first of them, unless both stop before. -/
def Gated {α : Type} (keys : List String) (on off : Except Violation α) : Prop :=
  match on with
  | .ok value =>
    off = match keys.head? with
      | none => .ok value
      | some key => .error (.rawPatternDisabled key)
  | .error violation =>
    off = .error violation ∨ ∃ key ∈ keys, off = .error (.rawPatternDisabled key)

section Runs

variable {α β : Type} {keys others : List String} {on off : Except Violation α}

theorem gated_self (result : Except Violation α) : Gated [] result result := by
  cases result with
  | ok value => exact rfl
  | error violation => exact Or.inl rfl

theorem gated_map {function : α → β} (gated : Gated keys on off) :
    Gated keys (on.map function) (off.map function) := by
  cases on with
  | ok value =>
    simp only [Gated] at gated
    subst gated
    show Except.map function _ = _
    cases keys.head? <;> rfl
  | error violation =>
    rcases gated with rfl | ⟨key, inside, rfl⟩
    · exact Or.inl rfl
    · exact Or.inr ⟨key, inside, rfl⟩

theorem gated_bind {onward offward : α → Except Violation β} (first : Gated keys on off)
    (second : ∀ value, Gated others (onward value) (offward value)) :
    Gated (keys ++ others) (on >>= onward) (off >>= offward) := by
  cases on with
  | error violation =>
    rcases first with rfl | ⟨key, inside, rfl⟩
    · exact Or.inl rfl
    · exact Or.inr ⟨key, List.mem_append_left _ inside, rfl⟩
  | ok value =>
    simp only [Gated] at first
    subst first
    cases keys with
    | nil => exact second value
    | cons key rest =>
      -- The second run is over, whichever way the first one goes on.
      show Gated _ (onward value) (.error (.rawPatternDisabled key))
      cases onward value with
      | ok result => exact rfl
      | error violation => exact Or.inr ⟨key, List.mem_cons_self .., rfl⟩

theorem gated_bind_pure {function : α → β} (gated : Gated keys on off) :
    Gated keys (on >>= fun value => pure (function value))
      (off >>= fun value => pure (function value)) := by
  have whole := gated_bind gated fun value => gated_self (pure (function value))
  rwa [List.append_nil] at whole

end Runs

section Switch

variable {on off : Options}

theorem Operator.operand_of_ne_pattern {operator : Operator} (other : operator ≠ .pattern)
    (key field : String) (value : Argument) :
    operator.operand on key field value = operator.operand off key field value := by
  cases operator with
  | pattern => exact absurd rfl other
  | _ => rfl

theorem gated_fieldClause {key field : String} {operator : Option Operator}
    (allowed : on.rawPatterns = true) (denied : off.rawPatterns = false)
    (parsed : Key.parse key = .field field operator) (value : Argument) :
    Gated (Expression.patternKeys [(key, value)]) (fieldClause on key field value operator)
      (fieldClause off key field value operator) := by
  by_cases pattern : Key.NamesPattern key
  · obtain ⟨name, raw⟩ := Key.namesPattern_iff_parse.mp pattern
    rw [parsed, Key.field.injEq] at raw
    obtain ⟨rfl, rfl⟩ := raw
    have own : Expression.patternKeys [(key, value)] = [key] := by
      simp [Expression.patternKeys, pattern]
    rw [own]
    apply gated_map
    simp only [Operator.operand, allowed, denied, if_true, Bool.false_eq_true, if_false]
    cases Operator.textOperand key value Operator.patternAnyCaseOperand with
    | ok operand => exact rfl
    | error violation => exact Or.inr ⟨key, List.mem_cons_self .., rfl⟩
  · rw [Expression.patternKeys_cons_of_not pattern]
    have same : fieldClause on key field value operator =
        fieldClause off key field value operator := by
      cases operator with
      | none => rfl
      | some operator =>
        have other : operator ≠ .pattern := by
          rintro rfl
          exact pattern (Key.namesPattern_iff_parse.mpr ⟨field, parsed⟩)
        have same : operator.operand on key field value = operator.operand off key field value :=
          Operator.operand_of_ne_pattern other key field value
        rw [fieldClause, fieldClause, same]
    rw [same]
    exact gated_self _

namespace Expression

theorem gated_clauseOf {key : String} {value : Argument} (allowed : on.rawPatterns = true)
    (denied : off.rawPatterns = false)
    (group : ∀ items, value = .list items →
      Gated (patternKeys (groupWalk items)) (branches on key items) (branches off key items)) :
    Gated (patternKeys (entryWalk key value)) (clauseOf on key value) (clauseOf off key value) := by
  unfold clauseOf entryWalk
  cases blank : value.isBlank with
  | true => exact gated_self _
  | false =>
    simp only [Bool.false_eq_true, if_false]
    cases parsed : Key.parse key with
    | field field operator => exact gated_map (gated_fieldClause allowed denied parsed value)
    | group connective =>
      have other : ¬ Key.NamesPattern key := by
        intro pattern
        obtain ⟨field, raw⟩ := Key.namesPattern_iff_parse.mp pattern
        rw [parsed] at raw
        cases raw
      rw [patternKeys_cons_of_not other]
      cases value with
      | list items => exact gated_bind_pure (group items rfl)
      | _ => exact Or.inl rfl

theorem gated_clauses (allowed : on.rawPatterns = true) (denied : off.rawPatterns = false)
    (expression : Expression) :
    Gated (patternKeys (walk expression)) (clauses on expression) (clauses off expression) := by
  induction expression using walk_induction fun items => ∀ key,
      Gated (patternKeys (groupWalk items)) (branches on key items) (branches off key items) with
  | nil => exact rfl
  | cons key value rest group later =>
    rw [clauses_cons, clauses_cons, walk, patternKeys_append]
    apply gated_bind (gated_clauseOf allowed denied fun items listed => group items listed key)
    intro first
    exact gated_bind_pure later
  | noItem key =>
    exact rfl
  | object entries rest nested later key =>
    rw [branches_object, branches_object, groupWalk, patternKeys_append]
    apply gated_bind (gated_map nested)
    intro document
    exact gated_bind_pure (later key)
  | scalar item rest shape later key =>
    rw [branches_of_not_object shape, branches_of_not_object shape]
    exact Or.inl rfl

end Expression

/-- A predicate without raw patterns is the one with them. A filter that is fine with raw patterns
is fine without them and means the same if no key of it names one, and else is refused for the first
that does; one that is refused with them is refused for the same without, or for a key that names
one. -/
theorem livePredicate_of_patterns_off (allowed : on.rawPatterns = true)
    (denied : off.rawPatterns = false) (expression : Expression) :
    (∀ live, livePredicate off (some expression) = .ok live →
      livePredicate on (some expression) = .ok live) ∧
    (∀ live, livePredicate on (some expression) = .ok live →
      livePredicate off (some expression) =
        match (Expression.patternKeys (Expression.walk expression)).head? with
        | none => .ok live
        | some key => .error (.rawPatternDisabled key)) ∧
    (∀ violation, livePredicate on (some expression) = .error violation →
      livePredicate off (some expression) = .error violation ∨
      ∃ key ∈ Expression.patternKeys (Expression.walk expression),
        livePredicate off (some expression) = .error (.rawPatternDisabled key)) := by
  have gated : Gated (Expression.patternKeys (Expression.walk expression))
      (livePredicate on (some expression)) (livePredicate off (some expression)) :=
    gated_map (gated_map (Expression.gated_clauses allowed denied expression))
  cases run : livePredicate on (some expression) with
  | ok value =>
    rw [run] at gated
    simp only [Gated] at gated
    refine ⟨?_, ?_, ?_⟩
    · intro live success
      rw [gated] at success
      split at success
      · exact success
      · cases success
    · intro live success
      rw [← Except.ok.inj success]
      exact gated
    · intro violation impossible
      cases impossible
  | error violation =>
    rw [run] at gated
    refine ⟨?_, ?_, ?_⟩
    · intro live success
      rcases gated with same | ⟨key, -, stopped⟩
      · rw [same] at success
        cases success
      · rw [stopped] at success
        cases success
    · intro live impossible
      cases impossible
    · intro other refused
      rw [← Except.error.inj refused]
      exact gated

end Switch

/-- A pattern in a group is let through or stops the run, next to a filter that is refused either
way and one that names no pattern. -/
theorem livePredicate_of_patterns_off_in_group :
    livePredicate { rawPatterns := true } (some [("b", .int 1), ("OR", .list [.object
        [("a_dregex", .int 5)]])]) =
      .ok [("b", .int 1), ("$or", .array [.document [("a", .document [("$regex", .text "5"),
        ("$options", .text "i")])]]), ("deletedAt", .document [("isSet", .bool false)])] ∧
    livePredicate { defaultLimit := 50 } (some [("b", .int 1), ("OR", .list [.object
        [("a_dregex", .int 5)]])]) = .error (.rawPatternDisabled "a_dregex") ∧
    livePredicate { defaultLimit := 50 } (some [("b_in", .int 1)]) =
      .error (.expectedList "b_in") ∧
    livePredicate { rawPatterns := true } (some [("b", .int 1)]) =
      .ok [("b", .int 1), ("deletedAt", .document [("isSet", .bool false)])] := by
  have paired := @livePredicate_of_patterns_off { rawPatterns := true } { defaultLimit := 50 }
    rfl rfl
  have through : livePredicate { rawPatterns := true } (some [("b", .int 1), ("OR", .list [.object
      [("a_dregex", .int 5)]])]) =
      .ok [("b", .int 1), ("$or", .array [.document [("a", .document [("$regex", .text "5"),
        ("$options", .text "i")])]]), ("deletedAt", .document [("isSet", .bool false)])] := by cbv
  have stopped := (paired _).2.1 _ through
  have raw : Key.parse "a_dregex" = .field "a" (some .pattern) :=
    Key.parse_eq_field_some_iff.mpr ⟨by decide, by decide⟩
  have group : Key.parse "OR" = .group .disjunction := Key.parse_eq_group_iff.mpr (by decide)
  have equality : Key.parse "b" = .field "b" none := by cbv
  have met : Expression.patternKeys (Expression.walk [("b", .int 1), ("OR", .list [.object
      [("a_dregex", .int 5)]])]) = ["a_dregex"] := by
    simp [Expression.patternKeys, Expression.walk, Expression.entryWalk, Expression.groupWalk,
      Argument.isBlank, Key.namesPattern_iff_parse, raw, group, equality]
  rw [met] at stopped
  have refused : livePredicate { rawPatterns := true } (some [("b_in", .int 1)]) =
      .error (.expectedList "b_in") := by cbv
  have selection : Key.parse "b_in" = .field "b" (some (.select .oneOf)) :=
    Key.parse_eq_field_some_iff.mpr ⟨by decide, by decide⟩
  have unmet : Expression.patternKeys (Expression.walk [("b_in", .int 1)]) = [] := by
    simp [Expression.patternKeys, Expression.walk, Expression.entryWalk, Argument.isBlank,
      Key.namesPattern_iff_parse, selection]
  have plain : livePredicate { defaultLimit := 50 } (some [("b", .int 1)]) =
      .ok [("b", .int 1), ("deletedAt", .document [("isSet", .bool false)])] := by cbv
  refine ⟨through, stopped, ?_, (paired _).1 _ plain⟩
  rcases (paired _).2.2 _ refused with same | ⟨key, inside, -⟩
  · exact same
  · rw [unmet] at inside
    cases inside

end ListQuery
