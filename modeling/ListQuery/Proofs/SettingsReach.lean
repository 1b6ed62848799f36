import ListQuery.Proofs.FirstViolation
import ListQuery.Proofs.KeyGrammar
import ListQuery.Proofs.LastArguments
import ListQuery.Proofs.Numerals
import ListQuery.Settings

set_option autoImplicit false

/-!
How far settings reach. The limit in a variable is what queries without one of their own take, and
the switch in a variable is what patterns of a caller depend on; no other variable matters to a
query (`Settings.reach_of_variables`).
-/

namespace ListQuery

/-- A scalar under `_dregex` is let through exactly if patterns of a caller are allowed. -/
theorem exists_livePredicate_pattern_iff {options : Options} {field : String}
    (present : field ≠ "") {value : Argument} (solid : value.isBlank = false)
    (noList : value.isList = false) (noObject : value.isObject = false) :
    (∃ live, livePredicate options (some [(field ++ "_dregex", value)]) = .ok live) ↔
      options.rawPatterns = true := by
  have parsed : Key.parse (field ++ "_dregex") = .field field (some .pattern) :=
    Key.parse_eq_field_some_iff.mpr ⟨rfl, present⟩
  have own : Expression.entryViolations options (field ++ "_dregex") value =
      if options.rawPatterns then [] else [.rawPatternDisabled (field ++ "_dregex")] := by
    unfold Expression.entryViolations
    simp only [solid, parsed, fieldViolation?, Operator.violation?, noList, noObject,
      Bool.false_eq_true, if_false, Bool.or_self]
    cases options.rawPatterns <;> rfl
  have agrees : Agrees (livePredicate options (some [(field ++ "_dregex", value)]))
      (Expression.entryViolations options (field ++ "_dregex") value ++ []) :=
    Expression.agrees_livePredicate (some [(field ++ "_dregex", value)])
  rw [agrees.ok_iff, own, List.append_nil]
  cases options.rawPatterns <;> simp

namespace Settings

def limitOf (lookup : String → Option String) : Except NumeralFault Int64 :=
  match lookup "QUERY_DEFAULT_LIMIT" with
  | some text => Number.readInt64 text.toList
  | none => .ok 10

def allowed (lookup : String → Option String) : Bool :=
  match lookup "QUERY_ALLOW_RAW_PATTERNS" with
  | some word => word = "true" || word = "1"
  | none => false

variable {lookup : String → Option String}

/-- Two of the variables make the options, and one of them can be at fault. -/
theorem map_options_ofVariables (lookup : String → Option String) :
    (ofVariables lookup).map options =
      (limitOf lookup).map fun defaultLimit => { rawPatterns := allowed lookup, defaultLimit } := by
  unfold ofVariables limitOf
  cases lookup "QUERY_DEFAULT_LIMIT" with
  | none => rfl
  | some text =>
    dsimp only
    cases Number.readInt64 text.toList <;> rfl

theorem options_of_ofVariables {settings : Settings} (success : ofVariables lookup = .ok settings) :
    ∃ limit, limitOf lookup = .ok limit ∧
      settings.options = { rawPatterns := allowed lookup, defaultLimit := limit } := by
  have mapped := map_options_ofVariables lookup
  rw [success] at mapped
  cases read : limitOf lookup with
  | error fault =>
    rw [read] at mapped
    cases mapped
  | ok limit =>
    rw [read] at mapped
    exact ⟨limit, rfl, Except.ok.inj mapped⟩

theorem ofVariables_error_iff :
    (∃ fault, ofVariables lookup = .error fault) ↔ ∃ fault, limitOf lookup = .error fault := by
  have mapped := map_options_ofVariables lookup
  cases read : limitOf lookup <;> cases built : ofVariables lookup <;>
    rw [read, built] at mapped <;> simp [Except.map] at mapped ⊢

theorem limitOf_error_iff :
    (∃ fault, limitOf lookup = .error fault) ↔
      ∃ text, lookup "QUERY_DEFAULT_LIMIT" = some text ∧
        ¬ ∃ value, Number.Denotes text.toList value ∧ -2 ^ 63 ≤ value ∧ value < 2 ^ 63 := by
  unfold limitOf
  cases lookup "QUERY_DEFAULT_LIMIT" with
  | none => simp
  | some text => simp only [Option.some.injEq, exists_eq_left', Number.readInt64_error_iff]

theorem limit_of_limitOf {limit : Int64} (read : limitOf lookup = .ok limit) :
    (lookup "QUERY_DEFAULT_LIMIT" = none → limit = 10) ∧
    ∀ text, lookup "QUERY_DEFAULT_LIMIT" = some text →
      ∀ value, Number.Denotes text.toList value ↔ value = limit.toInt := by
  unfold limitOf at read
  constructor
  · intro missing
    rw [missing] at read
    exact (Except.ok.inj read).symm
  · intro text present value
    rw [present] at read
    have denotes : Number.Denotes text.toList limit.toInt := Number.readInt64_eq_ok_iff.mp read
    constructor
    · intro other
      exact other.unique denotes
    · rintro rfl
      exact denotes

theorem allowed_iff :
    allowed lookup = true ↔
      lookup "QUERY_ALLOW_RAW_PATTERNS" = some "true" ∨
        lookup "QUERY_ALLOW_RAW_PATTERNS" = some "1" := by
  unfold allowed
  cases lookup "QUERY_ALLOW_RAW_PATTERNS" <;> simp

end Settings

namespace Draft

theorem take_of_build {options : Options} {steps : List Step} {query : Query}
    (success : (recordAll { options } steps).build = .ok query)
    (unlimited : (lastPage steps).limit = none ∨ (lastPage steps).limit = some 0) :
    query.take = options.defaultLimit := by
  have outcome := build_eq_iff_outcome.mp success
  cases outcome with
  | query _ _ _ bounds => exact bounds.unlimited unlimited

end Draft

namespace Settings

/-- The variables are at fault exactly if there is a limit that is no signed 64-bit number. Else
queries whose last page has no limit take that number, ten without the variable, patterns of a
caller are let through exactly if their variable is one of two words, and the variables for the log
do not matter. -/
theorem reach_of_variables (lookup : String → Option String) :
    ((∃ fault, ofVariables lookup = .error fault) ↔
      ∃ text, lookup "QUERY_DEFAULT_LIMIT" = some text ∧
        ¬ ∃ value, Number.Denotes text.toList value ∧ -2 ^ 63 ≤ value ∧ value < 2 ^ 63) ∧
    (∀ settings, ofVariables lookup = .ok settings →
      (∀ steps query,
        (Draft.recordAll { options := settings.options } steps).build = .ok query →
        ((Draft.lastPage steps).limit = none ∨ (Draft.lastPage steps).limit = some 0) →
        (lookup "QUERY_DEFAULT_LIMIT" = none → query.take = 10) ∧
        ∀ text, lookup "QUERY_DEFAULT_LIMIT" = some text →
          ∀ value, Number.Denotes text.toList value ↔ value = query.take.toInt) ∧
      (∀ field value, field ≠ "" → value.isBlank = false → value.isList = false →
        value.isObject = false →
        ((∃ live, livePredicate settings.options (some [(field ++ "_dregex", value)]) = .ok live) ↔
          lookup "QUERY_ALLOW_RAW_PATTERNS" = some "true" ∨
            lookup "QUERY_ALLOW_RAW_PATTERNS" = some "1"))) ∧
    (∀ other : String → Option String,
      (∀ name, name ≠ "LOG_FILTER" → name ≠ "LOG_FORMAT" → other name = lookup name) →
      (ofVariables other).map options = (ofVariables lookup).map options) := by
  refine ⟨ofVariables_error_iff.trans limitOf_error_iff, ?_, ?_⟩
  · intro settings success
    obtain ⟨limit, read, made⟩ := options_of_ofVariables success
    constructor
    · intro steps query built unlimited
      have taken : query.take = limit := by
        rw [Draft.take_of_build built unlimited, made]
      rw [taken]
      exact limit_of_limitOf read
    · intro field value present solid noList noObject
      rw [exists_livePredicate_pattern_iff present solid noList noObject, made, allowed_iff]
  · intro other same
    have limit : other "QUERY_DEFAULT_LIMIT" = lookup "QUERY_DEFAULT_LIMIT" :=
      same _ (by decide) (by decide)
    have patterns : other "QUERY_ALLOW_RAW_PATTERNS" = lookup "QUERY_ALLOW_RAW_PATTERNS" :=
      same _ (by decide) (by decide)
    simp only [map_options_ofVariables, limitOf, allowed, limit, patterns]

/-- The least limit of all, with patterns allowed. -/
theorem reach_of_least_limit :
    ∃ lookup settings query,
      lookup "QUERY_DEFAULT_LIMIT" = some "-9223372036854775808" ∧
      ofVariables lookup = .ok settings ∧
      (Draft.recordAll { options := settings.options }
        [.page ⟨some 5, none⟩, .page ⟨some 0, some 3⟩]).build = .ok query ∧
      (∀ value, Number.Denotes "-9223372036854775808".toList value ↔ value = query.take.toInt) ∧
      (∃ live, livePredicate settings.options (some [("a" ++ "_dregex", .text "^x")]) = .ok live) ∧
      (ofVariables fun name => if name = "LOG_FORMAT" then some "pretty" else lookup name).map
        options = (ofVariables lookup).map options := by
  let lookup := Mapping.get?
    [("QUERY_DEFAULT_LIMIT", "-9223372036854775808"), ("QUERY_ALLOW_RAW_PATTERNS", "1")]
  let settings : Settings := { defaultLimit := Int64.minValue, rawPatterns := true }
  have present : lookup "QUERY_DEFAULT_LIMIT" = some "-9223372036854775808" := by decide
  have allows : lookup "QUERY_ALLOW_RAW_PATTERNS" = some "1" := by decide
  have success : ofVariables lookup = .ok settings := rfl
  have built : (Draft.recordAll { options := settings.options }
      [.page ⟨some 5, none⟩, .page ⟨some 0, some 3⟩]).build =
      .ok ⟨liveClause, none, 3, Int64.minValue⟩ := rfl
  obtain ⟨-, reach, log⟩ := reach_of_variables lookup
  obtain ⟨take, patterns⟩ := reach settings success
  refine ⟨lookup, settings, _, present, success, built, ?_, ?_, ?_⟩
  · exact (take _ _ built (Or.inr rfl)).2 _ present
  · exact (patterns "a" (.text "^x") (by decide) rfl rfl rfl).mpr (Or.inr allows)
  · apply log
    intro name _ other
    exact if_neg other

end Settings

end ListQuery
