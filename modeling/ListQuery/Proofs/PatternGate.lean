import ListQuery.Proofs.Clauses
import ListQuery.Proofs.Occurrence

set_option autoImplicit false

/-!
Patterns of the caller. With raw patterns off no operator of a key lets one through: what a
predicate holds under `$regex` stands for literal text, or the caller spelled `$regex` out
(`pattern_literal_or_spelled`).
-/

namespace ListQuery

/-- A pattern that stands for literal text. -/
def Operand.IsLiteralPattern (operand : Operand) : Prop :=
  ∃ text : List Char, operand = .text (String.ofList (Pattern.substring text)) ∨
    operand = .text (String.ofList (Pattern.allWords text))

/-- The operand is put under `$regex` by the caller's own hand: as a field of this name, as an
operator of `_obj`, or as a key in an object that is taken as it is written. -/
inductive Expression.Spells (options : Options) : Expression → Operand → Prop
  | field {expression : Expression} {key : String} {value : Argument}
      {operator : Option Operator} {operand : Operand} :
    (key, value) ∈ expression → value.isBlank = false →
    Key.parse key = .field "$regex" operator →
    fieldClause options key "$regex" value operator = .ok ("$regex", operand) →
    Spells options expression operand
  | operator {expression entries : Expression} {key field name : String} {inner : Argument} :
    (key, .object entries) ∈ expression → Key.parse key = .field field (some .range) →
    (name, inner) ∈ entries → Text.afterLast '_' name.toList = "regex".toList →
    Spells options expression (inner.coerce field)
  | copied {expression : Expression} {key field : String} {value written : Argument}
      {operator : Option Operator} :
    (key, value) ∈ expression → Key.parse key = .field field operator →
    operator ≠ some .range → Argument.Under "$regex" written value →
    Spells options expression written.verbatim
  | copiedInRange {expression entries : Expression} {key field name : String}
      {inner written : Argument} :
    (key, .object entries) ∈ expression → Key.parse key = .field field (some .range) →
    (name, inner) ∈ entries → Argument.Under "$regex" written inner →
    Spells options expression written.verbatim
  | group {expression nested : Expression} {key : String} {connective : Connective}
      {items : List Argument} {operand : Operand} :
    (key, .list items) ∈ expression → Key.parse key = .group connective →
    .object nested ∈ items → Spells options nested operand → Spells options expression operand

/-- The operands of a kind, and every merge of documents among them. -/
inductive Operand.MergedFrom (kind : Operand → Prop) : Operand → Prop
  | one {operand : Operand} : kind operand → MergedFrom kind operand
  | merge {base entries : Document} :
    MergedFrom kind (.document base) → MergedFrom kind (.document entries) →
    MergedFrom kind (.document (Document.merge base entries))

def Expression.Accounts (options : Options) (expression : Expression) (held : Operand) : Prop :=
  held.IsLiteralPattern ∨ held.MergedFrom (Spells options expression)

theorem Operand.MergedFrom.mono {kind other : Operand → Prop}
    (weaker : ∀ operand, kind operand → other operand) {operand : Operand}
    (merged : MergedFrom kind operand) : MergedFrom other operand := by
  induction merged with
  | one holds => exact .one (weaker _ holds)
  | merge _ _ base entries => exact .merge base entries

theorem Operand.not_isLiteralPattern_document (entries : Document) :
    ¬ (Operand.document entries).IsLiteralPattern := by
  rintro ⟨text, literal | literal⟩ <;> cases literal

namespace Expression

variable {options : Options} {expression : Expression}

theorem accounts_of_spells {held : Operand} (spelled : Spells options expression held) :
    Accounts options expression held :=
  Or.inr (.one spelled)

/-- Two documents under `$regex` were both spelled out, and so is every part of their merge. -/
theorem accounts_merge (base entries : Document)
    (before : Accounts options expression (.document base))
    (own : Accounts options expression (.document entries)) :
    Accounts options expression (.document (Document.merge base entries)) := by
  have first := before.resolve_left (Operand.not_isLiteralPattern_document base)
  have second := own.resolve_left (Operand.not_isLiteralPattern_document entries)
  exact Or.inr (.merge first second)

end Expression

namespace Operand

variable {property : Operand → Prop}

theorem everywhere_coerce {field : String} {value : Argument}
    (copied : ∀ written, Argument.Under "$regex" written value → property written.verbatim) :
    Everywhere "$regex" property (value.coerce field) := by
  intro held under
  obtain ⟨written, inside, rfl⟩ := Argument.under_of_coerce under value rfl
  exact copied written inside

theorem everywhere_verbatim {value : Argument}
    (copied : ∀ written, Argument.Under "$regex" written value → property written.verbatim) :
    Everywhere "$regex" property value.verbatim := by
  intro held under
  obtain ⟨written, inside, rfl⟩ := Argument.under_of_verbatim under value rfl
  exact copied written inside

end Operand

namespace Operator

variable {options : Options} {key field : String} {value : Argument} {operand : Operand}
  {property : Operand → Prop}

/-- The two operators of the store that hold a pattern hold one that stands for literal text. -/
theorem everywhere_textOperand {build : List Char → Document}
    (read : textOperand key value build = .ok operand)
    (fine : ∀ text name inner, (name, inner) ∈ build text →
      ∃ written, inner = .text written ∧ (name = "$regex" → property (.text written))) :
    Operand.Everywhere "$regex" property operand := by
  obtain ⟨text, -, rfl⟩ := textOperand_eq_ok_iff.mp read
  rw [Operand.everywhere_document]
  intro name inner member
  obtain ⟨written, rfl, holds⟩ := fine _ name inner member
  exact ⟨holds, Operand.everywhere_text _ _⟩

theorem everywhere_selection (selection : Selection) {items : List Argument}
    (copied : ∀ written, Argument.Under "$regex" written (.list items) →
      property written.verbatim) :
    Operand.Everywhere "$regex" property (.document (Document.single selection.symbol
      (.array (items.map (selection.operand field))))) := by
  rw [Operand.everywhere_single, Operand.everywhere_array]
  constructor
  · intro same
    cases selection <;> exact absurd same (by decide)
  · intro inner member
    obtain ⟨item, inside, rfl⟩ := List.mem_map.mp member
    have within : ∀ written, Argument.Under "$regex" written item → property written.verbatim :=
      fun written under => copied written (.item inside under)
    cases selection with
    | everyOf => exact Operand.everywhere_verbatim within
    | noneOf | oneOf => exact Operand.everywhere_coerce within

/-- In a range the caller names the operators, so `$regex` is there just if a key names it. -/
theorem everywhere_rangeOperand {entries : Expression}
    (named : ∀ name inner, (name, inner) ∈ entries →
      Text.afterLast '_' name.toList = "regex".toList → property (inner.coerce field))
    (nested : ∀ name inner written, (name, inner) ∈ entries →
      Argument.Under "$regex" written inner → property written.verbatim) :
    Operand.Everywhere "$regex" property (.document (rangeOperand field entries)) := by
  rw [Operand.everywhere_document]
  intro name inner member
  obtain ⟨⟨written, argument⟩, inside, same⟩ := List.mem_map.mp (Mapping.mem_ofEntries member)
  obtain ⟨rfl, rfl⟩ := Prod.mk.inj same
  constructor
  · intro regex
    apply named written argument inside
    have letters := congrArg String.toList regex
    simpa using letters
  · exact Operand.everywhere_coerce fun copy under => nested written argument copy inside under

/-- What an operator puts under `$regex` is a literal pattern, or what the caller spelled. -/
theorem everywhere_operand (off : options.rawPatterns = false)
    (literal : ∀ held : Operand, held.IsLiteralPattern → property held) (operator : Operator)
    (copied : ∀ written, operator ≠ .range → Argument.Under "$regex" written value →
      property written.verbatim)
    (named : ∀ entries name inner, operator = .range → value = .object entries →
      (name, inner) ∈ entries → Text.afterLast '_' name.toList = "regex".toList →
      property (inner.coerce field))
    (nested : ∀ entries name inner written, operator = .range → value = .object entries →
      (name, inner) ∈ entries → Argument.Under "$regex" written inner →
      property written.verbatim)
    (read : operator.operand options key field value = .ok operand) :
    Operand.Everywhere "$regex" property operand := by
  cases operator with
  | reference =>
    simp only [Operator.operand] at read
    split at read
    · cases read
      exact Operand.everywhere_of_leaf (by simp) (by simp)
    · cases read
  | compare comparison =>
    cases read
    rw [Operand.everywhere_single]
    constructor
    · intro same
      cases comparison <;> exact absurd same (by decide)
    · exact Operand.everywhere_coerce fun written => copied written (by simp)
  | select selection =>
    cases value with
    | list items =>
      cases read
      exact everywhere_selection selection fun written => copied written (by simp)
    | _ => cases read
  | contains =>
    simp only [Operator.operand] at read
    refine everywhere_textOperand read ?_
    intro text name inner member
    simp only [patternOperand, Document.single, List.mem_singleton, Prod.mk.injEq] at member
    obtain ⟨rfl, rfl⟩ := member
    exact ⟨_, rfl, fun _ => literal _ ⟨text, Or.inl rfl⟩⟩
  | containsAnyCase =>
    -- The store has an operator of its own for this, so there is no pattern.
    simp only [Operator.operand] at read
    refine everywhere_textOperand read ?_
    intro text name inner member
    simp only [List.mem_cons, Prod.mk.injEq, List.not_mem_nil, or_false] at member
    rcases member with ⟨rfl, rfl⟩ | ⟨rfl, rfl⟩
    · exact ⟨_, rfl, fun same => absurd same (by decide)⟩
    · exact ⟨_, rfl, fun same => absurd same (by decide)⟩
  | pattern =>
    simp [Operator.operand, off] at read
  | words =>
    simp only [Operator.operand] at read
    refine everywhere_textOperand read ?_
    intro text name inner member
    simp only [patternAnyCaseOperand, List.mem_cons, Prod.mk.injEq, List.not_mem_nil,
      or_false] at member
    rcases member with ⟨rfl, rfl⟩ | ⟨rfl, rfl⟩
    · exact ⟨_, rfl, fun _ => literal _ ⟨text, Or.inr rfl⟩⟩
    · exact ⟨_, rfl, fun same => absurd same (by decide)⟩
  | range =>
    cases value with
    | object entries =>
      cases read
      exact everywhere_rangeOperand (fun name inner => named entries name inner rfl rfl)
        fun name inner written => nested entries name inner written rfl rfl
    | _ => cases read
  | member =>
    cases read
    rw [Operand.everywhere_single]
    constructor
    · intro same
      exact absurd same (by decide)
    · exact Operand.everywhere_verbatim fun written => copied written (by simp)

end Operator

theorem field_of_fieldClause {options : Options} {key field target : String} {value : Argument}
    {operator : Option Operator} {operand : Operand} (elsewhere : target ≠ memberField)
    (read : fieldClause options key field value operator = .ok (target, operand)) :
    target = field := by
  cases operator with
  | none =>
    cases read
    rfl
  | some operator =>
    obtain ⟨found, -, equal⟩ := fieldClause_some_eq_ok_iff.mp read
    cases operator with
    | member => exact absurd (Prod.mk.inj equal).1 elsewhere
    | _ => exact (Prod.mk.inj equal).1

namespace Expression

/-- With raw patterns off the clauses of an expression account for all they put under `$regex`. -/
theorem everywhere_clauses {options : Options} (off : options.rawPatterns = false)
    (expression : Expression) :
    ∀ read, clauses options expression = .ok read →
      Operand.Everywhere "$regex" (Accounts options expression) (.document read) := by
  induction expression using nested_induction with
  | step expression ih =>
    intro read success
    rw [Operand.everywhere_document]
    intro target operand inside
    obtain ⟨key, value, entry, own⟩ := exists_mem_of_mem_clauses success inside
    obtain ⟨solid, gives⟩ := gives_of_clauseOf own
    cases gives with
    | group connective items predicates parsed listed found equal =>
      obtain ⟨rfl, rfl⟩ := Prod.mk.inj equal
      subst listed
      constructor
      · intro same
        cases connective <;> exact absurd same (by decide)
      · rw [Operand.everywhere_array]
        intro branch member
        -- What the expression of an item accounts for is spelled out in the one around it too.
        obtain ⟨nested, document, item, success, rfl⟩ := exists_mem_of_mem_branches found member
        obtain ⟨inner, readInner, rfl⟩ := predicate_eq_ok_iff.mp success
        have all := Operand.everywhere_merge accounts_merge Operand.everywhere_nil
          (ih key items nested entry item inner readInner)
        refine all.mono ?_
        intro held accounted
        rcases accounted with literal | merged
        · exact Or.inl literal
        · exact Or.inr (merged.mono fun spelled => .group entry parsed item)
    | field field operator parsed found =>
      constructor
      · rintro rfl
        rw [← field_of_fieldClause (by decide) found] at parsed found
        exact accounts_of_spells (.field entry solid parsed found)
      · cases operator with
        | none =>
          cases found
          exact Operand.everywhere_coerce fun written under =>
            accounts_of_spells (.copied entry parsed (by simp) under)
        | some operator =>
          obtain ⟨operand, read, equal⟩ := fieldClause_some_eq_ok_iff.mp found
          obtain ⟨-, rfl⟩ := Prod.mk.inj equal
          refine Operator.everywhere_operand off (fun held => Or.inl) operator ?_ ?_ ?_ read
          · intro written different under
            exact accounts_of_spells
              (.copied entry parsed (fun same => different (Option.some.inj same)) under)
          · rintro entries name inner rfl rfl member regex
            exact accounts_of_spells (.operator entry parsed member regex)
          · rintro entries name inner written rfl rfl member under
            exact accounts_of_spells (.copiedInRange entry parsed member under)

end Expression

/-- With raw patterns off, whatever a predicate holds under `$regex`, at any depth, stands for
literal text, or was spelled out there by the caller, or is a merge of documents that were. -/
theorem pattern_literal_or_spelled {options : Options} (off : options.rawPatterns = false)
    {expression : Expression} {live : Document}
    (success : livePredicate options (some expression) = .ok live) {held : Operand}
    (under : Operand.Under "$regex" held (.document live)) :
    held.IsLiteralPattern ∨ held.MergedFrom (Expression.Spells options expression) := by
  obtain ⟨predicate, found, rfl⟩ := livePredicate_eq_ok_iff.mp success
  obtain ⟨read, clauses, rfl⟩ := Expression.predicate_eq_ok_iff.mp found
  have filter := Operand.everywhere_merge Expression.accounts_merge Operand.everywhere_nil
    (Expression.everywhere_clauses off _ read clauses)
  have exclusion : Operand.Everywhere "$regex" (Expression.Accounts options expression)
      (.document liveClause) := by
    refine Operand.everywhere_single.mpr ⟨fun same => absurd same (by decide), ?_⟩
    refine Operand.everywhere_single.mpr ⟨fun same => absurd same (by decide), ?_⟩
    exact Operand.everywhere_of_leaf (by simp) (by simp)
  exact Operand.everywhere_merge Expression.accounts_merge filter exclusion held under

/-- A pattern for literal text is empty or starts with a dot or a parenthesis. -/
theorem Operand.IsLiteralPattern.head {text : String}
    (literal : (Operand.text text).IsLiteralPattern) :
    text.toList.head? ∈ [none, some '.', some '('] := by
  obtain ⟨source, equal | equal⟩ := literal
  · rw [Operand.text.inj equal, String.toList_ofList, Pattern.substring_eq]
    simp
  · rw [Operand.text.inj equal, String.toList_ofList, Pattern.allWords]
    cases Text.words source with
    | nil => simp
    | cons word rest =>
      rw [List.flatMap_cons, Pattern.lookahead_eq]
      simp

/-- A literal pattern in a group beside two documents spelled out for one field. -/
theorem pattern_literal_in_group :
    ∃ expression live, expression = [("OR", .list [.object [("a_permute", .text "b.c (d")]]),
        ("e_obj", .object [("x_regex", .object [("p", .int 1)])]),
        ("e", .object [("$regex", .object [("q", .int 2)])])] ∧
      livePredicate {} (some expression) = .ok live ∧
      ∀ held ∈ [.text "(?=.*b\\.c)(?=.*\\(d)", .document [("p", .int 1), ("q", .int 2)]],
        Operand.Under "$regex" held (.document live) ∧
        (held.IsLiteralPattern ∨ held.MergedFrom (Expression.Spells {} expression)) := by
  have success : livePredicate {}
      (some [("OR", .list [.object [("a_permute", .text "b.c (d")]]),
        ("e_obj", .object [("x_regex", .object [("p", .int 1)])]),
        ("e", .object [("$regex", .object [("q", .int 2)])])]) =
      .ok [("$or", .array [.document [("a", .document
          [("$regex", .text "(?=.*b\\.c)(?=.*\\(d)"), ("$options", .text "i")])]]),
        ("e", .document [("$regex", .document [("p", .int 1), ("q", .int 2)])]),
        ("deletedAt", .document [("isSet", .bool false)])] := by
    have connective : Key.parse "OR" = .group .disjunction := by cbv
    have words : Key.parse "a_permute" = .field "a" (some .words) := by cbv
    have range : Key.parse "e_obj" = .field "e" (some .range) := by cbv
    have plain : Key.parse "e" = .field "e" none := by cbv
    simp [livePredicate, Expression.predicate, Expression.clauses, Expression.clauseOf,
      Expression.branches, connective, words, range, plain, fieldClause, Operator.operand,
      Operator.textOperand, Argument.toText?, Argument.object?, Argument.coerce,
      Argument.isBlank]
    rfl
  refine ⟨_, _, rfl, success, ?_⟩
  intro held member
  refine (fun under => ⟨under, pattern_literal_or_spelled rfl success under⟩) ?_
  simp only [List.mem_cons, List.not_mem_nil, or_false] at member
  rcases member with rfl | rfl
  · apply Operand.Under.entry (List.mem_cons_self ..)
    apply Operand.Under.item (List.mem_cons_self ..)
    apply Operand.Under.entry (List.mem_cons_self ..)
    exact .here (List.mem_cons_self ..)
  · apply Operand.Under.entry (List.mem_cons_of_mem _ (List.mem_cons_self ..))
    exact .here (List.mem_cons_self ..)

/-- The three ways to spell `$regex` out: an operator of `_obj`, an object, a field. -/
theorem spelled_pattern_not_literal :
    ∃ live, livePredicate {} (some [("a_obj", .object [("x_regex", .text "^a")]),
        ("b", .object [("$regex", .text "^b")]), ("$regex", .text "^c")]) = .ok live ∧
      ∀ pattern ∈ ["^a", "^b", "^c"], Operand.Under "$regex" (.text pattern) (.document live) ∧
        ¬ (Operand.text pattern).IsLiteralPattern := by
  have success : livePredicate {} (some [("a_obj", .object [("x_regex", .text "^a")]),
      ("b", .object [("$regex", .text "^b")]), ("$regex", .text "^c")]) =
      .ok [("a", .document [("$regex", .text "^a")]), ("b", .document [("$regex", .text "^b")]),
        ("$regex", .text "^c"), ("deletedAt", .document [("isSet", .bool false)])] := by
    have range : Key.parse "a_obj" = .field "a" (some .range) := by cbv
    have plain : Key.parse "b" = .field "b" none := by cbv
    have named : Key.parse "$regex" = .field "$regex" none := by cbv
    have texts : holdsReferences "a" = false ∧ holdsReferences "$regex" = false := by decide
    simp [livePredicate, Expression.predicate, Expression.clauses, Expression.clauseOf, range,
      plain, named, fieldClause, Operator.operand, Argument.object?, Argument.coerce,
      Argument.coerceText, texts, Argument.isBlank]
    rfl
  refine ⟨_, success, ?_⟩
  intro pattern member
  constructor
  · simp only [List.mem_cons, List.not_mem_nil, or_false] at member
    rcases member with rfl | rfl | rfl
    · exact .entry (List.mem_cons_self ..) (.here (List.mem_cons_self ..))
    · exact .entry (List.mem_cons_of_mem _ (List.mem_cons_self ..))
        (.here (List.mem_cons_self ..))
    · exact .here (by simp)
  · intro literal
    have starts : ∀ text ∈ ["^a", "^b", "^c"],
        text.toList.head? ∉ [none, some '.', some '('] := by decide
    exact starts pattern member literal.head

end ListQuery
