import ListQuery.Proofs.EntityFields
import ListQuery.Proofs.LastArguments

set_option autoImplicit false

/-!
Queries by the filters of entities. A filter that was read from an object builds the query that the
fields of the object build as a filter without a type (`Entity.build_filterOfJson`). A filter of
groups asks for its member unless that is the empty text (`GroupFilter.build_member`).
-/

namespace ListQuery

/-- Queries that differ in the order of the fields of the predicate only. -/
structure Query.Rearranged (first second : Query) : Prop where
  predicate : first.predicate.Perm second.predicate
  order : first.order = second.order
  skip : first.skip = second.skip
  take : first.take = second.take

namespace Draft

/-- Steps around a filter that leave it and ask for an order that can be read, or for none. -/
structure Surrounds (before after : List Step) : Prop where
  apart : ∀ step ∈ before ++ after, step.kind ≠ .filter
  order : ∀ token, lastOrder (before ++ after) = some token → (SortKey.ofToken? token).isSome = true

section Surrounds

variable {before after : List Step}

theorem last_surrounded {α : Type} {reading : Step → Option α} (step : Step)
    (idle : last reading after = none ∨ reading step = none) :
    last reading (before ++ step :: after) =
      (reading step).or (last reading (before ++ after)) := by
  rw [last_append, last_cons, last_append]
  rcases idle with later | own
  · rw [later, Option.none_or, Option.none_or]
  · rw [own, Option.or_none, Option.none_or]

theorem Surrounds.fit (surrounds : Surrounds before after) {argument : FilterArgument}
    {expression : Expression} (given : argument.toExpression = .ok expression) :
    ∀ step ∈ before ++ .filter (some argument) :: after, ¬ step.IsUnfit := by
  have sound : ¬ Step.IsUnfit (.filter (some argument)) := by
    rw [← Step.fault?_eq_none_iff, Step.fault?, given]
  intro step inside unfit
  have about : step.kind = .filter := by
    obtain ⟨value, rfl, -⟩ := unfit
    rfl
  simp only [List.mem_append, List.mem_cons] at inside
  rcases inside with early | own | late
  · exact surrounds.apart step (List.mem_append_left _ early) about
  · exact sound (own ▸ unfit)
  · exact surrounds.apart step (List.mem_append_right _ late) about

theorem Surrounds.lastFilter_eq (surrounds : Surrounds before after) {argument : FilterArgument}
    {expression : Expression} (given : argument.toExpression = .ok expression) :
    lastFilter (before ++ .filter (some argument) :: after) = some expression := by
  have later : last Step.filterSet? after = none := by
    apply last_filterSet?_of_kind
    intro step inside
    exact surrounds.apart step (List.mem_append_right _ inside)
  have sets : Step.filterSet? (.filter (some argument)) = some (some expression) := by
    rw [Step.filterSet?, ← argument.toOption_toExpression, given]
    rfl
  rw [lastFilter, last_surrounded _ (Or.inl later), sets, Option.some_or, Option.getD_some]

theorem lastOrder_surrounded (argument : Option FilterArgument) :
    lastOrder (before ++ .filter argument :: after) = lastOrder (before ++ after) := by
  rw [lastOrder, last_surrounded _ (Or.inr rfl)]
  rfl

theorem lastPage_surrounded (argument : Option FilterArgument) :
    lastPage (before ++ .filter argument :: after) = lastPage (before ++ after) := by
  rw [lastPage, last_surrounded _ (Or.inr rfl)]
  rfl

/-- The query of a filter among steps that leave it. Only the predicate depends on the filter. -/
theorem Surrounds.exists_build (surrounds : Surrounds before after) (options : Options) :
    ∃ order, ∀ argument expression predicate, argument.toExpression = .ok expression →
      livePredicate options (some expression) = .ok predicate →
      (recordAll { options } (before ++ .filter (some argument) :: after)).build = .ok {
        predicate
        order
        skip := (lastPage (before ++ after)).skip
        take := (lastPage (before ++ after)).take options.defaultLimit } := by
  have readable : ∃ order, SortKey.ofRequest (lastOrder (before ++ after)) = .ok order := by
    cases requested : lastOrder (before ++ after) with
    | none => exact ⟨none, rfl⟩
    | some token =>
      obtain ⟨key, read⟩ := Option.isSome_iff_exists.mp (surrounds.order token requested)
      exact ⟨some key, by rw [SortKey.ofRequest, read]⟩
  obtain ⟨order, read⟩ := readable
  refine ⟨order, ?_⟩
  intro argument expression predicate given success
  rw [build_of_fit (surrounds.fit given), surrounds.lastFilter_eq given, lastOrder_surrounded,
    lastPage_surrounded, success, read]
  rfl

end Surrounds

end Draft

namespace Entity

/-- A filter that was read from an object gives a query, which is that of the known fields of the
object as a filter without a type. It is that of the object itself, up to the order of fields in the
predicate, if the object knows no other fields and writes identifiers as texts. -/
theorem build_filterOfJson (entity : Entity) (options : Options) {entries : Mapping Json}
    {argument : FilterArgument} (parsed : entity.filterOfJson (.object entries) = .ok argument)
    {before after : List Draft.Step} (surrounds : Draft.Surrounds before after) :
    ∃ query,
      (Draft.recordAll { options } (before ++ .filter (some argument) :: after)).build =
        .ok query ∧
      (Draft.recordAll { options }
        (before ++ .filter (some (.json (.object (entity.knownFields entries)))) :: after)).build =
          .ok query ∧
      (entity.Exact entries → ∃ other,
        (Draft.recordAll { options }
          (before ++ .filter (some (.json (.object entries))) :: after)).build = .ok other ∧
        query.Rearranged other) := by
  obtain ⟨given, admits⟩ := toExpression_of_filterOfJson parsed
  obtain ⟨live, success, exactly⟩ := livePredicate_knownFields options admits
  obtain ⟨order, build⟩ := surrounds.exists_build options
  refine ⟨_, build argument _ live given success, build _ _ live rfl success, ?_⟩
  intro plain
  obtain ⟨other, found, perm⟩ := exactly plain
  exact ⟨_, build _ _ other rfl found, ⟨perm, rfl, rfl, rfl⟩⟩

/-- Nulls and the order of keys are of no account, a number for an identifier is its digits, and
other fields are ignored. -/
theorem build_filterOfJson_of_group :
    (∃ query other,
      (Draft.recordAll {} ([] ++
        .filter (some (.group { member := "u1", name := some "rust" })) :: [])).build = .ok query ∧
      query.predicate = [("name", .document [("contains", .text "rust"),
        ("mode", .text "insensitive")]), ("memberIds", .document [("has", .text "u1")]),
        ("deletedAt", .document [("isSet", .bool false)])] ∧
      (Draft.recordAll {} ([] ++ .filter (some (.json (.object [("memberIds_has", .text "u1"),
        ("description_regex", .null), ("name_regex", .text "rust")]))) :: [])).build = .ok other ∧
      query.Rearranged other) ∧
    ∃ query,
      (Draft.recordAll {} ([] ++
        .filter (some (.conversation { user2Id := some "-7" })) :: [])).build = .ok query ∧
      query.predicate =
        [("user2Id", .text "-7"), ("deletedAt", .document [("isSet", .bool false)])] ∧
      (Draft.recordAll {} ([] ++
        .filter (some (.json (.object [("user2Id", .text "-7")]))) :: [])).build = .ok query := by
  have surrounds : Draft.Surrounds [] [] := ⟨by decide, nofun⟩
  constructor
  · let entries : Mapping Json := [("memberIds_has", .text "u1"), ("description_regex", .null),
      ("name_regex", .text "rust")]
    have plain : Entity.group.Exact entries := by
      constructor
      · decide
      · decide
      · simp [entries]
    have parsed : Entity.group.filterOfJson (.object entries) =
        .ok (.group { member := "u1", name := some "rust" }) := rfl
    obtain ⟨query, typed, -, untyped⟩ := build_filterOfJson .group {} parsed surrounds
    obtain ⟨other, found, same⟩ := untyped plain
    refine ⟨query, other, typed, ?_, found, same⟩
    have live : livePredicate {} (some [("name_regex", .text "rust"),
        ("memberIds_has", .text "u1")]) = .ok [("name", .document [("contains", .text "rust"),
          ("mode", .text "insensitive")]), ("memberIds", .document [("has", .text "u1")]),
          ("deletedAt", .document [("isSet", .bool false)])] := by
      have name : Key.parse "name_regex" = .field "name" (some .containsAnyCase) := by cbv
      have member : Key.parse "memberIds_has" = .field "memberIds" (some .member) := by cbv
      simp [livePredicate, Expression.predicate, Expression.clauses, Expression.clauseOf, name,
        member, fieldClause, Operator.operand, Operator.textOperand, Argument.toText?,
        Argument.verbatim, Argument.isBlank]
      rfl
    exact Except.ok.inj ((Draft.livePredicate_of_build typed).symm.trans live)
  · have parsed : Entity.conversation.filterOfJson (.object [("user2Id", .integer (-7)),
        ("user1Id", .null), ("user3Id", .bool true)]) =
        .ok (.conversation { user2Id := some "-7" }) := rfl
    obtain ⟨query, typed, known, -⟩ := build_filterOfJson .conversation {} parsed surrounds
    have live : livePredicate {} (some [("user2Id", .text "-7")]) =
        .ok [("user2Id", .text "-7"), ("deletedAt", .document [("isSet", .bool false)])] := by
      have plain : Key.parse "user2Id" = .field "user2Id" none := by cbv
      have texts : holdsReferences "user2Id" = false := by decide
      simp [livePredicate, Expression.predicate, Expression.clauses, Expression.clauseOf, plain,
        fieldClause, Argument.coerce, Argument.coerceText, texts, Argument.isBlank]
      rfl
    have asked := Except.ok.inj ((Draft.livePredicate_of_build typed).symm.trans live)
    exact ⟨query, typed, asked, known⟩

end Entity

namespace GroupFilter

variable {options : Options} {filter : GroupFilter} {read : List Clause}

theorem admits (filter : GroupFilter) : Entity.group.Admits filter.expression :=
  Entity.admits_presentTexts rfl

theorem mem_expression_member_iff {value : Argument} :
    ("memberIds_has", value) ∈ filter.expression ↔ value = .text filter.member := by
  simp [expression, mem_presentTexts_iff]

theorem eq_of_target_eq_memberField {key : String} (inside : key ∈ Entity.group.names)
    (target : (Key.parse key).target = memberField) : key = "memberIds_has" := by
  revert key
  decide

theorem clauseOf_member {member : String} (present : member ≠ "") :
    Expression.clauseOf options "memberIds_has" (.text member) =
      .ok (some (memberField, .document (Document.single "has" (.text member)))) := by
  have parsed : Key.parse "memberIds_has" = .field "memberIds" (some .member) := by decide
  have solid : (Argument.text member).isBlank = false := by
    simpa [Argument.isBlank] using present
  exact Expression.clauseOf_of_operator solid parsed rfl

theorem memberField_notMem_keys (success : Expression.clauses options filter.expression = .ok read)
    (missing : filter.member = "") : memberField ∉ Mapping.keys (read ++ liveClause) := by
  rw [keys_append_liveClause, Expression.keys_clauses success]
  intro inside
  rcases List.mem_append.mp inside with asked | deletion
  · obtain ⟨⟨key, value⟩, member, target⟩ := List.mem_map.mp asked
    obtain ⟨given, solid⟩ := List.mem_filter.mp member
    have name : key ∈ Entity.group.names := filter.admits.keys.subset (List.mem_map_of_mem given)
    -- The only field about the members is that of the member, and its text is blank.
    obtain rfl := eq_of_target_eq_memberField name target
    rw [mem_expression_member_iff.mp given, missing] at solid
    cases solid
  · revert deletion
    decide

/-- A filter of groups gives a query, which asks for the member unless it is the empty text: then
nothing is asked of the members. -/
theorem build_member (filter : GroupFilter) (options : Options) {before after : List Draft.Step}
    (surrounds : Draft.Surrounds before after) :
    ∃ query,
      (Draft.recordAll { options } (before ++ .filter (some (.group filter)) :: after)).build =
        .ok query ∧
      Mapping.get? query.predicate memberField =
        if filter.member = "" then none
        else some (.document (Document.single "has" (.text filter.member))) := by
  obtain ⟨read, success, distinct⟩ :=
    Entity.exists_clauses_of_admits filter.admits options
  obtain ⟨order, build⟩ := surrounds.exists_build options
  refine ⟨_, build _ _ _ rfl (livePredicate_of_distinct success distinct), ?_⟩
  split
  · rename_i missing
    exact (Mapping.get?_eq_none_iff _ _).mpr (memberField_notMem_keys success missing)
  · rename_i present
    have clause := Expression.mem_clauses success (mem_expression_member_iff.mpr rfl)
      (clauseOf_member present)
    exact Mapping.get?_of_mem distinct (List.mem_append_left _ clause)

theorem build_member_of_name :
    ∃ query,
      (Draft.recordAll {} ([.page { limit := some 5 }] ++
        .filter (some (.group { member := "u1", name := some "rust" })) ::
          [.order (some "createdAt_DESC")])).build = .ok query ∧
      Mapping.get? query.predicate "memberIds" = some (.document [("has", .text "u1")]) := by
  have surrounds :
      Draft.Surrounds [.page { limit := some 5 }] [.order (some "createdAt_DESC")] := by
    constructor
    · decide
    · intro token requested
      obtain rfl : "createdAt_DESC" = token := Option.some.inj requested
      decide
  exact build_member { member := "u1", name := some "rust" } {} surrounds

/-- Without a member, every group is listed. -/
theorem member_not_asked :
    ¬ ∃ query,
      (Draft.recordAll {} [.filter (some (.group { member := "" }))]).build = .ok query ∧
      Mapping.get? query.predicate memberField =
        some (.document (Document.single "has" (.text ""))) := by
  rintro ⟨query, success, asked⟩
  have every : (Draft.recordAll {} [.filter (some (.group { member := "" }))]).build =
      .ok ⟨liveClause, none, 0, 10⟩ := rfl
  obtain rfl := Except.ok.inj (success.symm.trans every)
  cases asked

end GroupFilter

end ListQuery
