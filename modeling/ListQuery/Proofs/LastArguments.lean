import ListQuery.Draft

set_option autoImplicit false

/-!
What a run of steps makes of a draft. Of each argument the last step that sets it counts, a filter
as the expression that `FilterArgument.writtenOut?` gives for its form, and a filter that is no
expression spoils the run wherever it stands. `Draft.build_recordAll` says with that what every run
builds, and which steps may change places or be left out.
-/

namespace ListQuery

/-- How many records a query skips and takes under a page. -/
structure Page.Bounds (page : Page) (defaultLimit skip take : Int64) : Prop where
  skip : skip.toInt = (page.offset.map Int32.toInt).getD 0
  given : ∀ limit, page.limit = some limit → limit ≠ 0 → take.toInt = limit.toInt
  unlimited : page.limit = none ∨ page.limit = some 0 → take = defaultLimit

namespace Page

theorem toInt_skip (page : Page) : page.skip.toInt = (page.offset.map Int32.toInt).getD 0 := by
  unfold skip
  cases page.offset with
  | none => rfl
  | some offset => exact Int32.toInt_toInt64 offset

theorem take_of_unlimited {page : Page} (unlimited : page.limit = none ∨ page.limit = some 0)
    (defaultLimit : Int64) : page.take defaultLimit = defaultLimit := by
  unfold take
  rcases unlimited with missing | zero
  · rw [missing]
  · simp only [zero, if_true]

theorem take_of_limit {page : Page} {limit : Int32} (given : page.limit = some limit)
    (nonzero : limit ≠ 0) (defaultLimit : Int64) : page.take defaultLimit = limit.toInt64 := by
  simp only [take, given, if_neg nonzero]

theorem bounds_iff {page : Page} {defaultLimit skip take : Int64} :
    page.Bounds defaultLimit skip take ↔ skip = page.skip ∧ take = page.take defaultLimit := by
  constructor
  · intro bounds
    have start : skip = page.skip := by
      apply Int64.toInt_inj.mp
      rw [bounds.skip, toInt_skip]
    refine ⟨start, ?_⟩
    cases given : page.limit with
    | none =>
      have unlimited : page.limit = none ∨ page.limit = some 0 := Or.inl given
      rw [bounds.unlimited unlimited, take_of_unlimited unlimited]
    | some limit =>
      by_cases zero : limit = 0
      · have unlimited : page.limit = none ∨ page.limit = some 0 := Or.inr (zero ▸ given)
        rw [bounds.unlimited unlimited, take_of_unlimited unlimited]
      · apply Int64.toInt_inj.mp
        rw [bounds.given limit given zero, take_of_limit given zero, Int32.toInt_toInt64]
  · rintro ⟨rfl, rfl⟩
    refine ⟨toInt_skip page, ?_, fun unlimited => take_of_unlimited unlimited defaultLimit⟩
    intro limit given nonzero
    rw [take_of_limit given nonzero, Int32.toInt_toInt64]

end Page

def entryOf (name : String) (field : Option String) : Expression :=
  field.toList.map fun text => (name, .text text)

namespace FilterArgument

/-- The expression that a filter is, written out form by form. Of JSON null and objects are one. A
filter with a type has an entry for each field that is there, in the order of the type. -/
def writtenOut? : FilterArgument → Option Expression
  | .expression given => some given
  | .json .null => some []
  | .json (.object entries) => some (entries.map fun entry => (entry.1, Argument.ofJson entry.2))
  | .json _ => none
  | .user filter =>
    some (entryOf "id" filter.id ++ entryOf "username_regex" filter.username ++
      entryOf "fullName_regex" filter.fullName)
  | .group filter =>
    some (entryOf "id" filter.id ++ entryOf "name_regex" filter.name ++
      entryOf "description_regex" filter.description ++ [("memberIds_has", .text filter.member)])
  | .message filter => some (entryOf "id" filter.id ++ entryOf "content_regex" filter.content)
  | .conversation filter =>
    some (entryOf "user1Id" filter.user1Id ++ entryOf "user2Id" filter.user2Id)

theorem toOption_toExpression (argument : FilterArgument) :
    argument.toExpression.toOption = argument.writtenOut? := by
  cases argument with
  | expression given => rfl
  | json value =>
    cases value with
    | object entries => exact congrArg some (Argument.ofJsonEntries_eq_map entries)
    | null | bool | integer | float | text | array => rfl
  | user filter =>
    obtain ⟨id, username, fullName⟩ := filter
    cases id <;> cases username <;> cases fullName <;> rfl
  | group filter =>
    obtain ⟨id, name, description, member⟩ := filter
    cases id <;> cases name <;> cases description <;> rfl
  | message filter =>
    obtain ⟨id, content⟩ := filter
    cases id <;> cases content <;> rfl
  | conversation filter =>
    obtain ⟨user1Id, user2Id⟩ := filter
    cases user1Id <;> cases user2Id <;> rfl

end FilterArgument

theorem CreatedAtOrder.token_eq :
    token = fun order =>
      if order.direction = .ascending then "createdAt_ASC" else "createdAt_DESC" := by
  funext order
  rcases order with ⟨_ | _⟩ <;> rfl

namespace Draft

namespace Step

inductive Kind where
  | filter
  | order
  | page
  deriving DecidableEq

def kind : Step → Kind
  | .filter _ => .filter
  | .createdAt _ | .order _ => .order
  | .page _ => .page

/-- The step brings JSON for a filter that is neither an object nor null. -/
def IsUnfit (step : Step) : Prop :=
  ∃ value, step = .filter (some (.json value)) ∧ value ≠ .null ∧ ∀ entries, value ≠ .object entries

/-- The filter that the step sets, which may be none. -/
def filterSet? : Step → Option (Option Expression)
  | .filter none => some none
  | .filter (some argument) => argument.writtenOut?.map some
  | _ => none

def orderSet? : Step → Option (Option String)
  | .createdAt requested => some (requested.map fun order =>
      if order.direction = .ascending then "createdAt_ASC" else "createdAt_DESC")
  | .order token => some token
  | _ => none

def pageSet? : Step → Option Page
  | .page given => some given
  | _ => none

def fault? : Step → Option Violation
  | .filter (some argument) =>
    match argument.toExpression with
    | .ok _ => none
    | .error violation => some violation
  | _ => none

/-- Only JSON can be unfit, and the violation names the filter as a whole. -/
theorem fault?_eq_some_iff {step : Step} {violation : Violation} :
    step.fault? = some violation ↔ step.IsUnfit ∧ violation = .expectedObject "filter" := by
  constructor
  · intro found
    unfold fault? at found
    split at found
    · rename_i argument
      cases argument with
      | json value =>
        cases value with
        | null | object => cases found
        | bool | integer | float | text | array =>
          cases found
          exact ⟨⟨_, rfl, nofun, nofun⟩, rfl⟩
      | expression | user | group | message | conversation => cases found
    · cases found
  · rintro ⟨⟨value, rfl, present, shape⟩, rfl⟩
    cases value with
    | null => exact absurd rfl present
    | object entries => exact absurd rfl (shape entries)
    | bool | integer | float | text | array => rfl

theorem fault?_eq_none_iff {step : Step} : step.fault? = none ↔ ¬ step.IsUnfit := by
  rw [Option.eq_none_iff_forall_not_mem]
  simp only [Option.mem_def, fault?_eq_some_iff]
  exact ⟨fun none unfit => none _ ⟨unfit, rfl⟩, fun fit _ found => fit found.1⟩

theorem isSome_filterSet?_iff {step : Step} :
    step.filterSet?.isSome = true ↔ step.kind = .filter ∧ ¬ step.IsUnfit := by
  rw [← fault?_eq_none_iff]
  cases step with
  | filter argument =>
    cases argument with
    | none => simp [filterSet?, kind, fault?]
    | some argument =>
      simp only [filterSet?, kind, fault?, true_and, ← argument.toOption_toExpression]
      cases argument.toExpression <;> simp [Except.toOption]
  | createdAt order => simp [filterSet?, kind]
  | order token => simp [filterSet?, kind]
  | page page => simp [filterSet?, kind]

theorem isSome_orderSet?_iff {step : Step} :
    step.orderSet?.isSome = true ↔ step.kind = .order := by
  cases step <;> simp [orderSet?, kind]

theorem isSome_pageSet?_iff {step : Step} : step.pageSet?.isSome = true ↔ step.kind = .page := by
  cases step <;> simp [pageSet?, kind]

end Step

/-- What the last of the steps sets that sets anything under the reading. -/
def last {α : Type} (reading : Step → Option α) (steps : List Step) : Option α :=
  steps.reverse.findSome? reading

section Last

variable {α : Type} {reading : Step → Option α}

theorem last_append (first second : List Step) :
    last reading (first ++ second) = (last reading second).or (last reading first) := by
  unfold last
  rw [List.reverse_append, List.findSome?_append]

theorem last_cons (step : Step) (rest : List Step) :
    last reading (step :: rest) = (last reading rest).or (reading step) := by
  have single : last reading [step] = reading step := by
    cases set : reading step <;> simp [last, set]
  rw [← single, ← last_append, List.singleton_append]

theorem isSome_last {step : Step} {steps : List Step} (inside : step ∈ steps)
    (sets : (reading step).isSome = true) : (last reading steps).isSome = true := by
  unfold last
  rw [List.findSome?_isSome_iff]
  exact ⟨step, List.mem_reverse.mpr inside, sets⟩

theorem last_filter {keep : Step → Bool} {steps : List Step}
    (idle : ∀ step ∈ steps, keep step = false → reading step = none) :
    last reading (steps.filter keep) = last reading steps := by
  induction steps with
  | nil => rfl
  | cons step rest ih =>
    have later : last reading (rest.filter keep) = last reading rest := by
      apply ih
      intro other inside
      exact idle other (List.mem_cons_of_mem _ inside)
    cases kept : keep step with
    | true => rw [List.filter_cons_of_pos kept, last_cons, last_cons, later]
    | false =>
      have nothing : reading step = none := idle step (List.mem_cons_self ..) kept
      rw [List.filter_cons_of_neg (by simp [kept]), last_cons, later, nothing, Option.or_none]

end Last

/-- The filter that the last step of its kind sets; without one, or with none set, there is none. -/
def lastFilter (steps : List Step) : Option Expression := (last Step.filterSet? steps).getD none

def lastOrder (steps : List Step) : Option String := (last Step.orderSet? steps).getD none

def lastPage (steps : List Step) : Page := (last Step.pageSet? steps).getD {}

/-- A step sets the argument that it is about and leaves the others. -/
theorem record_eq (draft : Draft) (step : Step) :
    draft.record step =
      { options := draft.options
        filter := step.filterSet?.getD draft.filter
        order := step.orderSet?.getD draft.order
        page := step.pageSet?.getD draft.page
        fault := draft.fault.or step.fault? } := by
  cases step with
  | filter argument =>
    cases argument with
    | none => simp [record, setFilter, Step.filterSet?, Step.orderSet?, Step.pageSet?, Step.fault?]
    | some argument =>
      simp only [record, setFilter, Step.filterSet?, Step.orderSet?, Step.pageSet?, Step.fault?,
        ← argument.toOption_toExpression]
      cases argument.toExpression <;> simp [Except.toOption]
  | createdAt order =>
    simp [record, setOrder, Step.filterSet?, Step.orderSet?, Step.pageSet?, Step.fault?,
      CreatedAtOrder.token_eq]
  | order token =>
    simp [record, setOrder, Step.filterSet?, Step.orderSet?, Step.pageSet?, Step.fault?]
  | page page =>
    simp [record, setPage, Step.filterSet?, Step.orderSet?, Step.pageSet?, Step.fault?]

/-- A run sets each argument as the last step about it does, and keeps the first fault. -/
theorem recordAll_eq (draft : Draft) (steps : List Step) :
    draft.recordAll steps =
      { options := draft.options
        filter := (last Step.filterSet? steps).getD draft.filter
        order := (last Step.orderSet? steps).getD draft.order
        page := (last Step.pageSet? steps).getD draft.page
        fault := draft.fault.or (steps.findSome? Step.fault?) } := by
  induction steps generalizing draft with
  | nil => simp [recordAll, last]
  | cons step rest ih =>
    have first : (step :: rest).findSome? Step.fault? =
        step.fault?.or (rest.findSome? Step.fault?) := by
      rw [List.findSome?_cons]
      cases step.fault? <;> rfl
    calc draft.recordAll (step :: rest)
      _ = (draft.record step).recordAll rest := rfl
      _ = _ := by
        rw [ih, record_eq]
        simp only [last_cons, Option.getD_or, first, Option.or_assoc]

/-- What a run of steps builds. -/
inductive Outcome (options : Options) (steps : List Step) : Except Violation Query → Prop
  | unfit : (∃ step ∈ steps, step.IsUnfit) →
    Outcome options steps (.error (.expectedObject "filter"))
  | filter {violation : Violation} : (∀ step ∈ steps, ¬ step.IsUnfit) →
    livePredicate options (lastFilter steps) = .error violation →
    Outcome options steps (.error violation)
  | order {predicate : Document} {token : String} : (∀ step ∈ steps, ¬ step.IsUnfit) →
    livePredicate options (lastFilter steps) = .ok predicate →
    lastOrder steps = some token → SortKey.ofToken? token = none →
    Outcome options steps (.error (.invalidOrder token))
  | query {predicate : Document} {order : Option SortKey} {skip take : Int64} :
    (∀ step ∈ steps, ¬ step.IsUnfit) →
    livePredicate options (lastFilter steps) = .ok predicate →
    SortKey.ofRequest (lastOrder steps) = .ok order →
    (lastPage steps).Bounds options.defaultLimit skip take →
    Outcome options steps (.ok { predicate, order, skip, take })

end Draft

theorem SortKey.ofRequest_eq_error_iff {request : Option String} {violation : Violation} :
    ofRequest request = .error violation ↔
      ∃ token, request = some token ∧ ofToken? token = none ∧ violation = .invalidOrder token := by
  cases request with
  | none => simp [ofRequest]
  | some token =>
    simp only [ofRequest, Option.some.injEq]
    cases read : ofToken? token with
    | none => simp [read, eq_comm]
    | some key => simp [read]

namespace Draft

section Outcome

variable {options : Options} {steps : List Step}

theorem findSome?_fault?_of_unfit (unfit : ∃ step ∈ steps, step.IsUnfit) :
    steps.findSome? Step.fault? = some (.expectedObject "filter") := by
  obtain ⟨step, inside, own⟩ := unfit
  have spoilt : (steps.findSome? Step.fault?).isSome = true := by
    rw [List.findSome?_isSome_iff]
    refine ⟨step, inside, ?_⟩
    rw [Step.fault?_eq_some_iff.mpr ⟨own, rfl⟩]
    rfl
  obtain ⟨violation, found⟩ := Option.isSome_iff_exists.mp spoilt
  obtain ⟨other, -, named⟩ := List.exists_of_findSome?_eq_some found
  rw [found, (Step.fault?_eq_some_iff.mp named).2]

theorem findSome?_fault?_eq_none_iff :
    steps.findSome? Step.fault? = none ↔ ∀ step ∈ steps, ¬ step.IsUnfit := by
  simp only [List.findSome?_eq_none_iff, Step.fault?_eq_none_iff]

theorem build_of_unfit (unfit : ∃ step ∈ steps, step.IsUnfit) :
    (recordAll { options } steps).build = .error (.expectedObject "filter") := by
  rw [recordAll_eq, findSome?_fault?_of_unfit unfit]
  rfl

theorem build_of_fit (fit : ∀ step ∈ steps, ¬ step.IsUnfit) :
    (recordAll { options } steps).build = do
      let predicate ← livePredicate options (lastFilter steps)
      let order ← SortKey.ofRequest (lastOrder steps)
      return {
        predicate
        order
        skip := (lastPage steps).skip
        take := (lastPage steps).take options.defaultLimit } := by
  rw [recordAll_eq, findSome?_fault?_eq_none_iff.mpr fit]
  rfl

theorem build_of_outcome {result : Except Violation Query}
    (outcome : Outcome options steps result) : (recordAll { options } steps).build = result := by
  cases outcome with
  | unfit unfit => exact build_of_unfit unfit
  | filter fit refused =>
    rw [build_of_fit fit, refused]
    rfl
  | order fit success requested invalid =>
    have refused : SortKey.ofRequest (lastOrder steps) = .error (.invalidOrder _) :=
      SortKey.ofRequest_eq_error_iff.mpr ⟨_, requested, invalid, rfl⟩
    rw [build_of_fit fit, success, refused]
    rfl
  | query fit success read bounds =>
    obtain ⟨rfl, rfl⟩ := Page.bounds_iff.mp bounds
    rw [build_of_fit fit, success, read]
    rfl

theorem exists_outcome (options : Options) (steps : List Step) :
    ∃ result, Outcome options steps result := by
  by_cases unfit : ∃ step ∈ steps, step.IsUnfit
  · exact ⟨_, .unfit unfit⟩
  · have fit : ∀ step ∈ steps, ¬ step.IsUnfit := by
      intro step inside own
      exact unfit ⟨step, inside, own⟩
    cases success : livePredicate options (lastFilter steps) with
    | error violation => exact ⟨_, .filter fit success⟩
    | ok predicate =>
      cases read : SortKey.ofRequest (lastOrder steps) with
      | error violation =>
        obtain ⟨token, requested, invalid, -⟩ := SortKey.ofRequest_eq_error_iff.mp read
        exact ⟨_, .order fit success requested invalid⟩
      | ok order => exact ⟨_, .query fit success read (Page.bounds_iff.mpr ⟨rfl, rfl⟩)⟩

theorem build_eq_iff_outcome {result : Except Violation Query} :
    (recordAll { options } steps).build = result ↔ Outcome options steps result := by
  constructor
  · rintro rfl
    obtain ⟨result, outcome⟩ := exists_outcome options steps
    rw [build_of_outcome outcome]
    exact outcome
  · exact build_of_outcome

theorem livePredicate_of_build {query : Query}
    (success : (recordAll { options } steps).build = .ok query) :
    livePredicate options (lastFilter steps) = .ok query.predicate := by
  cases build_eq_iff_outcome.mp success with
  | query fit live => exact live

/-- Runs build the same if both are spoilt, or neither and their last arguments are the same. -/
theorem build_congr {others : List Step}
    (unfit : (∃ step ∈ steps, step.IsUnfit) ↔ ∃ step ∈ others, step.IsUnfit)
    (filter : (∀ step ∈ steps, ¬ step.IsUnfit) → lastFilter steps = lastFilter others)
    (order : lastOrder steps = lastOrder others) (page : lastPage steps = lastPage others) :
    (recordAll { options } steps).build = (recordAll { options } others).build := by
  by_cases spoilt : ∃ step ∈ steps, step.IsUnfit
  · rw [build_of_unfit spoilt, build_of_unfit (unfit.mp spoilt)]
  · have fit : ∀ step ∈ steps, ¬ step.IsUnfit := by
      intro step inside own
      exact spoilt ⟨step, inside, own⟩
    have others : ∀ step ∈ others, ¬ step.IsUnfit := by
      intro step inside own
      exact spoilt (unfit.mpr ⟨step, inside, own⟩)
    rw [build_of_fit fit, build_of_fit others, filter fit, order, page]

end Outcome

theorem record_comm (draft : Draft) {first second : Step} (different : first.kind ≠ second.kind) :
    (draft.record first).record second = (draft.record second).record first := by
  simp only [record_eq]
  cases first <;> cases second
  case filter.filter | createdAt.createdAt | createdAt.order | order.createdAt | order.order |
      page.page =>
    exact absurd rfl different
  all_goals simp [Step.filterSet?, Step.orderSet?, Step.pageSet?, Step.fault?]

theorem recordAll_swap (draft : Draft) (before : List Step) {first second : Step}
    (different : first.kind ≠ second.kind) (after : List Step) :
    draft.recordAll (before ++ first :: second :: after) =
      draft.recordAll (before ++ second :: first :: after) := by
  simp only [recordAll, List.foldl_append, List.foldl_cons, record_comm _ different]

/-- A step is of no account if it sets nothing, or if a later step sets the same. -/
theorem last_erase {α : Type} {reading : Step → Option α} {first second : Step}
    (overruled : reading first = none ∨ (reading second).isSome = true)
    (before between after : List Step) :
    last reading (before ++ first :: (between ++ second :: after)) =
      last reading (before ++ (between ++ second :: after)) := by
  rw [last_append, last_append before, last_cons]
  rcases overruled with idle | sets
  · rw [idle, Option.or_none]
  · have later : (last reading (between ++ second :: after)).isSome = true :=
      isSome_last (by simp) sets
    obtain ⟨value, found⟩ := Option.isSome_iff_exists.mp later
    rw [found]
    rfl

theorem build_erase {options : Options} {first second : Step} (same : first.kind = second.kind)
    (fit : ¬ first.IsUnfit) (before between after : List Step) :
    (recordAll { options } (before ++ first :: (between ++ second :: after))).build =
      (recordAll { options } (before ++ (between ++ second :: after))).build := by
  -- For orders and pages the kind decides; a filter may be unfit and then sets nothing.
  have overruled {α : Type} {reading : Step → Option α} {kind : Step.Kind}
      (sets : ∀ step, (reading step).isSome = true ↔ step.kind = kind) :
      reading first = none ∨ (reading second).isSome = true := by
    by_cases about : first.kind = kind
    · exact Or.inr ((sets second).mpr (same ▸ about))
    · left
      rw [← Option.not_isSome_iff_eq_none, sets]
      exact about
  have order : lastOrder _ = lastOrder _ := congrArg (fun set => set.getD none)
    (last_erase (overruled fun _ => Step.isSome_orderSet?_iff) before between after)
  have page : lastPage _ = lastPage _ := congrArg (fun set => set.getD {})
    (last_erase (overruled fun _ => Step.isSome_pageSet?_iff) before between after)
  refine build_congr ?_ ?_ order page
  · constructor
    · rintro ⟨step, inside, own⟩
      have other : step ≠ first := by
        rintro rfl
        exact fit own
      refine ⟨step, ?_, own⟩
      simpa [other] using inside
    · rintro ⟨step, inside, own⟩
      refine ⟨step, ?_, own⟩
      simp only [List.mem_append, List.mem_cons] at inside ⊢
      exact inside.imp_right Or.inr
  · intro sound
    have later : ¬ second.IsUnfit := sound second (by simp)
    have filter : first.filterSet? = none ∨ second.filterSet?.isSome = true := by
      by_cases about : first.kind = .filter
      · exact Or.inr (Step.isSome_filterSet?_iff.mpr ⟨same ▸ about, later⟩)
      · left
        rw [← Option.not_isSome_iff_eq_none, Step.isSome_filterSet?_iff]
        exact fun sets => about sets.1
    exact congrArg (fun set => set.getD none) (last_erase filter before between after)

theorem last_filterSet?_of_kind {steps : List Step} (apart : ∀ step ∈ steps, step.kind ≠ .filter) :
    last Step.filterSet? steps = none := by
  unfold last
  rw [List.findSome?_eq_none_iff]
  intro step inside
  rw [← Option.not_isSome_iff_eq_none, Step.isSome_filterSet?_iff]
  exact fun sets => apart step (List.mem_reverse.mp inside) sets.1

theorem build_takeBack {options : Options} {steps : List Step}
    (fit : ∀ step ∈ steps, ¬ step.IsUnfit) :
    (recordAll { options } (steps ++ [.filter none])).build =
      (recordAll { options } (steps.filter fun step => step.kind ≠ .filter)).build := by
  have idle {α : Type} {reading : Step → Option α} {kind : Step.Kind} (other : kind ≠ .filter)
      (sets : ∀ step, (reading step).isSome = true ↔ step.kind = kind) :
      last reading (steps ++ [.filter none]) =
        last reading (steps.filter fun step => step.kind ≠ .filter) := by
    have nothing : ∀ step : Step, step.kind = .filter → reading step = none := by
      intro step about
      rw [← Option.not_isSome_iff_eq_none, sets, about]
      exact other.symm
    have final : last reading [.filter none] = none := by
      rw [last_cons, nothing _ rfl]
      rfl
    rw [last_append, final, Option.none_or, last_filter]
    intro step _ dropped
    exact nothing step (by simpa using dropped)
  have whole : ∀ step ∈ steps ++ [.filter none], ¬ step.IsUnfit := by
    intro step inside own
    rcases List.mem_append.mp inside with here | last
    · exact fit step here own
    · obtain ⟨value, equal, -⟩ := own
      rw [List.mem_singleton.mp last] at equal
      cases equal
  have kept : ∀ step ∈ steps.filter fun step => step.kind ≠ .filter, ¬ step.IsUnfit := by
    intro step inside
    exact fit step (List.mem_filter.mp inside).1
  have unset : last Step.filterSet? (steps.filter fun step => step.kind ≠ .filter) = none := by
    apply last_filterSet?_of_kind
    intro step inside
    simpa using (List.mem_filter.mp inside).2
  apply build_congr
  · constructor
    · rintro ⟨step, inside, own⟩
      exact absurd own (whole step inside)
    · rintro ⟨step, inside, own⟩
      exact absurd own (kept step inside)
  · intro _
    rw [lastFilter, lastFilter, last_append, unset]
    rfl
  · exact congrArg (fun set => set.getD none)
      (idle (by decide) fun _ => Step.isSome_orderSet?_iff)
  · exact congrArg (fun set => set.getD {}) (idle (by decide) fun _ => Step.isSome_pageSet?_iff)

/-- A run builds its outcome: an unfit filter spoils it at any place, and else the last filter, the
last order and the last page count, with violations of the filter before those of the order. So
steps about different arguments may change places, a step is of no account before another about the
same argument, unless it is unfit, and a filter can be taken back. -/
theorem build_recordAll (options : Options) :
    (∀ steps result,
      (recordAll { options } steps).build = result ↔ Outcome options steps result) ∧
    (∀ before first second after, first.kind ≠ second.kind →
      (recordAll { options } (before ++ first :: second :: after)).build =
        (recordAll { options } (before ++ second :: first :: after)).build) ∧
    (∀ before first between second after, first.kind = second.kind → ¬ first.IsUnfit →
      (recordAll { options } (before ++ first :: (between ++ second :: after))).build =
        (recordAll { options } (before ++ (between ++ second :: after))).build) ∧
    (∀ steps, (∀ step ∈ steps, ¬ step.IsUnfit) →
      (recordAll { options } (steps ++ [.filter none])).build =
        (recordAll { options } (steps.filter fun step => step.kind ≠ .filter)).build) := by
  refine ⟨fun steps result => build_eq_iff_outcome, ?_, ?_, fun steps => build_takeBack⟩
  · intro before first second after different
    rw [recordAll_swap _ before different after]
  · intro before first between second after same fit
    exact build_erase same fit before between after

/-- A filter that would be refused makes way for one conversation, whatever the form of that filter,
and one that is no expression spoils the run though the filter is taken back after it. -/
theorem build_recordAll_of_replaced_filter :
    (∀ argument ∈ [FilterArgument.expression [("user1Id", .text "u1")],
        .json (.object [("user1Id", .text "u1")]), .conversation { user1Id := some "u1" }],
      (recordAll {} ([.page ⟨some 0, some 7⟩] ++ .filter (some (.expression [("a_in", .int 1)])) ::
          ([.order (some "createdAt_DESC")] ++ .filter (some argument) :: []))).build =
        .ok ⟨[("user1Id", .text "u1"), ("deletedAt", .document [("isSet", .bool false)])],
          some ⟨"createdAt", .descending⟩, 7, 10⟩) ∧
    (recordAll {} [.order (some "up"), .filter (some (.json (.text "a"))), .filter none]).build =
      .error (.expectedObject "filter") ∧
    (recordAll {} ([.order none] ++ .page {} :: .filter (some (.user {})) :: [])).build =
      (recordAll {} ([.order none] ++ .filter (some (.user {})) :: .page {} :: [])).build ∧
    (recordAll {} ([.filter (some (.expression [("a_in", .int 1)]))] ++ [.filter none])).build =
      (recordAll {} []).build := by
  obtain ⟨outcome, swap, erase, takeBack⟩ := build_recordAll {}
  have expression : ¬ Step.IsUnfit (.filter (some (.expression [("a_in", .int 1)]))) :=
    Step.fault?_eq_none_iff.mp rfl
  refine ⟨?_, ?_, ?_, ?_⟩
  · intro argument form
    have replaced := erase [.page ⟨some 0, some 7⟩]
      (.filter (some (.expression [("a_in", .int 1)]))) [.order (some "createdAt_DESC")]
      (.filter (some argument)) [] rfl expression
    rw [replaced, outcome]
    have written : argument.writtenOut? = some [("user1Id", .text "u1")] := by
      revert argument
      simp [FilterArgument.writtenOut?, entryOf, Argument.ofJson]
    have filter : lastFilter ([Step.page ⟨some 0, some 7⟩] ++ ([.order (some "createdAt_DESC")] ++
        [.filter (some argument)])) = some [("user1Id", .text "u1")] := by
      simp [lastFilter, last, Step.filterSet?, written]
    have fit : ∀ step ∈ [Step.page ⟨some 0, some 7⟩] ++ ([.order (some "createdAt_DESC")] ++
        [.filter (some argument)]), ¬ step.IsUnfit := by
      have own : ¬ Step.IsUnfit (.filter (some argument)) :=
        (Step.isSome_filterSet?_iff.mp (by simp [Step.filterSet?, written])).2
      intro step inside
      simp only [List.mem_append, List.mem_singleton] at inside
      rcases inside with rfl | rfl | rfl
      · exact Step.fault?_eq_none_iff.mp rfl
      · exact Step.fault?_eq_none_iff.mp rfl
      · exact own
    have token : SortKey.ofToken? "createdAt_DESC" = some ⟨"createdAt", .descending⟩ := by decide
    have order : SortKey.ofRequest (some "createdAt_DESC") =
        .ok (some ⟨"createdAt", .descending⟩) := by rw [SortKey.ofRequest, token]
    have live : livePredicate {} (some [("user1Id", .text "u1")]) =
        .ok [("user1Id", .text "u1"), ("deletedAt", .document [("isSet", .bool false)])] := by
      have plain : Key.parse "user1Id" = .field "user1Id" none := by cbv
      have texts : holdsReferences "user1Id" = false := by decide
      simp [livePredicate, Expression.predicate, Expression.clauses, Expression.clauseOf, plain,
        fieldClause, Argument.coerce, Argument.coerceText, texts, Argument.isBlank]
      rfl
    refine .query fit ?_ ?_ ?_
    · rw [filter, live]
    · exact order
    · exact Page.bounds_iff.mpr ⟨rfl, rfl⟩
  · have unfit : Step.IsUnfit (.filter (some (.json (.text "a")))) :=
      (Step.fault?_eq_some_iff.mp rfl).1
    rw [outcome]
    exact .unfit ⟨_, List.mem_cons_of_mem _ (List.mem_cons_self ..), unfit⟩
  · exact swap [.order none] (.page {}) (.filter (some (.user {}))) [] (by decide)
  · apply takeBack
    exact List.forall_mem_singleton.mpr expression

end Draft

end ListQuery
