import ListQuery.Proofs.JsonPassage

set_option autoImplicit false

/-!
The two ways of predicates and orders to JSON. A format that writes JSON as `Encoder.WritesJson` says
takes every operand (`Operand.encode_eq_ok`), and what it makes of documents with each key once, of
sort keys and of queries is what `toJson` builds of them (`Query.encodings_agree`).
-/

namespace ListQuery

/-- JSON as a format that may refuse parts: it takes each part of a document as it is, or as null if
JSON has no such number, and puts the entries of a mapping one by one into an object. -/
structure Encoder.WritesJson {ε : Type} (encoder : Encoder (Except ε Json)) : Prop where
  null : encoder.null = .ok .null
  bool (value : Bool) : encoder.bool value = .ok (.bool value)
  int (value : Int64) : encoder.int value = .ok (.integer value.toInt)
  finite (value : Binary64) : value.isFinite = true → encoder.float value = .ok (.float value)
  notFinite (value : Binary64) : value.isFinite = false → encoder.float value = .ok .null
  text (value : String) : encoder.text value = .ok (.text value)
  sequence (items : List Json) : encoder.sequence (items.map .ok) = .ok (.array items)
  mapping (entries : List (String × Json)) :
    encoder.mapping (entries.map fun entry => (entry.1, .ok entry.2)) =
      .ok (.object (Mapping.ofEntries entries))

/-- Refuses a sequence or a mapping with the first part of it that was refused, and no other. -/
def Json.strictEncoder (ε : Type) : Encoder (Except ε Json) where
  null := .ok .null
  bool value := .ok (.bool value)
  int value := .ok (.integer value.toInt)
  float value := .ok (if value.isFinite then .float value else .null)
  text value := .ok (.text value)
  sequence items := (items.mapM id).map .array
  mapping entries :=
    (entries.mapM fun (entry : String × Except ε Json) => entry.2.map (Prod.mk entry.1)).map
      fun parts => .object (Mapping.ofEntries parts)

theorem mapM_map_eq_ok {ε α β : Type} (write : α → β) (read : β → Except ε α)
    (each : ∀ item, read (write item) = .ok item) (items : List α) :
    (items.map write).mapM read = .ok items := by
  have back : read ∘ write = fun item => pure (id item) := funext each
  rw [List.mapM_map, back, List.mapM_pure, List.map_id]
  rfl

theorem Json.writesJson_strictEncoder (ε : Type) : (strictEncoder ε).WritesJson where
  null := rfl
  bool _ := rfl
  int _ := rfl
  finite _ finite := by simp only [strictEncoder, finite, if_true]
  notFinite _ infinite := by simp [strictEncoder, infinite]
  text _ := rfl
  sequence items :=
    congrArg (Except.map Json.array) (mapM_map_eq_ok Except.ok id (fun _ => rfl) items)
  mapping entries :=
    congrArg (Except.map fun parts => Json.object (Mapping.ofEntries parts))
      (mapM_map_eq_ok (fun entry : String × Json => (entry.1, Except.ok entry.2))
        (fun entry => entry.2.map (Prod.mk entry.1)) (fun _ => rfl) entries)

section

variable {ε : Type} {encoder : Encoder (Except ε Json)}

theorem Identifier.encode_eq_ok (json : encoder.WritesJson) (id : Identifier) :
    id.encode encoder = .ok id.toJson := by
  rw [encode, json.text]
  exact json.mapping [("$oid", .text id.toHex)]

namespace Operand

mutual

/-- The format refuses no operand, and makes of it what the encoder of JSON does. -/
theorem encode_eq_ok (json : encoder.WritesJson) : ∀ operand : Operand,
    operand.encode encoder = .ok (operand.encode Json.encoder)
  | .null => json.null
  | .bool value => json.bool value
  | .int value => json.int value
  | .text value => json.text value
  | .reference id => id.encode_eq_ok json
  | .float value => by
    rw [encode, encode]
    cases finite : value.isFinite with
    | true => simp [json.finite value finite, Json.encoder, finite]
    | false => simp [json.notFinite value finite, Json.encoder, finite]
  | .array items => by
    rw [encode, encodeItems_eq_ok json items]
    exact json.sequence _
  | .document entries => by
    rw [encode, encodeEntries_eq_ok json entries]
    exact json.mapping _

theorem encodeItems_eq_ok (json : encoder.WritesJson) : ∀ items : List Operand,
    encodeItems encoder items = (encodeItems Json.encoder items).map .ok
  | [] => rfl
  | item :: rest => by
    rw [encodeItems, encode_eq_ok json item, encodeItems_eq_ok json rest]
    rfl

theorem encodeEntries_eq_ok (json : encoder.WritesJson) : ∀ entries : List (String × Operand),
    encodeEntries encoder entries =
      (encodeEntries Json.encoder entries).map fun entry => (entry.1, .ok entry.2)
  | [] => rfl
  | (key, value) :: rest => by
    rw [encodeEntries, encode_eq_ok json value, encodeEntries_eq_ok json rest]
    rfl

end

end Operand

theorem Document.encode_eq_ok (json : encoder.WritesJson) {document : Document}
    (wellFormed : document.WellFormed) : document.encode encoder = .ok document.toJson := by
  have operand := Operand.encode_eq_ok json (.document document)
  rw [Operand.encode_eq_toJson wellFormed] at operand
  exact operand

theorem SortKey.encode_eq_ok (json : encoder.WritesJson) (key : SortKey) :
    key.encode encoder = .ok key.toJson := by
  rw [encode, json.text, Direction.label_eq_word]
  exact json.mapping [(key.field, .text key.direction.word)]

end

namespace Query

def jsonEntries (query : Query) : List (String × Json) :=
  ("where", query.predicate.toJson) ::
    ((query.order.map fun key => ("orderBy", key.toJson)).toList ++
      [("skip", .integer query.skip.toInt), ("take", .integer query.take.toInt)])

theorem distinct_jsonEntries (query : Query) : Mapping.Distinct query.jsonEntries := by
  cases order : query.order <;> simp [jsonEntries, order, Mapping.Distinct]

theorem encode_eq_ok {ε : Type} {encoder : Encoder (Except ε Json)} (json : encoder.WritesJson)
    {query : Query} (wellFormed : query.predicate.WellFormed) :
    query.encode encoder = .ok (.object query.jsonEntries) := by
  have whole := json.mapping query.jsonEntries
  rw [Mapping.ofEntries_of_distinct query.distinct_jsonEntries] at whole
  rw [← whole, encode, Document.encode_eq_ok json wellFormed]
  cases order : query.order with
  | none => simp [jsonEntries, order, json.int]
  | some key => simp [jsonEntries, order, json.int, key.encode_eq_ok json]

/-- The format of JSON refuses no operand and no document, whatever numbers it holds, and makes of
it what `toJson` builds, where documents hold each key once. It makes of a sort key what `toJson`
builds too. So a query has its predicate and its order, built that way, under `where` and
`orderBy`, and no `orderBy` without an order. -/
theorem encodings_agree {ε : Type} {encoder : Encoder (Except ε Json)}
    (json : encoder.WritesJson) :
    (∀ operand : Operand, operand.encode encoder = .ok (operand.encode Json.encoder) ∧
      (operand.WellFormed → operand.encode encoder = .ok operand.toJson)) ∧
    (∀ document : Document, document.WellFormed →
      document.encode encoder = .ok document.toJson) ∧
    (∀ key : SortKey, key.encode encoder = .ok key.toJson) ∧
    ∀ query : Query, query.predicate.WellFormed →
      ∃ entries, query.encode encoder = .ok (.object entries) ∧
        Mapping.get? entries "where" = some query.predicate.toJson ∧
        Mapping.get? entries "orderBy" = query.order.map SortKey.toJson ∧
        ("orderBy" ∈ Mapping.keys entries ↔ query.order ≠ none) := by
  refine ⟨?_, fun _ => Document.encode_eq_ok json, SortKey.encode_eq_ok json, ?_⟩
  · intro operand
    have taken := operand.encode_eq_ok json
    refine ⟨taken, fun wellFormed => ?_⟩
    rw [taken, Operand.encode_eq_toJson wellFormed]
  · intro query wellFormed
    refine ⟨query.jsonEntries, encode_eq_ok json wellFormed, rfl, ?_, ?_⟩
    · cases order : query.order <;> simp [jsonEntries, order, Mapping.get?]
    · cases order : query.order <;> simp [jsonEntries, order]

/-- No number and an identifier, in a query with an order and in one without. -/
theorem encodings_agree_of_nested :
    (Json.strictEncoder String).WritesJson ∧
    ∃ (id : Identifier) (query : Query), query.predicate.WellFormed ∧
      query.predicate = [("a", .document [("$ne", .float Binary64.nan)]),
        ("b", .array [.reference id, .document [], .null])] ∧
      (∃ entries, query.encode (Json.strictEncoder String) = .ok (.object entries) ∧
        Mapping.get? entries "where" = some (.object [("a", .object [("$ne", .null)]),
          ("b", .array [.object [("$oid", .text id.toHex)], .object [], .null])]) ∧
        Mapping.get? entries "orderBy" = some (.object [("createdAt", .text "desc")])) ∧
      ∃ entries, Query.encode (Json.strictEncoder String) { query with order := none } =
        .ok (.object entries) ∧ "orderBy" ∉ Mapping.keys entries := by
  have json := Json.writesJson_strictEncoder String
  let id : Identifier := ⟨List.replicate 12 7, rfl⟩
  let query : Query :=
    { predicate := [("a", .document [("$ne", .float Binary64.nan)]),
        ("b", .array [.reference id, .document [], .null])]
      order := some ⟨"createdAt", .descending⟩
      skip := 0
      take := 10 }
  have wellFormed : query.predicate.WellFormed := by decide
  obtain ⟨-, -, -, queries⟩ := encodings_agree json
  refine ⟨json, id, query, wellFormed, rfl, ?_, ?_⟩
  · obtain ⟨entries, encoded, predicate, order, -⟩ := queries query wellFormed
    exact ⟨entries, encoded, predicate, order⟩
  · obtain ⟨entries, encoded, -, -, absent⟩ := queries { query with order := none } wellFormed
    exact ⟨entries, encoded, fun inside => absent.mp inside rfl⟩

end Query

end ListQuery
