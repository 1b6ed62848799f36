import ListQuery.Expression
import ListQuery.Input

set_option autoImplicit false

/-!
The filters of the entities of a chat. Their fields are named by filter keys, so a filter is an
expression over those that are present, in the order of the type.
-/

namespace ListQuery

def presentTexts (fields : List (String × Option String)) : Expression :=
  fields.filterMap fun field => field.2.map fun text => (field.1, Argument.text text)

theorem mem_presentTexts_iff {held : List (String × Option String)} {key : String}
    {value : Argument} :
    (key, value) ∈ presentTexts held ↔ ∃ text, (key, some text) ∈ held ∧ value = .text text := by
  simp only [presentTexts, List.mem_filterMap, Option.map_eq_some_iff, Prod.mk.injEq, Prod.exists]
  constructor
  · rintro ⟨name, found, inside, text, rfl, rfl, rfl⟩
    exact ⟨text, inside, rfl⟩
  · rintro ⟨text, inside, rfl⟩
    exact ⟨key, some text, inside, text, rfl, rfl, rfl⟩

structure UserFilter where
  id : Option String := none
  username : Option String := none
  fullName : Option String := none
  deriving DecidableEq, Repr

namespace UserFilter

def ofJson (value : Json) : Except InputFault UserFilter := do
  let fields ← value.fields
  let id ← Input.optional Json.id? fields "id"
  let username ← Input.optional Json.text? fields "username_regex"
  let fullName ← Input.optional Json.text? fields "fullName_regex"
  return { id, username, fullName }

def expression (filter : UserFilter) : Expression :=
  presentTexts
    [("id", filter.id), ("username_regex", filter.username), ("fullName_regex", filter.fullName)]

end UserFilter

structure GroupFilter where
  id : Option String := none
  name : Option String := none
  description : Option String := none
  /-- Only groups that have this user for a member. -/
  member : String
  deriving DecidableEq, Repr

namespace GroupFilter

def ofJson (value : Json) : Except InputFault GroupFilter := do
  let fields ← value.fields
  let id ← Input.optional Json.id? fields "id"
  let name ← Input.optional Json.text? fields "name_regex"
  let description ← Input.optional Json.text? fields "description_regex"
  let member ← Input.required Json.id? fields "memberIds_has"
  return { id, name, description, member }

def expression (filter : GroupFilter) : Expression :=
  presentTexts
    [("id", filter.id), ("name_regex", filter.name), ("description_regex", filter.description),
      ("memberIds_has", some filter.member)]

end GroupFilter

structure MessageFilter where
  id : Option String := none
  content : Option String := none
  deriving DecidableEq, Repr

namespace MessageFilter

def ofJson (value : Json) : Except InputFault MessageFilter := do
  let fields ← value.fields
  let id ← Input.optional Json.id? fields "id"
  let content ← Input.optional Json.text? fields "content_regex"
  return { id, content }

def expression (filter : MessageFilter) : Expression :=
  presentTexts [("id", filter.id), ("content_regex", filter.content)]

end MessageFilter

structure ConversationFilter where
  user1Id : Option String := none
  user2Id : Option String := none
  deriving DecidableEq, Repr

namespace ConversationFilter

def ofJson (value : Json) : Except InputFault ConversationFilter := do
  let fields ← value.fields
  let user1Id ← Input.optional Json.id? fields "user1Id"
  let user2Id ← Input.optional Json.id? fields "user2Id"
  return { user1Id, user2Id }

def expression (filter : ConversationFilter) : Expression :=
  presentTexts [("user1Id", filter.user1Id), ("user2Id", filter.user2Id)]

end ConversationFilter

end ListQuery
