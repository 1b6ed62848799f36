import ListQuery.Input.CreatedAtOrder
import ListQuery.Input.EntityFilters
import ListQuery.Predicate
import ListQuery.Query

set_option autoImplicit false

/-!
Drafts of queries. A draft records the arguments of a query as they come and is compiled by
`build`: the last filter, order and page count, and a filter that is no expression spoils the draft
for good.
-/

namespace ListQuery

inductive FilterArgument where
  | expression (expression : Expression)
  | json (value : Json)
  | user (filter : UserFilter)
  | group (filter : GroupFilter)
  | message (filter : MessageFilter)
  | conversation (filter : ConversationFilter)

namespace FilterArgument

/-- The expression that a filter stands for; only JSON may fail to be one. -/
def toExpression : FilterArgument → Except Violation Expression
  | .expression given => .ok given
  | .json value =>
    match Expression.ofJson? value with
    | some given => .ok given
    | none => .error (.expectedObject "filter")
  | .user filter => .ok filter.expression
  | .group filter => .ok filter.expression
  | .message filter => .ok filter.expression
  | .conversation filter => .ok filter.expression

end FilterArgument

structure Draft where
  options : Options := {}
  filter : Option Expression := none
  order : Option String := none
  page : Page := {}
  /-- The first filter that was no expression. -/
  fault : Option Violation := none

namespace Draft

inductive Step where
  | filter (argument : Option FilterArgument)
  | createdAt (order : Option CreatedAtOrder)
  | order (token : Option String)
  | page (page : Page)

def setFilter (draft : Draft) : Option FilterArgument → Draft
  | none => { draft with filter := none }
  | some argument =>
    match argument.toExpression with
    | .ok given => { draft with filter := some given }
    | .error violation => { draft with fault := draft.fault.or (some violation) }

def setOrder (draft : Draft) (token : Option String) : Draft := { draft with order := token }

def setPage (draft : Draft) (page : Page) : Draft := { draft with page }

def record (draft : Draft) : Step → Draft
  | .filter argument => draft.setFilter argument
  | .createdAt order => draft.setOrder (order.map CreatedAtOrder.token)
  | .order token => draft.setOrder token
  | .page page => draft.setPage page

def recordAll (draft : Draft) (steps : List Step) : Draft := steps.foldl record draft

/-- Compiles the filter, then the order. -/
def build (draft : Draft) : Except Violation Query :=
  match draft.fault with
  | some violation => .error violation
  | none => do
    let predicate ← livePredicate draft.options draft.filter
    let order ← SortKey.ofRequest draft.order
    return {
      predicate
      order
      skip := draft.page.skip
      take := draft.page.take draft.options.defaultLimit }

end Draft

end ListQuery
