import ListQuery.Number.Numeral
import ListQuery.Options

set_option autoImplicit false

/-!
The settings of the service, from named variables.
-/

namespace ListQuery

structure Settings where
  defaultLimit : Int64 := 10
  rawPatterns : Bool := false
  /-- Which log events are written, where nothing else says so. -/
  logFilter : String := "parley_query=info"
  logJson : Bool := true
  deriving DecidableEq, Repr

namespace Settings

/-- Settings from the values of the variables that are there. Only the limit can be at fault. -/
def ofVariables (lookup : String → Option String) : Except NumeralFault Settings := do
  let defaults : Settings := {}
  let defaultLimit ←
    match lookup "QUERY_DEFAULT_LIMIT" with
    | some value => Number.readInt64 value.toList
    | none => .ok defaults.defaultLimit
  return {
    defaultLimit
    rawPatterns :=
      match lookup "QUERY_ALLOW_RAW_PATTERNS" with
      | some value => value = "true" || value = "1"
      | none => defaults.rawPatterns
    logFilter := (lookup "LOG_FILTER").getD defaults.logFilter
    logJson :=
      match lookup "LOG_FORMAT" with
      | some value => value != "pretty"
      | none => defaults.logJson }

def message (fault : NumeralFault) : String := "Invalid QUERY_DEFAULT_LIMIT: " ++ fault.message

def options (settings : Settings) : Options :=
  { rawPatterns := settings.rawPatterns, defaultLimit := settings.defaultLimit }

end Settings

end ListQuery
