import YangConstraint.Json.Basic
import YangConstraint.Settings.Basic

/-!
Settings written in JSON: an object of which all keys may be missing and unknown ones mean nothing,
or an array of the values in order, of which the last may be missing.
-/
namespace YangConstraint.Settings

def fallbackKey : String := "store-fallback"

def traceKey : String := "trace-ast"

/-- The value of a key in an object, or `missing`. A known key stands there once and
is a truth value. -/
def entry? (key : String) (missing : Bool) (entries : List (Option String × JsonValue)) :
    Option Bool :=
  match entries.filter (·.1 = some key) with
  | [] => some missing
  | [(_, .bool value)] => some value
  | _ => none

def ofJson? : JsonValue → Option Settings
  | .object entries =>
    if entries.all (·.1.isSome) then do
      let storeFallback ← entry? fallbackKey ({} : Settings).storeFallback entries
      let traceTree ← entry? traceKey ({} : Settings).traceTree entries
      return { storeFallback, traceTree }
    else none
  | .array [] => some {}
  | .array [.bool storeFallback] => some { storeFallback }
  | .array [.bool storeFallback, .bool traceTree] => some { storeFallback, traceTree }
  | _ => none

def ofText? (text : String) : Option Settings := (JsonValue.ofText? text).bind ofJson?

/-- The settings as an object. -/
def text (settings : Settings) : String :=
  let word (value : Bool) : String := if value then "true" else "false"
  "\x7b\"" ++ fallbackKey ++ "\":" ++ word settings.storeFallback ++ ",\"" ++ traceKey ++ "\":" ++
    word settings.traceTree ++ "\x7d"

end YangConstraint.Settings
