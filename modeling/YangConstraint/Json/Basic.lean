import YangConstraint.Json.Token

/-! JSON values. -/
namespace YangConstraint

inductive JsonValue where
  | null
  | bool (value : Bool)
  | number (text : String)
  | string (value : Option String)
  | array (items : List JsonValue)
  | object (entries : List (Option String × JsonValue))

namespace JsonValue

/-- A value that has been opened but not yet closed. -/
inductive Frame where
  | array (items : List JsonValue)
  | object (entries : List (Option String × JsonValue))
  /-- An object of which the last entry has only its key. -/
  | entry (entries : List (Option String × JsonValue)) (key : Option String)

/-- What may come next within a value. -/
inductive Expected where
  | value
  /-- A value, or the end of an array. -/
  | first
  | key
  /-- A key, or the end of an object. -/
  | firstKey
  | colon
  /-- A comma, or the end of an array or object. -/
  | more

inductive Progress where
  | within (expected : Expected) (frames : List Frame)
  | done (value : JsonValue)

namespace Progress

/-- Enters a complete value into the innermost open one. -/
def enter (value : JsonValue) : List Frame → Progress
  | [] => done value
  | .array items :: outer => within .more (.array (items ++ [value]) :: outer)
  | .entry entries key :: outer => within .more (.object (entries ++ [(key, value)]) :: outer)
  | .object entries :: outer => within .more (.object entries :: outer)

/-- Goes on with a token where a value is expected. -/
def open? (frames : List Frame) : JsonToken → Option Progress
  | .null => some (enter .null frames)
  | .bool value => some (enter (.bool value) frames)
  | .number text => some (enter (.number text) frames)
  | .string value => some (enter (.string value) frames)
  | .leftBracket => some (within .first (.array [] :: frames))
  | .leftBrace => some (within .firstKey (.object [] :: frames))
  | _ => none

/-- Goes on with a token, if it may come next. -/
def step? : Progress → JsonToken → Option Progress
  | done _, _ => none
  | within .value frames, token => open? frames token
  | within .first (.array items :: outer), .rightBracket => some (enter (.array items) outer)
  | within .first frames, token => open? frames token
  | within .firstKey (.object entries :: outer), .rightBrace => some (enter (.object entries) outer)
  | within .firstKey (.object entries :: outer), .string key
  | within .key (.object entries :: outer), .string key =>
    some (within .colon (.entry entries key :: outer))
  | within .colon frames, .colon => some (within .value frames)
  | within .more (.array items :: outer), .comma => some (within .value (.array items :: outer))
  | within .more (.array items :: outer), .rightBracket => some (enter (.array items) outer)
  | within .more (.object entries :: outer), .comma => some (within .key (.object entries :: outer))
  | within .more (.object entries :: outer), .rightBrace => some (enter (.object entries) outer)
  | _, _ => none

end Progress

/-- The value that a text stands for. -/
def ofText? (text : String) : Option JsonValue := do
  match ← (← JsonToken.scan? text.toList).foldlM Progress.step? (.within .value []) with
  | .done value => return value
  | .within .. => none

end JsonValue

end YangConstraint
