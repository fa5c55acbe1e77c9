import TimeMarch.Event
import TimeMarch.Json.Reader

/-!
# Events as JSON

An event is an object with a tag and the event's fields; a value is an object with one member, named
for the kind of value. In reading, fields may come in any order and unknown ones are passed over,
but none that is known may be missing or repeated. An event may also be an array: the tag and then
the fields in order.
-/

namespace TimeMarch

namespace Value

def jsonText : Value → String
  | scalar x => Json.objectText [("Scalar", Json.layout.write x)]
  | bool b => Json.objectText [("Bool", if b then "true" else "false")]
  | vector xs => Json.objectText [("Vector", Json.arrayText (xs.map Json.layout.write))]

/-- The number of a JSON value. -/
def number? : Json → Option Float
  | .number x => some x
  | _ => none

def ofJson? : Json → Option Value
  | .object [("Scalar", .number x)] => some (.scalar x)
  | .object [("Bool", .bool b)] => some (.bool b)
  | .object [("Vector", .array items)] => (items.mapM number?).map .vector
  | _ => none

def ofText? (text : String) : Option Value := (Json.ofText? text).bind ofJson?

end Value

namespace Event

def jsonText : Event → String
  | emitted component timeId time value =>
    Json.objectText [("event", Json.quote "emitted"), ("component_id", Json.quote component),
      ("time_id", Json.quote timeId), ("time", Json.layout.write time), ("value", value.jsonText)]
  | stateCompleted state =>
    Json.objectText [("event", Json.quote "state_completed"), ("state_name", Json.quote state)]

/-- The fields of an event with the given tag, in order. -/
def fieldNames? : String → Option (List String)
  | "emitted" => some ["component_id", "time_id", "time", "value"]
  | "state_completed" => some ["state_name"]
  | _ => none

/-- The one member of a name. -/
def only? (members : List (String × Json)) (name : String) : Option Json :=
  match members.filter fun m => m.1 = name with
  | [(_, v)] => some v
  | _ => none

/-- The event with the given tag and fields. -/
def ofFields? : String → List Json → Option Event
  | "emitted", [.string component, .string timeId, .number time, value] =>
    (Value.ofJson? value).map fun v => .emitted component timeId time v
  | "state_completed", [.string state] => some (.stateCompleted state)
  | _, _ => none

def ofJson? : Json → Option Event
  | .object members => do
    let .string tag ← only? members "event" | none
    let fields ← (← fieldNames? tag).mapM (only? members)
    ofFields? tag fields
  | .array (.string tag :: fields) => ofFields? tag fields
  | _ => none

def ofText? (text : String) : Option Event := (Json.ofText? text).bind ofJson?

end Event

end TimeMarch
