import TimeMarch.Value

/-!
# Events

What a running stepper tells its caller: a value was emitted, or a state was completed.
-/

namespace TimeMarch

inductive Event where
  | emitted (component timeId : String) (time : Float) (value : Value)
  | stateCompleted (state : String)

namespace Event

def isEmitted : Event → Bool
  | emitted .. => true
  | stateCompleted _ => false

/-- The value of an emitted event. -/
def value? : Event → Option Value
  | emitted _ _ _ v => some v
  | stateCompleted _ => none

/-- The state of a completed one. -/
def completed? : Event → Option String
  | emitted .. => none
  | stateCompleted s => some s

def text : Event → String
  | emitted component timeId time value =>
    "emitted " ++ component ++ " = " ++ value.text ++ " at " ++ timeId ++ "=" ++
      Value.layout.write time
  | stateCompleted state => "completed " ++ state

end Event

end TimeMarch
