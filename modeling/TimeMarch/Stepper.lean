import TimeMarch.Code.Lowering
import TimeMarch.Event
import TimeMarch.Function
import TimeMarch.Machine
import TimeMarch.Storage

/-!
# Steppers

A stepper carries a method through its state machine. It owns the persistent variables and the
functions of the host. A step runs the current state once; when the state is complete, its successor
becomes the current state. An abandoned step can be tried again, any other failure ends the run
until the stepper is set up anew.
-/

namespace TimeMarch

structure StepperConfig where
  /-- Whether set-up refuses keys that name no persistent variable. -/
  strictContext : Bool := false
  /-- How many operands an expression may have on the stack. -/
  stackLimit : Nat := 256
  deriving Repr, DecidableEq

/-- Why a stepper cannot be made or set up. -/
inductive StepperError where
  | missingFunction (name : String)
  | unknownContextVariable (name : String)
  | noStack
  | code (e : CodeError)
  deriving Repr, DecidableEq

def StepperError.message : StepperError → String
  | missingFunction name =>
    "function `" ++ name ++ "` is referenced by the program but missing from the function table"
  | unknownContextVariable name =>
    "context variable `" ++ name ++ "` is not a persistent variable of the program"
  | noStack => "invalid stepper configuration: operand_stack_limit must be > 0"
  | code e => e.message

/-- Why a step does not complete its state. A dangling raise names an error that is not in the
table, which generated code never does. -/
inductive StepError where
  | stepFailed (state : String)
  | raised (kind message : String)
  | execution (e : MachineError)
  | notSetUp
  | terminated
  | danglingRaise
  deriving Repr, DecidableEq

def StepError.message : StepError → String
  | stepFailed state => "step failed in state `" ++ state ++ "`"
  | raised kind message => kind ++ ": " ++ message
  | execution e => e.message
  | notSetUp => "stepper used before set_up"
  | terminated => "stepper terminated by an earlier fatal error"
  | danglingRaise => "vm bug: raise index out of range"

/-- Only an abandoned step can be tried again. -/
def StepError.isRecoverable : StepError → Bool
  | stepFailed _ => true
  | _ => false

structure Stepper where
  code : Code
  /-- The functions that the code calls, by their slots. -/
  functions : Array Function
  config : StepperConfig
  storage : Storage
  /-- The place of the current state, once the stepper is set up. -/
  current : Option Nat := none
  terminated : Bool := false

namespace Stepper

/-- A stepper for code whose functions are all in the table. -/
def create (code : Code) (functions : FunctionTable) (config : StepperConfig := {}) :
    Except StepperError Stepper := do
  if config.stackLimit = 0 then throw .noStack
  let resolved ← code.functions.toList.mapM fun (name, _) =>
    match functions.resolve? name with
    | some f => .ok f
    | none => .error (.missingFunction name)
  return { code, functions := resolved.toArray, config, storage := .ofSize code.persistent.size }

/-- A stepper for a program. -/
def ofProgram (p : Program) (functions : FunctionTable) : Except StepperError Stepper := do
  match Code.ofProgram defaultReserved p with
  | .ok code => create code functions
  | .error e => throw (.code e)

/-- Keys without a tag name solution components. -/
def contextName (key : String) : String :=
  if key.toList.head? = some '<' then key else stateTag ++ key

/-- Put the values of a context into storage; a key that is not strict and names nothing is passed
over. The storage is returned as far as it was filled. -/
def fill (code : Code) (strict : Bool) : List (String × Value) → Storage →
    Except StepperError Unit × Storage
  | [], storage => (.ok (), storage)
  | (key, v) :: rest, storage =>
    match code.persistent.slot? (contextName key) with
    | some slot => fill code strict rest (storage.set slot v)
    | none =>
      if strict then (.error (.unknownContextVariable (contextName key)), storage)
      else fill code strict rest storage

/-- Forget all variables, set the time, the step size and the context, and enter the initial state.
When the context is refused, the variables are left as they are by then. -/
def setUp (s : Stepper) (time stepSize : Float) (context : List (String × Value)) :
    Except StepperError Unit × Stepper :=
  let storage := (s.storage.clear.set Code.timeSlot (.scalar time)).set Code.stepSizeSlot
    (.scalar stepSize)
  match fill s.code s.config.strictContext context storage with
  | (.error e, storage) => (.error e, { s with storage })
  | (.ok (), storage) =>
    (.ok (), { s with storage, current := some s.code.initial, terminated := false })

/-- The name of the current state. -/
def currentState? (s : Stepper) : Option String :=
  (s.current.bind s.code.state?).map StateCode.name

def time? (s : Stepper) : Option Float := (s.storage.get? Code.timeSlot).bind Value.scalar?

def stepSize? (s : Stepper) : Option Float := (s.storage.get? Code.stepSizeSlot).bind Value.scalar?

def setStepSize (s : Stepper) (stepSize : Float) : Stepper :=
  { s with storage := s.storage.set Code.stepSizeSlot (.scalar stepSize) }

/-- The value of a persistent variable, named as in a context. -/
def valueOf? (s : Stepper) (name : String) : Option Value :=
  (s.code.persistent.slot? (contextName name)).bind s.storage.get?

/-- Call a function of the host by its slot. -/
def callFunction (code : Code) (functions : Array Function) (function : Nat)
    (positional : List Value) (keywords : List (String × Value)) : Except MachineError Value :=
  let name := code.functions.name function
  match functions[function]? with
  | none => .error (.functionFailed name "function was not resolved")
  | some f =>
    match f.call positional keywords with
    | .error e => .error (.argumentResolution name e)
    | .ok (.error message) => .error (.functionFailed name message)
    | .ok (.ok v) => .ok v

/-- A stepper's storage and functions, as the machine sees them. -/
def host (code : Code) (functions : Array Function) : Host Storage where
  load storage slot := storage.get? slot
  store storage slot v := storage.set slot v
  call storage function positional keywords :=
    (callFunction code functions function positional keywords, storage)

/-- How far a step is. -/
inductive Progress where
  | running (f : Frame)
  | failed (e : StepError)
  | done

/-- Begin a step. If the current state has no code, the run ends here. -/
def start (s : Stepper) : Progress × Stepper :=
  if s.terminated then (.failed .terminated, s)
  else match s.current with
    | none => (.failed .notSetUp, s)
    | some state =>
      match Frame.start s.code state with
      | .ok f => (.running f, s)
      | .error e => (.failed (.execution e), { s with terminated := true })

/-- What a stepper tells its caller. -/
abbrev Item := Except StepError Event

/-- What a yield of the given state means for the stepper. -/
def react (s : Stepper) (f : Frame) : Except MachineError Yield → Item × Progress × Stepper
  | .ok (.emitted component timeId time value) =>
    (.ok (.emitted (s.code.labels.name component) (s.code.labels.name timeId) time value),
      .running f, s)
  | .ok (.completed next) =>
    (.ok (.stateCompleted (((s.code.state? f.state).map StateCode.name).getD "")), .done,
      { s with current := some next })
  | .ok .aborted =>
    (.error (.stepFailed (((s.code.state? f.state).map StateCode.name).getD "")), .done, s)
  | .ok (.raised i) =>
    (match s.code.raises[i]? with
      | some (kind, message) => .error (.raised kind message)
      | none => .error .danglingRaise, .done, { s with terminated := true })
  | .error e => (.error (.execution e), .done, { s with terminated := true })

/-- Carry a step on to its next item, if it has one. -/
def advance (s : Stepper) : Progress → Option Item × Progress × Stepper
  | .running f =>
    let (result, f, storage) :=
      Machine.resume s.code (host s.code s.functions) s.config.stackLimit f s.storage
    let (item, progress, s) := react { s with storage } f result
    (some item, progress, s)
  | .failed e => (some (.error e), .done, s)
  | .done => (none, .done, s)

end Stepper

end TimeMarch
