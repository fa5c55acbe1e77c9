import TimeMarch.Arguments
import TimeMarch.Code

/-!
# The Machine

The machine runs the code of a state on a stack of operands. A run is a *frame*, and *resuming* a
frame carries out operations until its owner has to act: a value is emitted, the state is complete,
the step is abandoned or an error is raised. Resuming once more goes on behind that operation, also
after a failure, with the operands as the failed operation left them.

Jumps only go forward, so the operations that are left become fewer with each one carried out.
-/

namespace TimeMarch

/-- Why an operation fails. A dangling operand points beyond its table, which generated code never
does. -/
inductive MachineError where
  | undefinedVariable (name : String)
  | typeMismatch (e : ValueError)
  | stackOverflow (limit : Nat)
  | stackUnderflow
  | functionFailed (function message : String)
  | argumentResolution (function : String) (e : ArgumentError)
  | unknownState (state : Nat)
  | danglingOperand (size index : Nat)
  deriving Repr, DecidableEq

def MachineError.message : MachineError → String
  | undefinedVariable name => "variable `" ++ name ++ "` read before it was assigned"
  | typeMismatch e => e.message
  | stackOverflow limit => "operand stack exceeded " ++ toString limit ++ " values"
  | stackUnderflow => "operand stack underflow"
  | functionFailed function message => "function `" ++ function ++ "` failed: " ++ message
  | argumentResolution function e =>
    "arguments to `" ++ function ++ "` could not be bound: " ++ e.message
  | unknownState state => "no code for state index " ++ toString state
  | danglingOperand size index =>
    "index out of bounds: the len is " ++ toString size ++ " but the index is " ++ toString index

/-- What code needs from its surroundings: persistent variables and functions. -/
structure Host (σ : Type) where
  load : σ → (slot : Nat) → Option Value
  store : σ → (slot : Nat) → Value → σ
  call : σ → (function : Nat) → (positional : List Value) → (keywords : List (String × Value)) →
    Except MachineError Value × σ

/-- Why a frame hands over to its owner. -/
inductive Yield where
  | emitted (component timeId : Nat) (time : Float) (value : Value)
  | completed (next : Nat)
  | aborted
  | raised (i : Nat)

/-- What operations change: the stack with its top in front, the variables of the state, and the
successor that a transition has chosen. -/
structure Registers where
  stack : List Value := []
  locals : Array (Option Value)
  transition : Option Nat := none

/-- A run of a state; `ip` is the place of the next operation. -/
structure Frame extends Registers where
  state : Nat
  ip : Nat := 0

/-- A new run of a state. -/
def Frame.start (c : Code) (state : Nat) : Except MachineError Frame :=
  match c.state? state with
  | some s => .ok { state, locals := Array.replicate s.locals.size none }
  | none => .error (.unknownState state)

namespace Machine

variable {σ : Type}

/-- What comes after an operation: the operation behind it and so many more skipped, or the owner.
-/
inductive Turn where
  | go (skip : Nat)
  | stop (y : Yield)
  | fail (e : MachineError)

/-- Push a value, if there is room. -/
def push (limit : Nat) (r : Registers) (v : Value) : Turn × Registers :=
  if limit ≤ r.stack.length then (.fail (.stackOverflow limit), r)
  else (.go 0, { r with stack := v :: r.stack })

/-- The `n` topmost operands in the order in which they were pushed, and those below. -/
def popMany? (n : Nat) (stack : List Value) : Option (List Value × List Value) :=
  if stack.length < n then none else some ((stack.take n).reverse, stack.drop n)

/-- Call a function on the operands: values for the keywords lie on top. -/
def call (host : Host σ) (limit : Nat) (function arity : Nat) (names : List String) (r : Registers)
    (w : σ) : Turn × Registers × σ :=
  match popMany? names.length r.stack with
  | none => (.fail .stackUnderflow, r, w)
  | some (values, stack) =>
    match popMany? arity stack with
    | none => (.fail .stackUnderflow, { r with stack }, w)
    | some (positional, stack) =>
      match host.call w function positional (names.zip values) with
      | (.error e, w) => (.fail e, { r with stack }, w)
      | (.ok v, w) =>
        let (turn, r) := push limit { r with stack } v
        (turn, r, w)

/-- Carry out one operation. -/
def act (c : Code) (s : StateCode) (host : Host σ) (limit : Nat) (op : Op) (r : Registers) (w : σ) :
    Turn × Registers × σ :=
  match op with
  | .literal i =>
    match c.literals[i]? with
    | none => (.fail (.danglingOperand c.literals.size i), r, w)
    | some v =>
      let (turn, r) := push limit r v
      (turn, r, w)
  | .loadPersistent slot =>
    match host.load w slot with
    | none => (.fail (.undefinedVariable (c.persistent.name slot)), r, w)
    | some v =>
      let (turn, r) := push limit r v
      (turn, r, w)
  | .loadLocal slot =>
    match r.locals[slot]? with
    | none => (.fail (.danglingOperand r.locals.size slot), r, w)
    | some none => (.fail (.undefinedVariable (s.locals.name slot)), r, w)
    | some (some v) =>
      let (turn, r) := push limit r v
      (turn, r, w)
  | .storePersistent slot =>
    match r.stack with
    | [] => (.fail .stackUnderflow, r, w)
    | v :: stack => (.go 0, { r with stack }, host.store w slot v)
  | .storeLocal slot =>
    match r.stack with
    | [] => (.fail .stackUnderflow, r, w)
    | v :: stack =>
      if slot < r.locals.size then
        (.go 0, { r with stack, locals := r.locals.setIfInBounds slot (some v) }, w)
      else (.fail (.danglingOperand r.locals.size slot), { r with stack }, w)
  | .unary op =>
    match r.stack with
    | [] => (.fail .stackUnderflow, r, w)
    | v :: stack =>
      match v.unary op with
      | .ok a => (.go 0, { r with stack := a :: stack }, w)
      | .error e => (.fail (.typeMismatch e), { r with stack }, w)
  | .binary op =>
    match r.stack with
    | [] => (.fail .stackUnderflow, r, w)
    | [_] => (.fail .stackUnderflow, { r with stack := [] }, w)
    | b :: a :: stack =>
      match a.binary op b with
      | .ok a => (.go 0, { r with stack := a :: stack }, w)
      | .error e => (.fail (.typeMismatch e), { r with stack }, w)
  | .jumpIfFalse offset =>
    match r.stack with
    | [] => (.fail .stackUnderflow, r, w)
    | v :: stack =>
      match v.truth with
      | .ok b => (.go (if b then 0 else offset), { r with stack }, w)
      | .error e => (.fail (.typeMismatch e), { r with stack }, w)
  | .jump offset => (.go offset, r, w)
  | .call function arity none => call host limit function arity [] r w
  | .call function arity (some k) =>
    match c.keywordSets[k]? with
    | none => (.fail (.danglingOperand c.keywordSets.size k), r, w)
    | some names => call host limit function arity names r w
  | .emit component timeId =>
    match r.stack with
    | [] => (.fail .stackUnderflow, r, w)
    | [_] => (.fail .stackUnderflow, { r with stack := [] }, w)
    | v :: time :: stack =>
      match time.toScalar with
      | .ok time => (.stop (.emitted component timeId time v), { r with stack }, w)
      | .error e => (.fail (.typeMismatch e), { r with stack }, w)
  | .abort => (.stop .aborted, r, w)
  | .raise i => (.stop (.raised i), r, w)
  | .transition next => (.go 0, { r with transition := some next }, w)
  | .complete => (.stop (.completed (r.transition.getD s.next)), r, w)

/-- Run a frame of the given state until its owner has to act. -/
def resumeIn (c : Code) (s : StateCode) (host : Host σ) (limit : Nat) (f : Frame) (w : σ) :
    Except MachineError Yield × Frame × σ :=
  if h : f.ip < s.ops.size then
    match act c s host limit s.ops[f.ip] f.toRegisters w with
    | (.go skip, r, w) => resumeIn c s host limit ⟨r, f.state, f.ip + 1 + skip⟩ w
    | (.stop y, r, w) => (.ok y, ⟨r, f.state, f.ip + 1⟩, w)
    | (.fail e, r, w) => (.error e, ⟨r, f.state, f.ip + 1⟩, w)
  else (.ok (.completed (f.transition.getD s.next)), f, w)
termination_by s.ops.size - f.ip

/-- Run a frame until its owner has to act. -/
def resume (c : Code) (host : Host σ) (limit : Nat) (f : Frame) (w : σ) :
    Except MachineError Yield × Frame × σ :=
  match c.state? f.state with
  | some s => resumeIn c s host limit f w
  | none => (.error (.unknownState f.state), f, w)

end Machine

end TimeMarch
