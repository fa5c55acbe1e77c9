import Mathlib.Tactic.Common
import TimeMarch.Event
import TimeMarch.Function
import TimeMarch.Machine
import TimeMarch.Proofs.Success
import TimeMarch.Schedule

/-!
# The Meaning of Schedules

An interpreter that knows nothing of code. It walks over the steps of a schedule, takes at each
branch the arm that the condition selects, and evaluates expressions as trees over variables that
are looked up by name. What it does is what code is measured by.
-/

namespace TimeMarch

/-- Variables by name: those that outlive the step and those of the state. A transition notes the
name of the successor. -/
structure Memory where
  persistent : String → Option Value
  ofState : String → Option Value := fun _ => none
  transition : Option String := none

namespace Memory

def get? (m : Memory) (x : String) : Option Value :=
  if (Name.space x).isPersistent then m.persistent x else m.ofState x

def set (m : Memory) (x : String) (v : Value) : Memory :=
  if (Name.space x).isPersistent then
    { m with persistent := fun y => if x = y then some v else m.persistent y }
  else { m with ofState := fun y => if x = y then some v else m.ofState y }

end Memory

def Function.reply (symbol : String) (f : Option Function) (positional : List Value)
    (keywords : List (String × Value)) : Except MachineError Value :=
  match f with
  | none => .error (.functionFailed symbol "function was not resolved")
  | some f =>
    match f.call positional keywords with
    | .error e => .error (.argumentResolution symbol e)
    | .ok (.error message) => .error (.functionFailed symbol message)
    | .ok (.ok v) => .ok v

def FunctionTable.apply (t : FunctionTable) (symbol : String) (positional : List Value)
    (keywords : List (String × Value)) : Except MachineError Value :=
  Function.reply symbol (t.resolve? symbol) positional keywords

namespace Expr

mutual

/-- The value of an expression. Operands are evaluated from left to right, and of the two arms of a
conditional expression only one. -/
def eval (t : FunctionTable) (m : Memory) : Expr → Except MachineError Value
  | literal v => .ok v
  | var x => (m.get? x).elim (.error (.undefinedVariable x)) .ok
  | unary op x => do
    let v ← x.eval t m
    (v.unary op).mapError .typeMismatch
  | binary op l r => do
    let v ← l.eval t m
    let w ← r.eval t m
    (v.binary op w).mapError .typeMismatch
  | call f args keywords => do
    let positional ← evalAll t m args
    let named ← evalKeywords t m keywords
    t.apply f positional named
  | cond c y n => do
    let v ← c.eval t m
    if ← v.truth.mapError .typeMismatch then y.eval t m else n.eval t m

def evalAll (t : FunctionTable) (m : Memory) : List Expr → Except MachineError (List Value)
  | [] => .ok []
  | e :: rest => do
    let v ← e.eval t m
    return v :: (← evalAll t m rest)

def evalKeywords (t : FunctionTable) (m : Memory) :
    List (String × Expr) → Except MachineError (List (String × Value))
  | [] => .ok []
  | (name, e) :: rest => do
    let v ← e.eval t m
    return (name, v) :: (← evalKeywords t m rest)

end

end Expr

inductive Ending where
  | completed (next : String)
  | aborted
  | raised (kind message : String)
  | failed (e : MachineError)

/-- What has come of a walk, and how it ended unless it can go on. -/
structure Walk where
  events : List Event
  memory : Memory
  ending : Option Ending

namespace Walk

def stay (m : Memory) : Walk := ⟨[], m, none⟩

def andThen (w : Walk) (next : Memory → Walk) : Walk :=
  match w.ending with
  | some _ => w
  | none => { next w.memory with events := w.events ++ (next w.memory).events }

def compute {α : Type} (m : Memory) (x : Except MachineError α) (next : α → Walk) : Walk :=
  match x with
  | .ok a => next a
  | .error e => ⟨[], m, some (.failed e)⟩

lemma compute_bind {α β : Type} (m : Memory) (x : Except MachineError α)
    (f : α → Except MachineError β) (next : β → Walk) :
    compute m (x >>= f) next = compute m x fun a => compute m (f a) next := by
  cases x <;> rfl

end Walk

/-- Carry out an action. A branch by itself does nothing: it is its arms that do. -/
def Action.walk (t : FunctionTable) (m : Memory) : Action → Walk
  | assign x e => .compute m (e.eval t m) fun v => .stay (m.set x v)
  | branch _ _ _ => .stay m
  | emit time timeId e component =>
    .compute m (time.eval t m) fun time => .compute m (e.eval t m) fun v =>
      .compute m (time.toScalar.mapError .typeMismatch) fun time =>
        ⟨[.emitted component timeId time v], m, none⟩
  | abort => ⟨[], m, some .aborted⟩
  | raise kind message => ⟨[], m, some (.raised kind message)⟩
  | transition next => .stay { m with transition := some next }

def Instruction.condition? (i : Instruction) : Option Expr :=
  match i.action with
  | .branch c _ _ => some c
  | _ => none

namespace Step

mutual

def walk (t : FunctionTable) (s : InstructionSet) : Step → Memory → Walk
  | run id, m =>
    match s.get? id with
    | some i => i.action.walk t m
    | none => .stay m
  | branch id yes no, m =>
    match (s.get? id).bind Instruction.condition? with
    | some c => .compute m (do (← c.eval t m).truth.mapError .typeMismatch) fun b =>
      if b then walkAll t s yes m else walkAll t s no m
    | none => .stay m

def walkAll (t : FunctionTable) (s : InstructionSet) : List Step → Memory → Walk
  | [], m => .stay m
  | step :: rest, m => (walk t s step m).andThen (walkAll t s rest)

end

end Step

/-- Walk over the schedule of a state. Behind its last step the state is complete. -/
def State.walk (t : FunctionTable) (s : InstructionSet) (st : State) (steps : List Step)
    (m : Memory) : Walk :=
  (Step.walkAll t s steps m).andThen fun m =>
    ⟨[], m, some (.completed (m.transition.getD st.next))⟩

end TimeMarch
