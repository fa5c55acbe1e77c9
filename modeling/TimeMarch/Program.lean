import TimeMarch.Graph.Order
import TimeMarch.Sequence

/-!
# Programs

A program is an instruction set and a state machine over it. A state is reached when its root
instructions have run, and then hands over to its successor. A program is accepted when every id and
every state that is referred to exists and the instructions that a state reaches can be ordered.
-/

namespace TimeMarch

/-- A named entry into the instructions. -/
structure State where
  name : String
  roots : List String
  next : String
  deriving Repr, DecidableEq

/-- The state that a sequence describes. A transition in the sequence decides the successor. -/
def Sequence.toState (q : Sequence) (next : String) : State :=
  ⟨q.label, q.frontier, q.transition.getD next⟩

structure Program where
  instructions : InstructionSet
  states : Roster State
  initial : String

namespace Program

def state? (p : Program) (name : String) : Option State := p.states.get? name

/-- The instructions that a state reaches, over both arms of branches. -/
def reachable? (p : Program) (name : String) : Option Roll :=
  (p.state? name).map fun s => Graph.reachable p.instructions s.roots

/-- States under their names. -/
def register (states : Roster State) (s : State) : Except BuildError (Roster State) :=
  if h : states.place? s.name = none then .ok (states.push s.name s h)
  else .error (.duplicateState s.name)

def requireInstruction (p : Program) (referrer : Referrer) (id : String) :
    Except BuildError Unit :=
  if p.instructions.contains id then .ok () else .error (.unresolvedDependency id referrer)

def requireState (p : Program) (referrer : Referrer) (name : String) : Except BuildError Unit :=
  if p.states.contains name then .ok () else .error (.unknownState name referrer)

/-- What an instruction refers to exists. -/
def checkInstruction (p : Program) (i : Instruction) : Except BuildError Unit := do
  i.references.forM (p.requireInstruction (.instruction i.id))
  match i.action with
  | .transition next => p.requireState (.instruction i.id) next
  | _ => return ()

/-- The instructions that a state reaches can be ordered, arms before their branches. -/
def checkOrder (p : Program) (s : State) : Except BuildError Unit :=
  let references id := ((p.instructions.get? id).map Instruction.references).getD []
  let rank id := (p.instructions.rank? id).getD p.instructions.size
  match Graph.order (Graph.reachable p.instructions s.roots) references rank with
  | .ok _ => .ok ()
  | .error involved => .error (.dependencyCycle s.name involved)

def checkState (p : Program) (s : State) : Except BuildError Unit := do
  p.requireState (.state s.name) s.next
  s.roots.forM (p.requireInstruction (.state s.name))
  p.checkOrder s

def check (p : Program) : Except BuildError Unit := do
  p.instructions.toList.forM p.checkInstruction
  p.requireState .initialState p.initial
  p.states.values.forM p.checkState

/-- Assemble a program, and accept it if all is well. -/
def create (instructions : InstructionSet) (states : List State) (initial : String) :
    Except BuildError Program := do
  let states ← states.foldlM register .empty
  let p : Program := { instructions, states, initial }
  p.check
  return p

/-- A program of two states: `initialization` runs once, then `primary` again and again. -/
def initAndStep (init : List String) (instructions : InstructionSet) (step : List String) :
    Except BuildError Program :=
  create instructions
    [⟨"initialization", init, "primary"⟩, ⟨"primary", step, "primary"⟩] "initialization"

/-- Programs from sequences: what each is called, its default successor and its statements. The
states stand in the order of the sequences. -/
def ofSequences (parts : List (String × String × List Statement)) (initial : String) :
    Except BuildError Program := do
  let (instructions, states) ← parts.foldlM (fun (instructions, states) (label, next, statements) =>
    do
      let q ← (Sequence.build label statements).2
      return (← InstructionSet.union instructions q.instructions, states ++ [q.toState next]))
    (.empty, [])
  create instructions states initial

end Program

end TimeMarch
