import TimeMarch.Code.Listing
import TimeMarch.Stepper.Stream

/-!
# Workbenches

A workbench takes a program all the way to a stepper and runs it, for trying methods out. What goes
wrong on the way there is told with the stage at which it happened.
-/

namespace TimeMarch

inductive WorkbenchError where
  | registration (e : BuildError)
  | program (e : BuildError)
  | generation (e : CodeError)
  | construction (e : StepperError)
  | setUp (e : StepperError)
  deriving Repr, DecidableEq

def WorkbenchError.message : WorkbenchError → String
  | registration e => "instruction registration failed: " ++ e.message
  | program e => "program construction failed: " ++ e.message
  | generation e => "code generation failed: " ++ e.message
  | construction e => "stepper construction failed: " ++ e.message
  | setUp e => "set_up failed: " ++ e.message

structure Workbench where
  stepper : Stepper

namespace Workbench

open Stepper (Item)

def ofProgram (p : Program) (functions : FunctionTable) : Except WorkbenchError Workbench := do
  let code ← (Code.ofProgram defaultReserved p).mapError .generation
  let stepper ← (Stepper.create code functions).mapError .construction
  return ⟨stepper⟩

/-- A workbench for instructions and the roots of the step, with nothing to do at first. -/
def initAndStep (instructions : List Instruction) (roots : List String)
    (functions : FunctionTable) : Except WorkbenchError Workbench := do
  let (_, set) ← (InstructionSet.empty.register instructions).mapError .registration
  let p ← (Program.initAndStep [] set roots).mapError .program
  ofProgram p functions

/-- Set up at time zero with step size zero. -/
def setUp (b : Workbench) (context : List (String × Float)) : Except WorkbenchError Workbench :=
  match b.stepper.setUp 0 0 (context.map fun (key, x) => (key, .scalar x)) with
  | (.ok (), stepper) => .ok ⟨stepper⟩
  | (.error e, _) => .error (.setUp e)

/-- All items of so many steps. -/
def run (b : Workbench) (steps : Nat) : List Item × Workbench :=
  let (items, stepper) := (Stepper.run steps).drain b.stepper
  (items, ⟨stepper⟩)

/-- All items of one step. -/
def step (b : Workbench) : List Item × Workbench :=
  let (stream, stepper) := b.stepper.step
  let (items, stepper) := stream.drain stepper
  (items, ⟨stepper⟩)

def listing (b : Workbench) : String := b.stepper.code.listing

/-- The number of a persistent variable. -/
def scalar? (b : Workbench) (name : String) : Option Float :=
  (b.stepper.valueOf? name).bind Value.scalar?

/-- The events among items. -/
def events (items : List Item) : List Event :=
  items.filterMap fun
    | .ok e => some e
    | .error _ => none

def emittedValues (items : List Item) : List Value := (events items).filterMap Event.value?

def completedStates (items : List Item) : List String := (events items).filterMap Event.completed?

end Workbench

end TimeMarch
