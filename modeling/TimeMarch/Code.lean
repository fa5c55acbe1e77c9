import TimeMarch.Symbols
import TimeMarch.Value

/-!
# Code

Code is one row of operations for each state and the tables that the operations index. Operations
work on a stack of operands, and jumps only go forward: an offset counts the operations that are
skipped.
-/

namespace TimeMarch

inductive Op where
  | literal (i : Nat)
  | loadPersistent (slot : Nat)
  | loadLocal (slot : Nat)
  | storePersistent (slot : Nat)
  | storeLocal (slot : Nat)
  | unary (op : UnaryOp)
  | binary (op : BinaryOp)
  | jumpIfFalse (offset : Nat)
  | jump (offset : Nat)
  | call (function arity : Nat) (keywords : Option Nat)
  | emit (component timeId : Nat)
  | abort
  | raise (i : Nat)
  | transition (state : Nat)
  | complete
  deriving Repr, DecidableEq, Inhabited

/-- The code of one state; `next` is the place of its successor. -/
structure StateCode where
  name : String
  next : Nat
  ops : Array Op
  locals : SymbolTable

/-- The tables that all states share. -/
structure Tables where
  persistent : SymbolTable := {}
  functions : SymbolTable := {}
  labels : SymbolTable := {}
  literals : Array Value := #[]
  keywordSets : Array (List String) := #[]
  raises : Array (String × String) := #[]

instance : Inhabited Tables := ⟨{}⟩

structure Code extends Tables where
  states : Roster StateCode
  initial : Nat

namespace Code

/-- The code of the state at a place. -/
def state? (c : Code) (i : Nat) : Option StateCode := c.states.entries[i]?.map Prod.snd

/-- The place of a state. -/
def stateIndex? (c : Code) (name : String) : Option Nat := c.states.place? name

/-- What the owner of code is told about the place of a state: its lower 16 bits. -/
def stateOperand? (c : Code) (name : String) : Option UInt16 :=
  (c.stateIndex? name).map Nat.toUInt16

/-- The code of the state at a place of 16 bits. -/
def stateAt? (c : Code) (i : UInt16) : Option StateCode := c.state? i.toNat

def stateName (c : Code) (i : Nat) : String := ((c.state? i).map StateCode.name).getD "?"

/-- The slot of the current time. -/
def timeSlot : Nat := 0

/-- The slot of the step size. -/
def stepSizeSlot : Nat := 1

end Code

end TimeMarch
