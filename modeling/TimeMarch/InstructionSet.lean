import TimeMarch.BuildError
import TimeMarch.Instruction
import TimeMarch.Name
import TimeMarch.Roster
import Std.Data.TreeSet

/-!
# Instruction Sets

Instructions are registered under their ids, in an order that later breaks ties between instructions
that do not depend on each other. They come in batches: the ids that are given are checked first,
the anonymous instructions are then named so that they clash with nothing, and either the whole
batch is registered or nothing is.
-/

namespace TimeMarch

/-- Instructions in the order of registration, each under its own id. -/
structure InstructionSet where
  roster : Roster Instruction
  id_eq : ∀ e ∈ roster.toList, e.2.id = e.1

namespace InstructionSet

def empty : InstructionSet := ⟨.empty, by simp⟩

instance : Inhabited InstructionSet := ⟨empty⟩

def size (s : InstructionSet) : Nat := s.roster.size

def ids (s : InstructionSet) : List String := s.roster.keys

def toList (s : InstructionSet) : List Instruction := s.roster.values

def get? (s : InstructionSet) (id : String) : Option Instruction := s.roster.get? id

def contains (s : InstructionSet) (id : String) : Bool := s.roster.contains id

/-- When an instruction was registered, counted from zero. -/
def rank? (s : InstructionSet) (id : String) : Option Nat := s.roster.place? id

/-- Register an instruction under an id that is free. -/
def push (s : InstructionSet) (i : Instruction) (h : s.roster.place? i.id = none) :
    InstructionSet where
  roster := s.roster.push i.id i h
  id_eq := by
    intro e he
    rw [Roster.toList_push, List.mem_append, List.mem_singleton] at he
    rcases he with he | rfl
    · exact s.id_eq e he
    · rfl

/-- Register an instruction, unless its id is taken. -/
def add (s : InstructionSet) (i : Instruction) : Except BuildError InstructionSet :=
  if h : s.roster.place? i.id = none then .ok (s.push i h) else .error (.duplicateId i.id)

/-- Register the instructions of a list one after the other. -/
def addAll (s : InstructionSet) (l : List Instruction) : Except BuildError InstructionSet :=
  l.foldlM add s

/-- The instructions of `s` and behind them those of `t`. -/
def union (s t : InstructionSet) : Except BuildError InstructionSet := s.addAll t.toList

/-- The ids that a batch gives, checked in order: each is new and does not depend on itself. -/
def givenIds (s : InstructionSet) (batch : List Instruction) :
    Except BuildError (Std.TreeSet String) :=
  (batch.filter Instruction.hasId).foldlM (fun given i => do
    if s.contains i.id || given.contains i.id then throw (.duplicateId i.id)
    if i.id ∈ i.dependsOn then throw (.selfDependency i.id)
    return given.insert i.id) ∅

/-- Name the anonymous instructions of a batch by the tag of their action. `taken` holds the ids
that the batch gives and those already handed out. -/
def named (s : InstructionSet) (taken : Std.TreeSet String) (batch : List Instruction) :
    Array Instruction :=
  (batch.foldl (fun (taken, done) i =>
    if i.hasId then (taken, done.push i)
    else
      let id := Name.fresh (fun n => s.contains n || taken.contains n) (s.size + taken.size)
        i.action.tag
      (taken.insert id, done.push { i with id })) (taken, #[])).2

/-- Register a batch and tell the ids of its instructions in order. -/
def register (s : InstructionSet) (batch : List Instruction) :
    Except BuildError (List String × InstructionSet) := do
  let given ← s.givenIds batch
  let batch := (s.named given batch).toList
  return (batch.map Instruction.id, ← s.addAll batch)

/-- Register one instruction and tell its id. -/
def registerOne (s : InstructionSet) (i : Instruction) :
    Except BuildError (String × InstructionSet) := do
  let (ids, s) ← s.register [i]
  return (ids.headD "", s)

theorem contains_iff (s : InstructionSet) (id : String) : s.contains id = true ↔ id ∈ s.ids :=
  s.roster.contains_iff id

end InstructionSet

end TimeMarch
