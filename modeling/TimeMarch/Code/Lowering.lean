import TimeMarch.Code.Fragment
import TimeMarch.Schedule

/-!
# Lowering Programs to Code

The schedule of a state becomes a row of operations. The code of an expression leaves its value on
the stack and can stand anywhere, because jumps are relative; so the code of the whole is put
together from the code of the parts. Along the way names get slots and constants get places in the
tables.

Before an instruction is lowered, the names it mentions are interned in sorted order, so slots do
not depend on the shape of its expressions.
-/

namespace TimeMarch

/-- What lowering a state adds to: the shared tables and the state's own variables. -/
structure Scope extends Tables where
  locals : SymbolTable := {}

instance : Inhabited Scope := ⟨{}⟩

/-- The four families of names, which never clash with each other. -/
inductive Family where
  | persistent
  | ofState
  | function
  | label
  deriving Repr, DecidableEq

namespace Scope

/-- The symbol table of a family. -/
def table (scope : Scope) : Family → SymbolTable
  | .persistent => scope.persistent
  | .ofState => scope.locals
  | .function => scope.functions
  | .label => scope.labels

def setTable (scope : Scope) (t : SymbolTable) : Family → Scope
  | .persistent => { scope with persistent := t }
  | .ofState => { scope with locals := t }
  | .function => { scope with functions := t }
  | .label => { scope with labels := t }

@[simp] theorem table_setTable (scope : Scope) (t : SymbolTable) (f g : Family) :
    (scope.setTable t f).table g = if f = g then t else scope.table g := by
  cases f <;> cases g <;> rfl

@[simp] theorem setTable_setTable (scope : Scope) (t u : SymbolTable) (f : Family) :
    (scope.setTable t f).setTable u f = scope.setTable u f := by
  cases f <;> rfl

end Scope

abbrev Lowering := StateT Scope (Except CodeError)

namespace Lowering

/-- A part of a whole, and the whole with something else in its place. -/
@[noinline] def takeOut {σ τ : Type} (get : σ → τ) (put : τ → σ → σ) (blank : τ) (whole : σ) :
    τ × σ :=
  (get whole, put blank whole)

/-- Change one part of the scope. The part is out of the scope meanwhile, so nothing else refers to
it and it can change in place. -/
def onPart {α τ : Type} [Inhabited τ] (get : Scope → τ) (put : τ → Scope → Scope)
    (f : τ → Except CodeError (α × τ)) : Lowering α := fun scope => do
  let (part, scope) := takeOut get put default scope
  let (a, part) ← f part
  return (a, put part scope)

/-- The slot of a name in its family. -/
def intern (reserved : Std.TreeSet String) (family : Family) (name : String) : Lowering Nat :=
  onPart (fun scope => scope.table family) (fun t scope => scope.setTable t family)
    (SymbolTable.intern reserved name)

/-- The place of an element in a pool, which is that of an equal one if there is one. -/
def pool {α : Type} [BEq α] (table : Table) (a : α) (entries : Array α) :
    Except CodeError (Nat × Array α) := do
  -- What does not equal itself equals no other entry, so there is nothing to look for.
  match if a == a then entries.findIdx? (· == a) else none with
  | some i => return (← operand table i, entries)
  | none => return (← operand table entries.size, entries.push a)

def addLiteral (value : Value) : Lowering Nat :=
  onPart (fun scope => scope.literals) (fun literals scope => { scope with literals })
    (pool .literal value)

def addKeywordSet (names : List String) : Lowering Nat :=
  onPart (fun scope => scope.keywordSets) (fun keywordSets scope => { scope with keywordSets })
    (pool .keyword names)

/-- Raises are not pooled: each has a place of its own. -/
def addRaise (kind message : String) : Lowering Nat :=
  onPart (fun scope => scope.raises) (fun raises scope => { scope with raises }) fun raises => do
    let i ← operand .raise raises.size
    return (i, raises.push (kind, message))

/-- Where a variable lives. -/
inductive Slot where
  | persistent (slot : Nat)
  | ofState (slot : Nat)

def Slot.load : Slot → Op
  | persistent slot => .loadPersistent slot
  | ofState slot => .loadLocal slot

def Slot.store : Slot → Op
  | persistent slot => .storePersistent slot
  | ofState slot => .storeLocal slot

/-- The slot of a variable that the given instruction mentions. -/
def variableSlot (reserved : Std.TreeSet String) (instruction name : String) : Lowering Slot := do
  if Name.space name = .function then throw (.invalidVariable name instruction)
  else if (Name.space name).isPersistent then
    return .persistent (← intern reserved .persistent name)
  else return .ofState (← intern reserved .ofState name)

/-- The offset of a jump over the given number of operations. -/
def jumpOver (distance : Nat) : Lowering Nat :=
  if distance ≤ jumpLimit then return distance else throw (.jumpTooFar distance)

mutual

/-- The code of an expression in the given instruction. -/
def expr (reserved : Std.TreeSet String) (instruction : String) : Expr → Lowering Fragment
  | .literal value => return .ops [.literal (← addLiteral value)]
  | .var name => return .ops [(← variableSlot reserved instruction name).load]
  | .unary op x => return (← expr reserved instruction x) ++ .ops [.unary op]
  | .binary op l r => do
    let l ← expr reserved instruction l
    let r ← expr reserved instruction r
    return l ++ r ++ .ops [.binary op]
  | .call function args keywords => do
    let positional ← exprs reserved instruction args
    let named ← keywordExprs reserved instruction keywords
    if 255 < args.length then throw (.tableOverflow .argument)
    let names ← if keywords.isEmpty then pure none
      else some <$> addKeywordSet (keywords.map Prod.fst)
    let function ← intern reserved .function function
    return positional ++ named ++ .ops [.call function args.length names]
  | .cond c y n => do
    let c ← expr reserved instruction c
    let y ← expr reserved instruction y
    let toElse ← jumpOver (y.length + 1)
    let n ← expr reserved instruction n
    let toEnd ← jumpOver n.length
    return c ++ .ops [.jumpIfFalse toElse] ++ y ++ .ops [.jump toEnd] ++ n

/-- The code of expressions in a row. -/
def exprs (reserved : Std.TreeSet String) (instruction : String) : List Expr → Lowering Fragment
  | [] => return .ops []
  | e :: rest => do
    let e ← expr reserved instruction e
    let rest ← exprs reserved instruction rest
    return e ++ rest

def keywordExprs (reserved : Std.TreeSet String) (instruction : String) :
    List (String × Expr) → Lowering Fragment
  | [] => return .ops []
  | (_, e) :: rest => do
    let e ← expr reserved instruction e
    let rest ← keywordExprs reserved instruction rest
    return e ++ rest

end

/-- Give slots to all names that an instruction mentions. -/
def internNames (reserved : Std.TreeSet String) (i : Instruction) : Lowering Unit := do
  let names := NameSet.ofList (i.reads.toList ++ i.assignee?.toList)
  names.toList.forM fun name => discard (variableSlot reserved i.id name)
  i.calls.toList.forM fun name => discard (intern reserved .function name)

/-- The place of a state in a program. -/
def stateIndex (p : Program) (name : String) : Except CodeError Nat :=
  match p.states.place? name with
  | some i => operand .state i
  | none => .error (.build (.unknownState name .codeGenerator))

/-- The code of an instruction that is not a branch. -/
def instruction (p : Program) (reserved : Std.TreeSet String) (i : Instruction) :
    Lowering Fragment := do
  match i.action with
  | .assign assignee e =>
    let e ← expr reserved i.id e
    return e ++ .ops [(← variableSlot reserved i.id assignee).store]
  | .emit time timeId e component =>
    let time ← expr reserved i.id time
    let e ← expr reserved i.id e
    let component ← intern reserved .label component
    let timeId ← intern reserved .label timeId
    return time ++ e ++ .ops [.emit component timeId]
  | .abort => return .ops [.abort]
  | .raise kind message => return .ops [.raise (← addRaise kind message)]
  | .transition next => return .ops [.transition (← stateIndex p next)]
  | .branch _ _ _ => return .ops []

/-- The instruction of a scheduled id. -/
def scheduled (p : Program) (state id : String) : Lowering Instruction :=
  match p.instructions.get? id with
  | some i => return i
  | none => throw (.build (.unresolvedDependency id (.state state)))

mutual

def step (p : Program) (reserved : Std.TreeSet String) (state : String) : Step → Lowering Fragment
  | .run id => do
    let i ← scheduled p state id
    internNames reserved i
    instruction p reserved i
  | .branch id yes no => do
    let i ← scheduled p state id
    internNames reserved i
    let condition ← exprs reserved i.id i.expressions
    let y ← steps p reserved state yes
    if no.isEmpty then
      let toEnd ← jumpOver y.length
      return condition ++ .ops [.jumpIfFalse toEnd] ++ y
    else
      let toElse ← jumpOver (y.length + 1)
      let n ← steps p reserved state no
      let toEnd ← jumpOver n.length
      return condition ++ .ops [.jumpIfFalse toElse] ++ y ++ .ops [.jump toEnd] ++ n

/-- The code of steps in a row. -/
def steps (p : Program) (reserved : Std.TreeSet String) (state : String) :
    List Step → Lowering Fragment
  | [] => return .ops []
  | s :: rest => do
    let s ← step p reserved state s
    let rest ← steps p reserved state rest
    return s ++ rest

end

/-- The code of one state, and the shared tables with what it adds to them. -/
def state (p : Program) (reserved : Std.TreeSet String) (s : State) (tables : Tables) :
    Except CodeError (StateCode × Tables) := do
  let schedule ← match Schedule.ofRoots p.instructions s.roots with
    | .ok schedule => pure schedule
    | .error involved => throw (.cycle s.name involved)
  let next ← stateIndex p s.next
  let (ops, scope) ← (steps p reserved s.name schedule).run { tables with }
  return (⟨s.name, next, (ops ++ .ops [.complete]).toList.toArray, scope.locals⟩, scope.toTables)

end Lowering

/-- The code of a program. The current time and the step size have the first two slots. -/
def Code.ofProgram (reserved : List String) (p : Program) : Except CodeError Code := do
  let reserved ← reservedSet reserved
  let (_, persistent) ← SymbolTable.intern reserved timeName {}
  let (_, persistent) ← persistent.intern reserved stepSizeName
  let (states, tables) ← p.states.values.foldlM (fun (states, tables) s => do
    let (code, tables) ← Lowering.state p reserved s tables
    return (Roster.insert states s.name code, tables)) (Roster.empty, { persistent })
  let initial ← Lowering.stateIndex p p.initial
  return { tables with states, initial }

end TimeMarch
