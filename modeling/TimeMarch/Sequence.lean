import TimeMarch.InstructionSet

/-!
# Sequences

A state's work is often a straight line. A sequence takes statements one by one; the instruction of
a statement depends on the *frontier*, the ids added last, and becomes the frontier itself. A branch
is a statement whose arms are sequences of their own: each arm starts from the frontier before the
branch, and the ids at which it ends make up the arm.

Performing a statement gives a report, which says under which id its instruction was registered or
why it was refused, and the sequence as it is left. A refused statement can leave a trace: when an
arm breaks off, the frontier stays where the arm left it.
-/

namespace TimeMarch

/-- A statement of a sequence. An `attempt` may fail without breaking off the arm it stands in. -/
inductive Statement where
  | instruction (i : Instruction)
  | transition (next : String)
  | branch (condition : Expr) (yes no : List Statement)
  | attempt (s : Statement)

namespace Statement

def assign (assignee : String) (expression : Expr) : Statement :=
  .instruction { action := .assign assignee expression }

def emit (expression : Expr) (component : String) (time : Expr) (timeId : String) : Statement :=
  .instruction { action := .emit time timeId expression component }

def fail : Statement := .instruction { action := .abort }

def raise (kind message : String) : Statement := .instruction { action := .raise kind message }

end Statement

/-- What became of a statement, with the frontier after it. -/
inductive Report where
  | plain (outcome : Except BuildError String) (frontier : List String)
  | branch (outcome : Except BuildError String) (frontier : List String) (yes no : List Report)

namespace Report

def outcome : Report → Except BuildError String
  | plain o _ => o
  | branch o _ _ _ => o

def frontier : Report → List String
  | plain _ f => f
  | branch _ f _ _ => f

end Report

/-- A sequence under construction. `depth` counts the arms that are being built. -/
structure Sequence where
  label : String
  instructions : InstructionSet := .empty
  frontier : List String := []
  transition : Option String := none
  depth : Nat := 0

namespace Sequence

/-- The next free id for an instruction with the given tag. -/
def nextId (q : Sequence) (tag : String) : String :=
  Name.fresh q.instructions.contains q.instructions.size (q.label ++ "_" ++ tag)

/-- Register an instruction behind the frontier. -/
def add (q : Sequence) (i : Instruction) : Except BuildError String × Sequence :=
  let i := { i with
    id := if i.hasId then i.id else q.nextId i.action.tag
    dependsOn := NameSet.ofList (i.dependsOn.toList ++ q.frontier) }
  match q.instructions.registerOne i with
  | .error e => (.error e, q)
  | .ok (id, instructions) => (.ok id, { q with instructions, frontier := [id] })

/-- The ids that an arm ends with, none if it added nothing. -/
def armIds (entry frontier : List String) : List String := if frontier = entry then [] else frontier

mutual

def perform (q : Sequence) : Statement → Report × Sequence
  | .instruction i =>
    let (outcome, q) := q.add i
    (.plain outcome q.frontier, q)
  | .transition next =>
    -- Inside an arm the transition happens only if the arm is taken.
    let q := if q.depth = 0 then { q with transition := some next } else q
    let (outcome, q) := q.add { action := .transition next }
    (.plain outcome q.frontier, q)
  | .attempt s => perform q s
  | .branch condition yes no =>
    let entry := q.frontier
    let q := { q with depth := q.depth + 1 }
    let (yesReports, yesFailed, q) := performArm q yes
    match yesFailed with
    | some e =>
      let q := { q with depth := q.depth - 1 }
      (.branch (.error e) q.frontier yesReports [], q)
    | none =>
      let yesIds := armIds entry q.frontier
      let (noReports, noFailed, q) := performArm { q with frontier := entry } no
      match noFailed with
      | some e =>
        let q := { q with depth := q.depth - 1 }
        (.branch (.error e) q.frontier yesReports noReports, q)
      | none =>
        let noIds := armIds entry q.frontier
        let q := { q with frontier := entry, depth := q.depth - 1 }
        let (outcome, q) := q.add
          { action := .branch condition (NameSet.ofList yesIds) (NameSet.ofList noIds) }
        (.branch outcome q.frontier yesReports noReports, q)

/-- Perform statements up to the first that fails and is not an attempt. -/
def performArm (q : Sequence) : List Statement → List Report × Option BuildError × Sequence
  | [] => ([], none, q)
  | .attempt s :: rest =>
    let (report, q) := perform q s
    let (reports, failed, q) := performArm q rest
    (report :: reports, failed, q)
  | s :: rest =>
    let (report, q) := perform q s
    match report.outcome with
    | .error e => ([report], some e, q)
    | .ok _ =>
      let (reports, failed, q) := performArm q rest
      (report :: reports, failed, q)

end

/-- Perform every statement, whatever became of those before it. -/
def performEach (q : Sequence) (statements : List Statement) : List Report × Sequence :=
  let (reports, _, q) := q.performArm (statements.map .attempt)
  (reports, q)

/-- Perform statements on a new sequence, up to the first failure. -/
def build (label : String) (statements : List Statement) :
    List Report × Except BuildError Sequence :=
  let (reports, failed, q) := performArm { label } statements
  (reports, match failed with
    | some e => .error e
    | none => .ok q)

end Sequence

end TimeMarch
