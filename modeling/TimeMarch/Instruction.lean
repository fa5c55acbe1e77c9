import TimeMarch.Expr

/-!
# Instructions

An instruction is a node of a graph: it has an id, the ids of the instructions that come before it,
and an action. A branch names, beside the instructions it depends on, those that make up each of its
two arms.
-/

namespace TimeMarch

/-- What an instruction does. -/
inductive Action where
  | assign (assignee : String) (expression : Expr)
  | branch (condition : Expr) (yes no : NameSet)
  | emit (time : Expr) (timeId : String) (expression : Expr) (component : String)
  | abort
  | raise (kind message : String)
  | transition (next : String)

/-- The word for an action in ids. -/
def Action.tag : Action → String
  | assign .. => "assign"
  | branch .. => "branch"
  | emit .. => "emit"
  | abort => "abort"
  | raise .. => "raise"
  | transition .. => "transition"

/-- An instruction whose id is empty is anonymous; registration gives it one. -/
structure Instruction where
  id : String := ""
  dependsOn : NameSet := ∅
  action : Action

namespace Instruction

instance : Inhabited Instruction := ⟨{ action := .abort }⟩

def hasId (i : Instruction) : Bool := !i.id.isEmpty

/-- The arms of a branch. -/
def arms? (i : Instruction) : Option (NameSet × NameSet) :=
  match i.action with
  | .branch _ yes no => some (yes, no)
  | _ => none

/-- The ids an instruction mentions: what it depends on, then the arms. -/
def references (i : Instruction) : List String :=
  match i.arms? with
  | some (yes, no) => i.dependsOn.toList ++ yes.toList ++ no.toList
  | none => i.dependsOn.toList

/-- The expressions an instruction evaluates, in the order of evaluation. -/
def expressions (i : Instruction) : List Expr :=
  match i.action with
  | .assign _ e => [e]
  | .branch c _ _ => [c]
  | .emit t _ e _ => [t, e]
  | .abort | .raise _ _ | .transition _ => []

/-- The names that the expressions mention. -/
def mentions (i : Instruction) : List Mention := Expr.listMentionsOnto i.expressions []

/-- The variables an instruction reads. -/
def reads (i : Instruction) : NameSet := NameSet.ofList (i.mentions.filterMap Mention.read?)

/-- The functions an instruction calls. -/
def calls (i : Instruction) : NameSet := NameSet.ofList (i.mentions.filterMap Mention.call?)

/-- The variable an instruction writes. -/
def assignee? (i : Instruction) : Option String :=
  match i.action with
  | .assign x _ => some x
  | _ => none

end Instruction

end TimeMarch
