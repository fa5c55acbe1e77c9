import TimeMarch.Arguments
import TimeMarch.Instruction

/-!
# Instructions from Loose Fields

An instruction can be given as the tag of its action and its fields as arguments. The fields are
those of the action in their order, then `id` and `depends_on`; they are bound like the arguments of
a call and only then read as expressions, texts or lists of ids.
-/

namespace TimeMarch

/-- A field as it is supplied. -/
inductive Field where
  | expr (e : Expr)
  | text (s : String)
  | ids (l : List String)

namespace Instruction

/-- The fields of an instruction, bound to their names. -/
abbrev Fields := List (String × Field)

namespace Fields

def expr (f : Fields) (name : String) : Except ArgumentError Expr :=
  match f.lookup name with
  | some (.expr e) => .ok e
  | some _ => .error (.wrongKind name "an expression")
  | none => .error (.missing name)

def text (f : Fields) (name : String) : Except ArgumentError String :=
  match f.lookup name with
  | some (.text s) => .ok s
  | some _ => .error (.wrongKind name "a string")
  | none => .error (.missing name)

def ids (f : Fields) (name : String) : Except ArgumentError NameSet :=
  match f.lookup name with
  | some (.ids l) => .ok (NameSet.ofList l)
  | some _ => .error (.wrongKind name "a list of instruction ids")
  | none => .error (.missing name)

end Fields

/-- The fields of an action, those that may be left out, and how the action is read from them. -/
structure Form where
  params : List String
  defaults : List (String × Field) := []
  read : Fields → Except ArgumentError Action

/-- The form of the action with the given tag. -/
def form? : String → Option Form
  | "assign" => some
    { params := ["assignee", "expression"]
      read := fun f => return .assign (← f.text "assignee") (← f.expr "expression") }
  | "branch" => some
    { params := ["condition", "then_depends_on", "else_depends_on"]
      defaults := [("then_depends_on", .ids []), ("else_depends_on", .ids [])]
      read := fun f => do
        return .branch (← f.expr "condition") (← f.ids "then_depends_on")
          (← f.ids "else_depends_on") }
  | "emit" => some
    { params := ["time", "time_id", "expression", "component_id"]
      read := fun f => do
        return .emit (← f.expr "time") (← f.text "time_id") (← f.expr "expression")
          (← f.text "component_id") }
  | "abort" => some { params := [], read := fun _ => return .abort }
  | "raise" => some
    { params := ["kind", "message"]
      defaults := [("message", .text "")]
      read := fun f => return .raise (← f.text "kind") (← f.text "message") }
  | "transition" => some
    { params := ["next_state"]
      read := fun f => return .transition (← f.text "next_state") }
  | _ => none

/-- Every form takes an id and dependencies at its end, and both may be left out. -/
def Form.signature (form : Form) : Signature Field where
  params := form.params ++ ["id", "depends_on"]
  defaults := form.defaults ++ [("id", .text ""), ("depends_on", .ids [])]

/-- The instruction with the given tag and fields. -/
def ofArguments (tag : String) (args : List (Argument Field)) :
    Except ArgumentError Instruction := do
  match form? tag with
  | none => throw (.unknownKind tag)
  | some form =>
    let values ← form.signature.bind args
    let fields : Fields := form.signature.params.zip values
    let action ← form.read fields
    return { id := ← fields.text "id", dependsOn := ← fields.ids "depends_on", action }

end Instruction

end TimeMarch
