import TimeMarch.Text.Escape

/-!
# What Can Be Wrong with a Program

Ids and states are referred to by name. A name may be used twice where it must be unique, or refer
to nothing, and dependencies may run in a circle. Each is a cause of its own, with one wording.
-/

namespace TimeMarch

/-- Who refers to an instruction or a state. -/
inductive Referrer where
  | instruction (id : String)
  | state (name : String)
  | initialState
  | codeGenerator
  deriving Repr, DecidableEq

def Referrer.text : Referrer → String
  | instruction id => "instruction `" ++ id ++ "`"
  | state name => "state `" ++ name ++ "`"
  | initialState => "initial state"
  | codeGenerator => "code generator"

inductive BuildError where
  | duplicateId (id : String)
  | unresolvedDependency (missing : String) (referrer : Referrer)
  | selfDependency (id : String)
  | unknownState (name : String) (referrer : Referrer)
  | duplicateState (name : String)
  | dependencyCycle (state : String) (involved : List String)
  deriving Repr, DecidableEq

/-- The wording of a cycle, which lists the instructions that cannot be ordered. -/
def cycleMessage (state : String) (involved : List String) : String :=
  "dependency cycle in state `" ++ state ++ "` involving [" ++
    Text.separated ", " (involved.map fun id => "InstructionId(" ++ Text.quoted id ++ ")") ++ "]"

def BuildError.message : BuildError → String
  | duplicateId id => "duplicate instruction id: " ++ id
  | unresolvedDependency missing referrer =>
    referrer.text ++ " references undefined instruction id `" ++ missing ++ "`"
  | selfDependency id => "instruction `" ++ id ++ "` depends on itself"
  | unknownState name referrer =>
    referrer.text ++ " references unknown state `" ++ name ++ "`"
  | duplicateState name => "duplicate state: " ++ name
  | dependencyCycle state involved => cycleMessage state involved

end TimeMarch
