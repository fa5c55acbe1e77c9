import TimeMarch.Arguments
import TimeMarch.Namespace
import TimeMarch.Roster
import TimeMarch.Value

/-!
# Host Functions

Programs call functions that they do not define. The host supplies them by name. A function with a
signature takes positional and keyword arguments, one without only positional ones.
-/

namespace TimeMarch

/-- A function of the host; its body gets one value for each parameter, and may fail with a
message. -/
structure Function where
  signature : Option (Signature Value) := none
  body : List Value → Except String Value

/-- Bind the arguments and run the body. -/
def Function.call (f : Function) (positional : List Value) (keywords : List (String × Value)) :
    Except ArgumentError (Except String Value) :=
  match f.signature with
  | some signature => do
    let args ← signature.bind
      (positional.map .positional ++ keywords.map fun (name, v) => .keyword name v)
    return f.body args
  | none =>
    if keywords.isEmpty then .ok (f.body positional) else .error (.leftover (keywords.map Prod.fst))

abbrev FunctionTable := Roster Function

/-- The function that a symbol refers to: the one of that very name, else the one of the name behind
the function tag. -/
def FunctionTable.resolve? (t : FunctionTable) (symbol : String) : Option Function :=
  match t.get? symbol with
  | some f => some f
  | none => (Name.afterTag? functionTag symbol).bind t.get?

end TimeMarch
