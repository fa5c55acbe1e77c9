import TimeMarch.Text.Escape

/-!
# Binding Arguments

A call gives some arguments by position and some by keyword. Binding them to a list of parameters
gives one value for each parameter, in the order of the parameters: what stands at its position,
else what its keyword gives, else its default. What cannot be bound is an error, and so is a
parameter that gets two values.
-/

namespace TimeMarch

/-- One argument of a call. -/
inductive Argument (α : Type) where
  | positional (value : α)
  | keyword (name : String) (value : α)
  deriving Repr, DecidableEq

/-- Why arguments do not fit parameters, or the fields of an instruction do not fit its kind. -/
inductive ArgumentError where
  | duplicate (name : String)
  | missing (name : String)
  | leftover (names : List String)
  | wrongKind (name expected : String)
  | unknownKind (name : String)
  deriving Repr, DecidableEq

def ArgumentError.message : ArgumentError → String
  | duplicate name => "argument '" ++ name ++ "' specified both positionally and by keyword"
  | missing name => "argument '" ++ name ++ "' not specified"
  | leftover names => "leftover arguments after argument resolution: " ++ Text.separated ", " names
  | wrongKind name expected => "argument '" ++ name ++ "' has the wrong kind, expected " ++ expected
  | unknownKind name => "unknown instruction kind '" ++ name ++ "'"

/-- Where an argument goes: to the parameter at a position or to the one of a name. -/
inductive Target where
  | position (i : Nat)
  | name (n : String)
  deriving Repr, DecidableEq

def Target.text : Target → String
  | position i => toString i
  | name n => n

namespace Arguments

variable {α : Type}

/-- The arguments with their targets; those by position are numbered from `i` on. -/
def targetsFrom (i : Nat) : List (Argument α) → List (Target × α)
  | [] => []
  | .positional a :: rest => (.position i, a) :: targetsFrom (i + 1) rest
  | .keyword n a :: rest => (.name n, a) :: targetsFrom i rest

def keywords (args : List (Argument α)) : List String :=
  args.filterMap fun
    | .positional _ => none
    | .keyword n _ => some n

/-- The first keyword that was given before. -/
def firstRepeated? : (seen : List String) → List String → Option String
  | _, [] => none
  | seen, n :: rest => if n ∈ seen then some n else firstRepeated? (n :: seen) rest

/-- How many targets the arguments have; a repeated keyword is one. -/
def count (args : List (Argument α)) : Nat :=
  (args.length - (keywords args).length) + (keywords args).eraseDups.length

/-- The value for a target, and the other entries. -/
def take (t : Target) : List (Target × α) → Option α × List (Target × α)
  | [] => (none, [])
  | (t', a) :: rest =>
    if t' = t then (some a, rest)
    else
      let (found, others) := take t rest
      (found, (t', a) :: others)

/-- Bind the parameters from position `i` on; what is not used is returned beside the values. -/
def bindFrom (defaults : String → Option α) (i : Nat) : (params : List String) →
    List (Target × α) → Except ArgumentError (List α × List (Target × α))
  | [], entries => .ok ([], entries)
  | p :: params, entries => do
    let (byPosition, entries) := take (.position i) entries
    let (byName, entries) := take (.name p) entries
    let value ← match byPosition, byName with
      | some _, some _ => .error (.duplicate p)
      | some a, none => .ok a
      | none, some a => .ok a
      | none, none => match defaults p with
        | some a => .ok a
        | none => .error (.missing p)
    let (values, left) ← bindFrom defaults (i + 1) params entries
    return (value :: values, left)

end Arguments

/-- Parameters in order, and the defaults that some of them have. -/
structure Signature (α : Type) where
  params : List String
  defaults : List (String × α) := []

namespace Signature

variable {α : Type}

/-- The default of a parameter is the one declared last. -/
def default? (s : Signature α) (name : String) : Option α := s.defaults.reverse.lookup name

def withDefault (s : Signature α) (name : String) (value : α) : Signature α :=
  { s with defaults := s.defaults ++ [(name, value)] }

/-- One value for each parameter, in order. A repeated keyword is noticed before anything else,
arguments that no parameter takes are noticed last. -/
def bind (s : Signature α) (args : List (Argument α)) : Except ArgumentError (List α) := do
  if let some name := Arguments.firstRepeated? [] (Arguments.keywords args) then
    throw (.duplicate name)
  let (values, left) ← Arguments.bindFrom s.default? 0 s.params (Arguments.targetsFrom 0 args)
  if left.isEmpty then return values
  else throw (.leftover (left.map fun e => e.1.text))

end Signature

end TimeMarch
