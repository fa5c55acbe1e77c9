import TimeMarch.BuildError

/-!
# What Can Be Wrong with Generated Code

Operands of generated code are 16-bit numbers, so tables and jumps have a limit. Beside the limits,
a function's name may be used as a variable, and a schedule may be impossible.
-/

namespace TimeMarch

/-- The tables that operands index. -/
inductive Table where
  | symbol
  | literal
  | keyword
  | raise
  | state
  | argument
  deriving Repr, DecidableEq

def Table.word : Table → String
  | symbol => "symbol"
  | literal => "literal"
  | keyword => "keyword"
  | raise => "raise"
  | state => "state"
  | argument => "argument"

inductive CodeError where
  | build (e : BuildError)
  | invalidVariable (name instruction : String)
  | cycle (state : String) (involved : List String)
  | tableOverflow (table : Table)
  | jumpTooFar (distance : Nat)
  | illegalReserved (word : String)
  deriving Repr, DecidableEq

def CodeError.message : CodeError → String
  | build e => e.message
  | invalidVariable name instruction =>
    "instruction `" ++ instruction ++ "` uses function symbol `" ++ name ++ "` as a variable"
  | cycle state involved => cycleMessage state involved
  | tableOverflow table => "too many entries in the " ++ table.word ++ " table"
  | jumpTooFar distance => "jump offset " ++ toString distance ++ " exceeds the operand range"
  | illegalReserved word =>
    "invalid code generator configuration: reserved word `" ++ word ++
      "` is not a legal identifier"

/-- The number of entries a table can have. The largest operand stands for no entry. -/
def tableLimit : Nat := 65535

/-- The longest forward jump. -/
def jumpLimit : Nat := 65535

/-- A place in a table, as an operand. -/
def operand (table : Table) (i : Nat) : Except CodeError Nat :=
  if i < tableLimit then .ok i else .error (.tableOverflow table)

end TimeMarch
