import TimeMarch.Decimal.Layout
import TimeMarch.Text.Escape

/-!
# Values

Expressions compute scalars, truth values and vectors. Arithmetic is element by element, and a
scalar beside a vector stands for a vector of equal entries. Comparing for equality is always
possible; comparing for order is for scalars. An operator that does not fit its operands says so in
a `ValueError`, which names kinds and lengths and never the numbers.
-/

namespace TimeMarch

inductive UnaryOp where
  | neg
  | not
  deriving Repr, DecidableEq

inductive BinaryOp where
  | add
  | sub
  | mul
  | div
  | pow
  | eq
  | ne
  | lt
  | le
  | gt
  | ge
  | and
  | or
  deriving Repr, DecidableEq

def UnaryOp.symbol : UnaryOp → String
  | neg => "-"
  | not => "not"

def BinaryOp.symbol : BinaryOp → String
  | add => "+"
  | sub => "-"
  | mul => "*"
  | div => "/"
  | pow => "**"
  | eq => "=="
  | ne => "!="
  | lt => "<"
  | le => "<="
  | gt => ">"
  | ge => ">="
  | and => "and"
  | or => "or"

inductive Value where
  | scalar (x : Float)
  | bool (b : Bool)
  | vector (xs : List Float)

/-- What sort of value one has, the numbers aside. -/
inductive Kind where
  | scalar
  | bool
  | vector
  deriving Repr, DecidableEq

def Kind.word : Kind → String
  | scalar => "scalar"
  | bool => "bool"
  | vector => "vector"

/-- Why an operator does not apply. -/
inductive ValueError where
  | binaryMismatch (op : BinaryOp) (left right : Kind)
  | unaryMismatch (op : UnaryOp) (operand : Kind)
  | lengthMismatch (left right : Nat)
  | notABoolean (kind : Kind)
  | notAScalar (kind : Kind)
  deriving Repr, DecidableEq

def ValueError.message : ValueError → String
  | binaryMismatch op left right =>
    "operator " ++ op.symbol ++ " not defined for " ++ left.word ++ " and " ++ right.word
  | unaryMismatch op operand => "operator " ++ op.symbol ++ " not defined for " ++ operand.word
  | lengthMismatch left right =>
    "vector length mismatch: " ++ toString left ++ " vs " ++ toString right
  | notABoolean kind => kind.word ++ " has no truth value"
  | notAScalar kind => "expected a scalar, found " ++ kind.word

namespace Value

instance : Inhabited Value := ⟨.scalar 0⟩

/-- Equality as numbers: the two zeros are equal, and nothing equals a NaN. -/
def beq : Value → Value → Bool
  | scalar x, scalar y => x == y
  | bool a, bool b => a == b
  | vector xs, vector ys => xs == ys
  | _, _ => false

instance : BEq Value := ⟨beq⟩

def kind : Value → Kind
  | scalar _ => .scalar
  | bool _ => .bool
  | vector _ => .vector

def scalar? : Value → Option Float
  | scalar x => some x
  | _ => none

def vector? : Value → Option (List Float)
  | vector xs => some xs
  | _ => none

/-- What a condition takes a value for. Every scalar but zero is true. -/
def truth : Value → Except ValueError Bool
  | bool b => .ok b
  | scalar x => .ok (x != 0)
  | vector _ => .error (.notABoolean .vector)

/-- The number of a scalar. -/
def toScalar : Value → Except ValueError Float
  | scalar x => .ok x
  | v => .error (.notAScalar v.kind)

/-- Element-wise arithmetic; `op` is named when the operands do not fit. -/
def arithmetic (op : BinaryOp) (f : Float → Float → Float) : Value → Value → Except ValueError Value
  | scalar x, scalar y => .ok (scalar (f x y))
  | vector xs, scalar y => .ok (vector (xs.map fun x => f x y))
  | scalar x, vector ys => .ok (vector (ys.map fun y => f x y))
  | vector xs, vector ys =>
    if xs.length = ys.length then .ok (vector (List.zipWith f xs ys))
    else .error (.lengthMismatch xs.length ys.length)
  | v, w => .error (.binaryMismatch op v.kind w.kind)

/-- Comparison by order. -/
def comparison (op : BinaryOp) (f : Float → Float → Bool) : Value → Value → Except ValueError Value
  | scalar x, scalar y => .ok (bool (f x y))
  | v, w => .error (.binaryMismatch op v.kind w.kind)

/-- `v op w`. The truth of `w` is asked for only when that of `v` does not decide. -/
def binary (op : BinaryOp) (v w : Value) : Except ValueError Value :=
  match op with
  | .add => arithmetic op (· + ·) v w
  | .sub => arithmetic op (· - ·) v w
  | .mul => arithmetic op (· * ·) v w
  | .div => arithmetic op (· / ·) v w
  | .pow => arithmetic op Float.pow v w
  | .eq => .ok (bool (v == w))
  | .ne => .ok (bool (v != w))
  | .lt => comparison op (fun x y => x < y) v w
  | .le => comparison op (fun x y => x ≤ y) v w
  | .gt => comparison op (fun x y => y < x) v w
  | .ge => comparison op (fun x y => y ≤ x) v w
  | .and => do
    if ← v.truth then return bool (← w.truth) else return bool false
  | .or => do
    if ← v.truth then return bool true else return bool (← w.truth)

def unary (op : UnaryOp) (v : Value) : Except ValueError Value :=
  match op, v with
  | .neg, scalar x => .ok (scalar (-x))
  | .neg, vector xs => .ok (vector (xs.map (- ·)))
  | .neg, bool _ => .error (.unaryMismatch .neg .bool)
  | .not, v =>
    match v.truth with
    | .ok b => .ok (bool !b)
    | .error _ => .error (.unaryMismatch .not v.kind)

/-- Numbers in texts for people have no exponent and no superfluous point. -/
def layout : Layout where
  tie := .up
  positional := fun _ => true
  whole := ""
  nan := "NaN"
  infinity := "inf"
  negativeInfinity := "-inf"

def text : Value → String
  | scalar x => layout.write x
  | bool b => if b then "true" else "false"
  | vector xs => "[" ++ Text.separated ", " (xs.map layout.write) ++ "]"

end Value

end TimeMarch
