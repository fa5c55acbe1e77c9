import TimeMarch.Decimal.Nearest

/-!
# Reading Numbers

A number is spelt with digits before and after a point and an exponent of ten. All of its digits
count, however many there are, and a number that is too large is refused.
-/

namespace TimeMarch.Json

/-- The parts of a number as they are spelt. -/
structure NumberText where
  negative : Bool
  whole : List Char
  fraction : List Char
  /-- The sign and the digits of an exponent. -/
  exponent : Option (Bool × List Char)

def digitValue (c : Char) : Nat := c.toNat - '0'.toNat

/-- The natural number that digits spell. -/
def natural (digits : List Char) : Nat := digits.foldl (fun n c => n * 10 + digitValue c) 0

namespace NumberText

/-- The exponent of ten as it is written. -/
def power (t : NumberText) : Int :=
  match t.exponent with
  | none => 0
  | some (negative, digits) => if negative then -(natural digits : Int) else natural digits

/-- The size of a number, its sign apart. -/
def magnitude (t : NumberText) : Decimal where
  digits := natural (t.whole ++ t.fraction)
  exponent := t.power - t.fraction.length

def value? (t : NumberText) : Option Float :=
  t.magnitude.nearest?.map fun x => if t.negative then -x else x

end NumberText

end TimeMarch.Json
