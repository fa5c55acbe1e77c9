import TimeMarch.Decimal.Shortest

/-!
# Layouts of Numbers

Two outputs write the same digits differently: one never uses an exponent, the other keeps `.0` and
turns to exponents for large and small numbers. A `Layout` holds these decisions as data, and
`Layout.write` is the one function that follows them.
-/

namespace TimeMarch

/-- How numbers are written. -/
structure Layout where
  /-- The neighbour an exact tie between two shortest decimals goes to. -/
  tie : Decimal.Tie
  /-- The exponents of the leading digit that are written without an exponent. -/
  positional : Int → Bool
  /-- What follows a whole number that is written without an exponent. -/
  whole : String
  nan : String
  infinity : String
  negativeInfinity : String

namespace Layout

def zeros (n : Nat) : String := String.ofList (List.replicate n '0')

/-- The digits with the point `place` digits from their left end. -/
def positionally (whole : String) (digits : String) (place : Int) : String :=
  if place ≤ 0 then "0." ++ zeros (-place).toNat ++ digits
  else if digits.length ≤ place then digits ++ zeros (place.toNat - digits.length) ++ whole
  else
    let cs := digits.toList
    String.ofList (cs.take place.toNat) ++ "." ++ String.ofList (cs.drop place.toNat)

/-- One digit before the point, and a signed exponent. -/
def scientifically (digits : String) (lead : Int) : String :=
  let cs := digits.toList
  let rest := cs.drop 1
  let mantissa := String.ofList (cs.take 1) ++
    if rest.isEmpty then "" else "." ++ String.ofList rest
  mantissa ++ "e" ++ (if lead < 0 then "-" else "+") ++ toString lead.natAbs

def writeDecimal (l : Layout) (d : Decimal) : String :=
  let digits := toString d.digits
  let place : Int := digits.length + d.exponent
  if d.digits = 0 then "0" ++ l.whole
  else if l.positional (place - 1) then positionally l.whole digits place
  else scientifically digits (place - 1)

def write (l : Layout) (x : Float) : String :=
  match Binary.ofFloat x with
  | .nan => l.nan
  | .infinite negative => if negative then l.negativeInfinity else l.infinity
  | .finite negative significand exponent =>
    (if negative then "-" else "") ++ l.writeDecimal (Decimal.shortest l.tie significand exponent)

end Layout

end TimeMarch
