import TimeMarch.Decimal.Shortest

/-!
# The Binary Number Nearest to a Decimal

Reading a decimal gives the binary64 number nearest to it, and of two equally near ones the one with
the even significand. Decimals from half a unit beyond the largest finite number on have no nearest
one.
-/

namespace TimeMarch.Decimal

/-- The nearest binary64 number, if there is a finite one. A decimal of `width` digits is below
`10 ^ (width + exponent)`, so the sizes at the two ends are settled without its power of ten. -/
def nearest? (d : Decimal) : Option Float :=
  let magnitude := width d.digits + d.exponent
  if d.digits = 0 ∨ magnitude < -330 then some 0
  else if 310 < magnitude then none
  else
    let x := Float.ofScientific d.digits (d.exponent < 0) d.exponent.natAbs
    if x.isInf then none else some x

end TimeMarch.Decimal
