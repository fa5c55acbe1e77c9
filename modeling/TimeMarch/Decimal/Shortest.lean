/-!
# The Shortest Decimal of a Binary Number

A finite binary64 number is `significand · 2 ^ exponent`. The reals that round to it form an
interval around it, which holds its two ends exactly when the significand is even. Among the
decimals in that interval we want one with the fewest digits, and among those the nearest. For each
digit count there is a grid of decimals, and if any point of the grid lies in the interval then so
does one of the two grid points next to the number. So it is enough to look at those two, grid after
grid, and everything is exact arithmetic on natural numbers. What an exact tie does is left to the
caller.
-/

namespace TimeMarch

/-- A binary64 number, taken apart. -/
inductive Binary where
  | nan
  | infinite (negative : Bool)
  | finite (negative : Bool) (significand : Nat) (exponent : Int)
  deriving Repr, DecidableEq

/-- The weight of the exponent field, and the least significand of a normal number. -/
def hiddenBit : Nat := 0x10000000000000

/-- Read the sign, the exponent field and the fraction field of the bit pattern. -/
def Binary.ofFloat (x : Float) : Binary :=
  let bits := x.toBits.toNat
  let negative := 0x8000000000000000 ≤ bits
  let field : Nat := bits / hiddenBit % 2048
  let fraction := bits % hiddenBit
  if field = 2047 then
    if fraction = 0 then .infinite negative else .nan
  else if field = 0 then
    .finite negative fraction (-1074)
  else
    .finite negative (hiddenBit + fraction) (field - 1075)

/-- The number `digits · 10 ^ exponent`. -/
structure Decimal where
  digits : Nat
  exponent : Int
  deriving Repr, DecidableEq

namespace Decimal

/-- Which neighbour an exact tie goes to. -/
inductive Tie where
  | up
  | even
  deriving Repr, DecidableEq

/-- The reals that round to a number: it is `middle / unit`, the ends are `low / unit` and
`high / unit`, and `closed` says whether the ends belong. -/
structure Interval where
  low : Nat
  middle : Nat
  high : Nat
  unit : Nat
  closed : Bool

/-- The interval of `significand · 2 ^ exponent`. The neighbour below is only half as far when the
significand is the least one of its exponent, except at the lowest exponent. -/
def Interval.ofBinary (significand : Nat) (exponent : Int) : Interval :=
  let below := if significand = hiddenBit ∧ -1074 < exponent then 1 else 2
  let scale := Nat.pow 2 (exponent - 2).toNat
  { low := (4 * significand - below) * scale
    middle := 4 * significand * scale
    high := (4 * significand + 2) * scale
    unit := Nat.pow 2 (2 - exponent).toNat
    closed := significand % 2 = 0 }

/-- Whether `c · num / den` lies in the interval, where `num / den` is a grid's step. -/
def Interval.holds (i : Interval) (num den c : Nat) : Bool :=
  let x := c * num * i.unit
  if i.closed then i.low * den ≤ x ∧ x ≤ i.high * den else i.low * den < x ∧ x < i.high * den

/-- The grid point of step `10 ^ exponent` in the interval that is nearest to its middle. -/
def Interval.nearest? (i : Interval) (tie : Tie) (exponent : Int) : Option Nat :=
  let num := Nat.pow 10 exponent.toNat
  let den := Nat.pow 10 (-exponent).toNat
  let step := num * i.unit
  let c := i.middle * den / step
  let rest := i.middle * den % step
  match i.holds num den c, i.holds num den (c + 1) with
  | false, false => none
  | true, false => some c
  | false, true => some (c + 1)
  | true, true =>
    if 2 * rest < step then some c
    else if step < 2 * rest then some (c + 1)
    else match tie with
      | .up => some (c + 1)
      | .even => some (if c % 2 = 0 then c else c + 1)

/-- How many digits `n` has in base ten, `0` having none. -/
def width (n : Nat) : Nat :=
  if n = 0 then 0 else (Nat.toDigits 10 n).length

/-- The least `j ≤ fuel` with `den ≤ num · 10 ^ j`. -/
def lift (num den : Nat) : Nat → Nat
  | 0 => 0
  | fuel + 1 => if den ≤ num then 0 else lift (num * 10) den fuel + 1

/-- The `k` with `10 ^ (k - 1) ≤ middle / unit < 10 ^ k`, for a number that is not zero. -/
def Interval.magnitude (i : Interval) : Int :=
  if i.unit ≤ i.middle then width (i.middle / i.unit)
  else 1 - (lift i.middle i.unit i.unit.log2 : Nat)

/-- Drop trailing zeros, `fuel` many at most. -/
def trim (d : Decimal) : Nat → Decimal
  | 0 => d
  | fuel + 1 =>
    if d.digits ≠ 0 ∧ d.digits % 10 = 0 then trim ⟨d.digits / 10, d.exponent + 1⟩ fuel else d

/-- Try the grids of `count`, `count + 1`, … digits. Seventeen digits always suffice. -/
def search (i : Interval) (tie : Tie) (magnitude : Int) : (count fuel : Nat) → Decimal
  | _, 0 => ⟨0, 0⟩
  | count, fuel + 1 =>
    match i.nearest? tie (magnitude - count) with
    | some c => trim ⟨c, magnitude - count⟩ 20
    | none => search i tie magnitude (count + 1) fuel

/-- The shortest decimal that rounds to `significand · 2 ^ exponent`. -/
def shortest (tie : Tie) (significand : Nat) (exponent : Int) : Decimal :=
  if significand = 0 then ⟨0, 0⟩
  else
    let i := Interval.ofBinary significand exponent
    search i tie i.magnitude 1 17

end Decimal

end TimeMarch
