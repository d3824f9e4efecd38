import ActionVm.Number.Double

namespace ActionVm

structure Decimal where
  digits : Nat
  scale : Int
  deriving DecidableEq, Repr

namespace Shortest

inductive Tie where
  | up
  | even

/-- A value and the ends of its rounding interval over one denominator. The ends belong to it when
`closed` holds. -/
structure Interval where
  value : Nat
  low : Nat
  high : Nat
  den : Nat
  closed : Bool

/-- The gap below a power of two is half as wide as the one above it. -/
def interval (d : Double) : Interval :=
  let m := d.significand
  let below := if d.fraction = 0 ∧ 1 < d.biased then 1 else 2
  let e := d.exponent - 2
  let unit := if 0 ≤ e then 1 <<< e.toNat else 1
  { value := 4 * m * unit
    low := (4 * m - below) * unit
    high := (4 * m + 2) * unit
    den := if 0 ≤ e then 1 else 1 <<< (-e).toNat
    closed := m % 2 = 0 }

/-- How many zeros follow the point of `num / den`, looking at no more than `fuel` places. -/
def leadingZeros : Nat → Nat → Nat → Nat
  | 0, _, _ => 0
  | fuel + 1, num, den => if num * 10 < den then leadingZeros fuel (num * 10) den + 1 else 0

/-- The `p` with `10 ^ (p - 1) ≤ value < 10 ^ p`. -/
def pointPlace (i : Interval) : Int :=
  if i.den ≤ i.value then (Nat.toDigits 10 (i.value / i.den)).length
  else -(leadingZeros 400 i.value i.den : Int)

/-- `c` steps of a grid, compared with a bound: both sides are multiplied out. -/
def Interval.holds (i : Interval) (c num den : Nat) : Bool :=
  let point := c * num * i.den
  if i.closed then i.low * den ≤ point && point ≤ i.high * den
  else i.low * den < point && point < i.high * den

/-- The decimal of the grid with step `10 ^ scale` that the interval holds and that is nearest to
the value. -/
def onGrid (tie : Tie) (i : Interval) (scale : Int) : Option Decimal :=
  let num := if 0 ≤ scale then Nat.pow 10 scale.toNat else 1
  let den := if 0 ≤ scale then 1 else Nat.pow 10 (-scale).toNat
  let c := i.value * den / (num * i.den)
  let twice := 2 * (i.value * den % (num * i.den))
  let lower := i.holds c num den
  let upper := i.holds (c + 1) num den
  let up : Bool := match tie with
    | .up => num * i.den ≤ twice
    | .even => num * i.den < twice ∨ (num * i.den = twice ∧ c % 2 = 1)
  if lower && upper then some ⟨if up then c + 1 else c, scale⟩
  else if lower then some ⟨c, scale⟩
  else if upper then some ⟨c + 1, scale⟩
  else none

def search (tie : Tie) (i : Interval) (place : Int) : Nat → Nat → Decimal
  | 0, count => ⟨i.value / i.den, place - count⟩
  | fuel + 1, count =>
    match onGrid tie i (place - count) with
    | some d => d
    | none => search tie i place fuel (count + 1)

/-- The shortest decimal for the magnitude of a finite, non-zero double. Seventeen digits always
suffice. -/
def decimal (tie : Tie) (d : Double) : Decimal :=
  let i := interval d
  search tie i (pointPlace i) 18 1

def digits (tie : Tie) (d : Double) : List Char × Int :=
  let dec := decimal tie d
  let all := Nat.toDigits 10 dec.digits
  let trimmed := (all.reverse.dropWhile (· = '0')).reverse
  (trimmed, all.length + dec.scale)

end Shortest

end ActionVm
