namespace ActionVm

/-- An IEEE double-precision number by its bits, so that every payload of a NaN is kept. A finite one is `±
significand * 2 ^ exponent`. -/
structure Double where
  bits : UInt64
  deriving DecidableEq, Repr, Inhabited

namespace Double

def ofFloat (x : Float) : Double :=
  ⟨x.toBits⟩

def toFloat (d : Double) : Float :=
  Float.ofBits d.bits

def nan : Double :=
  ⟨0x7ff8000000000000⟩

def isNegative (d : Double) : Bool :=
  0x8000000000000000 ≤ d.bits.toNat

def biased (d : Double) : Nat :=
  (d.bits.toNat >>> 52) % 0x800

def fraction (d : Double) : Nat :=
  d.bits.toNat % 0x10000000000000

def isFinite (d : Double) : Bool :=
  d.biased < 2047

def isNaN (d : Double) : Bool :=
  d.biased = 2047 ∧ d.fraction ≠ 0

def isInfinite (d : Double) : Bool :=
  d.biased = 2047 ∧ d.fraction = 0

def significand (d : Double) : Nat :=
  if d.biased = 0 then d.fraction else d.fraction + 0x10000000000000

def exponent (d : Double) : Int :=
  max d.biased 1 - 1075

def wholePart (d : Double) : Nat :=
  if 0 ≤ d.exponent then d.significand <<< d.exponent.toNat
  else d.significand >>> (-d.exponent).toNat

def truncate (d : Double) : Int :=
  if d.isNegative then -(d.wholePart : Int) else d.wholePart

/-- `num / den` in units of `2 ^ e`, with a half going to the even neighbour. -/
def roundAt (num den : Nat) (e : Int) : Nat :=
  let n := if e < 0 then num <<< (-e).toNat else num
  let d := if e < 0 then den else den <<< e.toNat
  let q := n / d
  let twice := 2 * (n % d)
  if twice < d ∨ (twice = d ∧ q % 2 = 0) then q else q + 1

/-- The least unit `2 ^ e` in which `num / den` has at most 53 bits; subnormals share the last. -/
def unitOf (num den : Nat) : Int :=
  let e : Int := (Nat.log2 num : Int) - Nat.log2 den - 53
  let quotient := if e < 0 then (num <<< (-e).toNat) / den else num / (den <<< e.toNat)
  max (-1074) (if quotient < 0x20000000000000 then e else e + 1)

/-- The bits of the double nearest to `num / den`, without a sign. -/
def magnitude (num den : Nat) : Nat :=
  if num = 0 then 0
  else
    let e := unitOf num den
    min (((e + 1074).toNat <<< 52) + roundAt num den e) (2047 <<< 52)

def ofRatio (negative : Bool) (num den : Nat) : Double :=
  ⟨UInt64.ofNat ((if negative then 0x8000000000000000 else 0) + magnitude num den)⟩

def ofInt (n : Int) : Double :=
  ofRatio (n < 0) n.natAbs 1

def infinity (negative : Bool) : Double :=
  ⟨if negative then 0xfff0000000000000 else 0x7ff0000000000000⟩

def add (a b : Double) : Double :=
  ofFloat (a.toFloat + b.toFloat)

def sub (a b : Double) : Double :=
  ofFloat (a.toFloat - b.toFloat)

def mul (a b : Double) : Double :=
  ofFloat (a.toFloat * b.toFloat)

def div (a b : Double) : Double :=
  ofFloat (a.toFloat / b.toFloat)

def sqrt (a : Double) : Double :=
  ofFloat a.toFloat.sqrt

def floor (a : Double) : Double :=
  ofFloat a.toFloat.floor

def atan2 (y x : Double) : Double :=
  ofFloat (Float.atan2 y.toFloat x.toFloat)

/-- Numerical equality: both zeros are equal and a NaN equals nothing. -/
def same (a b : Double) : Bool :=
  a.toFloat == b.toFloat

def less? (a b : Double) : Option Bool :=
  if a.isNaN || b.isNaN then none else some (a.toFloat < b.toFloat)

end Double

end ActionVm
