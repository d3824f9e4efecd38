namespace ActionVm

inductive BoundsError where
  | sum
  | product
  | capacity
  | index (length place : Nat)
  deriving DecidableEq, Repr

namespace BoundsError

def message : BoundsError → String
  | sum => "attempt to add with overflow"
  | product => "attempt to multiply with overflow"
  | capacity => "capacity overflow"
  | index length place => s!"index out of bounds: the len is {length} but the index is {place}"

end BoundsError

namespace Bounds

def add (limit a b : Nat) : Except BoundsError Nat :=
  if a + b < limit then .ok (a + b) else .error .sum

def mul (limit a b : Nat) : Except BoundsError Nat :=
  if a * b < limit then .ok (a * b) else .error .product

/-- The number of entries of a table with entries of `width` bytes. Half of the addresses are free. -/
def capacity (width entries : Nat) : Except BoundsError Nat :=
  if width * entries < 0x8000000000000000 then .ok entries else .error .capacity

def place (length i : Nat) : Except BoundsError Nat :=
  if i < length then .ok i else .error (.index length i)

end Bounds

end ActionVm
