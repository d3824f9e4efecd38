import ActionVm.Number.Reading
import ActionVm.Object.Value

namespace ActionVm

namespace Double

/-- The low 32 bits of the truncated number, which is clamped to 64 bits before. What is not finite
gives 0. -/
def toInt32 (d : Double) : Int32 :=
  if d.isFinite then Int32.ofInt (max (-0x8000000000000000) (min 0x7fffffffffffffff d.truncate)) else 0

end Double

namespace Value

/-- Only true, plain objects and texts that are not empty count as true. -/
def toBoolean : Value → Bool
  | text s => !s.isEmpty
  | boolean b => b
  | object => true
  | _ => false

def toNumber : Value → Double
  | integer i => .ofInt i.toInt
  | number d => d
  | boolean b => .ofInt (if b then 1 else 0)
  | null => .ofInt 0
  | text s => .ofText s
  | _ => .nan

def toInt : Value → Int32
  | integer i => i
  | v => v.toNumber.toInt32

end Value

end ActionVm
