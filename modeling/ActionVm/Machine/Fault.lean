import ActionVm.Number.Bounds
import ActionVm.Text.Hex

namespace ActionVm

inductive Fault where
  | emptyPop (method : UInt32)
  | emptyPeek (method : UInt32)
  | overflow (method : UInt32) (limit : Nat)
  | notImplemented (byte method : UInt32)
  | bounds (e : BoundsError)
  | host (message : String)
  deriving DecidableEq, Repr

namespace Fault

def message : Fault → String
  | emptyPop method => s!"pop from empty operand stack in method {method.toNat}"
  | emptyPeek method => s!"peek at empty operand stack in method {method.toNat}"
  | overflow method limit => s!"operand stack overflow in method {method.toNat} (limit {limit})"
  | notImplemented byte method =>
    let code := Hex.padded 2 byte.toNat
    s!"not implemented opcode 0x{code} in method {method.toNat}"
  | bounds e => e.message
  | host message => message

end Fault

/-- A run stops at a fault, where it would never come to an end, or when it used up what it may take. -/
inductive Stop where
  | fault (f : Fault)
  | endless
  | outOfFuel
  deriving DecidableEq, Repr

namespace Stop

def within [Monad m] [MonadExcept Stop m] : Except BoundsError α → m α
  | .ok x => return x
  | .error e => throw (.fault (.bounds e))

end Stop

end ActionVm
