import ActionVm.Config.Basic
import ActionVm.Object.Store

namespace ActionVm

structure Frame where
  method : UInt32
  /-- The operands, the top first. -/
  stack : List Ref := []
  stackLimit : Nat
  /-- The receiver, the arguments, and locals as far as they were written. -/
  locals : List Ref
  localLimit : Nat
  /-- The scopes, the innermost first. -/
  scopes : List Ref := []
  result : Option Ref := none

namespace Frame

/-- No frame has more locals, whatever its method declares. -/
def maxLocals : Nat := UInt16.size

/-- A frame for a call. There is always room for one operand, the receiver and the arguments. -/
def create (config : Config) (method maxStack localCount : UInt32) (receiver : Ref)
    (args : List Ref) : Except BoundsError Frame := do
  let stackLimit ← Bounds.mul UInt64.size (max maxStack.toNat 1) (max config.stackSlack 1)
  return {
    method, stackLimit
    locals := receiver :: args
    localLimit := max (min localCount.toNat maxLocals) (args.length + 1) }

def references (f : Frame) : List Ref :=
  f.stack ++ f.locals ++ f.scopes ++ f.result.toList

end Frame

end ActionVm
