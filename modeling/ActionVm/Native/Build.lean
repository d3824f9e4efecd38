import ActionVm.Native.Emit

namespace ActionVm.Native

/-- The system that machine code is to run on: the addresses of what it calls, and what becomes of requests for
executable memory of a size. -/
structure System where
  address : Callee → UInt64
  maps : Nat → Bool
  seals : Nat → Bool

namespace System

def generous : System where
  address _ := 0
  maps _ := true
  seals _ := true

def load (s : System) (code : Bytes) : Except RegionError Region := do
  let region ← Region.create code.length
  unless s.maps region.size do throw (.allocationFailed region.size)
  let filled ← region.write 0 code
  unless s.seals region.size do throw .protectionFailed
  return filled.makeExecutable

end System

def build (s : System) (g : Graph) : Except EmitError Region := do
  let code ← emit s.address g
  match s.load code.bytes with
  | .error e => throw (.memory e)
  | .ok region => return region

end ActionVm.Native
