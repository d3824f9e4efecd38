import ActionVm.Bytes.Basic
import ActionVm.Number.Bounds
import Std.Data.TreeMap

namespace ActionVm.Native

inductive RegionError where
  | allocationFailed (size : Nat)
  | protectionFailed
  | empty
  | outOfBounds (offset length size : Nat)
  | sealed
  | bounds (e : BoundsError)
  deriving DecidableEq, Repr

namespace RegionError

def message : RegionError → String
  | allocationFailed size => s!"mmap of {size} bytes failed"
  | protectionFailed => "mprotect to read-execute failed"
  | empty => "cannot map an empty code region"
  | outOfBounds offset length size =>
    s!"write of {length} bytes at {offset} exceeds region of {size} bytes"
  | sealed => "region is already executable"
  | bounds e => e.message

end RegionError

/-- Bytes that were never written are 0. -/
structure Region where
  size : Nat
  contents : Std.TreeMap Nat UInt8 := {}
  executable : Bool := false

namespace Region

def pageSize : Nat := 4096

/-- The memory that regions are taken from; none can be as large. -/
def memory : Nat := 0x800000000

def create (size : Nat) : Except RegionError Region :=
  if size = 0 then .error .empty
  else match Bounds.mul UInt64.size ((size + pageSize - 1) / pageSize) pageSize with
    | .error e => .error (.bounds e)
    | .ok rounded =>
      if memory ≤ rounded then .error (.allocationFailed rounded)
      else .ok { size := rounded }

def store (contents : Std.TreeMap Nat UInt8) (offset : Nat) : Bytes → Std.TreeMap Nat UInt8
  | [] => contents
  | b :: rest => store (contents.insert offset b) (offset + 1) rest

def write (r : Region) (offset : Nat) (bytes : Bytes) : Except RegionError Region :=
  if r.executable then .error .sealed
  else if r.size < offset + bytes.length then
    .error (.outOfBounds offset bytes.length r.size)
  else .ok { r with contents := store r.contents offset bytes }

def makeExecutable (r : Region) : Region :=
  { r with executable := true }

def read (r : Region) (offset length : Nat) : Bytes :=
  (List.range' offset length).map fun i => r.contents.getD i 0

def ofCode (code : Bytes) : Except RegionError Region := do
  let region ← create code.length
  let filled ← region.write 0 code
  return filled.makeExecutable

end Region

end ActionVm.Native
