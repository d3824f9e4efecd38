import ActionVm.Code.Opcode
import ActionVm.Document.Input

namespace ActionVm

/-- Decoded immediate operands. A branch displacement counts from the next instruction, the
displacements of a switch from its opcode. -/
inductive Args where
  | none
  | one (a : UInt32)
  | two (a b : UInt32)
  | branch (displacement : Int)
  | switch (default : Int) (cases : List Int)
  deriving DecidableEq, Repr

structure Instruction where
  offset : Nat
  next : Nat
  byte : UInt8
  opcode : Option Opcode
  args : Args
  deriving DecidableEq, Repr

/-- Targets are offsets in a 64-bit address space, so that a displacement below 0 wraps. -/
def address (offset : Int) : Nat :=
  (offset % UInt64.size).toNat

namespace Args

/-- The operands of a shape. Of `debug`, the name and the last operand are kept. -/
def read : Operands → Read Args
  | .none => return none
  | .u8 => do
    return one (← Read.u8).toUInt32
  | .u30 => do
    return one (← Read.u30)
  | .u30u30 => do
    let a ← Read.u30
    let b ← Read.u30
    return two a b
  | .s24 => do
    return branch (← Read.s24)
  | .lookupSwitch => do
    let default ← Read.s24
    let count ← Read.u30
    let cases ← Read.times (count.toNat + 1) Read.s24
    return switch default cases
  | .debug => do
    let _ ← Read.u8
    let name ← Read.u30
    let _ ← Read.u8
    let last ← Read.u30
    return two name last

end Args

namespace Instruction

/-- The instruction at the start of the input. A byte that is no opcode has no operands. -/
def read (offset : Nat) : Read Instruction := do
  let byte ← Read.u8
  let opcode := Opcode.ofByte? byte
  let args ← Args.read (opcode.elim .none Opcode.operands)
  let length ← Read.position
  return { offset, next := offset + length, byte, opcode, args }

def branchTarget? (i : Instruction) : Option Nat :=
  match i.args with
  | .branch displacement => some (address (i.next + displacement))
  | _ => none

def switchTargets (i : Instruction) : List Nat :=
  match i.args with
  | .switch default cases => (default :: cases).map fun d => address (i.offset + d)
  | _ => []

/-- The instruction at `offset`. Errors count from there. -/
def decode (code : Bytes) (offset : Nat) : Except ReadError Instruction :=
  match read offset { rest := code.drop offset } with
  | .ok i _ => .ok i
  | .error e _ => .error e

def sweepFrom : Nat → Nat → Bytes → List Instruction
  | 0, _, _ => []
  | fuel + 1, offset, rest =>
    match read offset { rest } with
    | .ok i after => i :: sweepFrom fuel i.next after.rest
    | .error _ _ => []

/-- The instructions of a code stream. Each takes a byte at least, so there are no more than bytes. -/
def sweep (code : Bytes) : List Instruction :=
  sweepFrom code.length 0 code

end Instruction

end ActionVm
