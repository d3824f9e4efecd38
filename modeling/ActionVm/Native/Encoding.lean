import ActionVm.Bytes.Basic

namespace ActionVm.Native

inductive Reg where
  | rax
  | rcx
  | rdx
  | rbx
  | rsp
  | rbp
  | rsi
  | rdi
  | r8
  | r9
  | r10
  | r11
  | r12
  | r13
  | r14
  | r15
  deriving DecidableEq, Repr

namespace Reg

def all : List Reg :=
  [rax, rcx, rdx, rbx, rsp, rbp, rsi, rdi, r8, r9, r10, r11, r12, r13, r14, r15]

def number : Reg → UInt8
  | rax => 0
  | rcx => 1
  | rdx => 2
  | rbx => 3
  | rsp => 4
  | rbp => 5
  | rsi => 6
  | rdi => 7
  | r8 => 8
  | r9 => 9
  | r10 => 10
  | r11 => 11
  | r12 => 12
  | r13 => 13
  | r14 => 14
  | r15 => 15

def code (r : Reg) : UInt8 :=
  r.number % 8

/-- Registers from `r8` on need a bit in front of the instruction. -/
def isExtended (r : Reg) : Bool :=
  8 ≤ r.number

end Reg

/-- The registers whose low byte can be named without a byte in front of the instruction. -/
abbrev LowReg := { r : Reg // r.number < 4 }

inductive OperandError where
  | noLowByte
  deriving DecidableEq, Repr

namespace OperandError

def message : OperandError → String
  | noLowByte => "assertion failed: (a as u8) < 4 && (b as u8) < 4"

end OperandError

inductive Instr where
  | movRR (dst src : Reg)
  | movRI64 (dst : Reg) (imm : UInt64)
  | movRI32 (dst : Reg) (imm : UInt32)
  | cmpRI32 (dst : Reg) (imm : UInt32)
  | testR8 (a b : LowReg)
  | push (r : Reg)
  | pop (r : Reg)
  | callR (r : Reg)
  | ret
  deriving DecidableEq, Repr

namespace Instr

def test (a b : Reg) : Except OperandError Instr :=
  if h : a.number < 4 ∧ b.number < 4 then .ok (testR8 ⟨a, h.1⟩ ⟨b, h.2⟩) else .error .noLowByte

def modRM (reg rm : UInt8) : UInt8 :=
  0xc0 + 8 * reg + rm

def wide (reg rm : Bool) : UInt8 :=
  0x48 + (if reg then 4 else 0) + (if rm then 1 else 0)

/-- The byte in front of a 32-bit instruction; it is left out unless the register needs it. -/
def narrow (r : Reg) : Bytes :=
  if r.isExtended then [0x41] else []

def encode : Instr → Bytes
  | movRR dst src => [wide src.isExtended dst.isExtended, 0x89, modRM src.code dst.code]
  | movRI64 dst imm => [wide false dst.isExtended, 0xb8 + dst.code] ++ Bytes.ofUInt64 imm
  | movRI32 dst imm => narrow dst ++ [0xb8 + dst.code] ++ Bytes.ofUInt32 imm
  | cmpRI32 dst imm =>
    (if dst = .rax then [0x3d] else narrow dst ++ [0x81, modRM 7 dst.code]) ++ Bytes.ofUInt32 imm
  | testR8 a b => [0x84, modRM b.val.code a.val.code]
  | push r => narrow r ++ [0x50 + r.code]
  | pop r => narrow r ++ [0x58 + r.code]
  | callR r => narrow r ++ [0xff, modRM 2 r.code]
  | ret => [0xc3]

end Instr

inductive Jump where
  | always
  | ifEqual
  | ifNotEqual
  deriving DecidableEq, Repr

namespace Jump

def opcode : Jump → Bytes
  | always => [0xe9]
  | ifEqual => [0x0f, 0x84]
  | ifNotEqual => [0x0f, 0x85]

end Jump

end ActionVm.Native
