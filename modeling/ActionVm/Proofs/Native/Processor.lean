import ActionVm.Native.Emit
import ActionVm.Proofs.Bytes.Words
import ActionVm.Proofs.Graph.Walk

namespace ActionVm.Native

inductive Form where
  | instr (i : Instr)
  | jump (j : Jump) (distance : Int)
  deriving DecidableEq

def Reg.ofBits (extended : Bool) (bits : UInt8) : Reg :=
  all.getD (bits.toNat % 8 + if extended then 8 else 0) .rax

/-- What a byte in front of an instruction says: wide operands, and extended registers. -/
structure Rex where
  wide : Bool := false
  reg : Bool := false
  rm : Bool := false

namespace Form

def word32 (bytes : Bytes) : Option (UInt32 × Bytes) :=
  (Bytes.split? 4 bytes).map fun (word, rest) => (UInt32.ofNat (Bytes.value word), rest)

def word64 (bytes : Bytes) : Option (UInt64 × Bytes) :=
  (Bytes.split? 8 bytes).map fun (word, rest) => (UInt64.ofNat (Bytes.value word), rest)

def operands : Bytes → Option (UInt8 × UInt8 × Bytes)
  | [] => none
  | byte :: rest => if byte < 0xc0 then none else some (byte / 8 % 8, byte % 8, rest)

def distance (j : Jump) (bytes : Bytes) : Option (Form × Bytes) :=
  (word32 bytes).map fun (word, rest) => (jump j word.toInt32.toInt, rest)

def decodeOpcode (rex : Rex) (opcode : UInt8) (bytes : Bytes) : Option (Form × Bytes) :=
  if opcode / 8 = 0x50 / 8 then some (instr (.push (.ofBits rex.rm opcode)), bytes)
  else if opcode / 8 = 0x58 / 8 then some (instr (.pop (.ofBits rex.rm opcode)), bytes)
  else if opcode / 8 = 0xb8 / 8 then
    if rex.wide then
      (word64 bytes).map fun (imm, rest) => (instr (.movRI64 (.ofBits rex.rm opcode) imm), rest)
    else (word32 bytes).map fun (imm, rest) => (instr (.movRI32 (.ofBits rex.rm opcode) imm), rest)
  else
    (operands bytes).bind fun (reg, rm, rest) =>
      if opcode = 0x89 ∧ rex.wide then some (instr (.movRR (.ofBits rex.rm rm) (.ofBits rex.reg reg)), rest)
      else if opcode = 0x81 ∧ reg = 7 ∧ !rex.wide then
        (word32 rest).map fun (imm, rest) => (instr (.cmpRI32 (.ofBits rex.rm rm) imm), rest)
      else if opcode = 0xff ∧ reg = 2 then some (instr (.callR (.ofBits rex.rm rm)), rest)
      else none

def decode : Bytes → Option (Form × Bytes)
  | 0xc3 :: rest => some (instr .ret, rest)
  | 0xe9 :: rest => distance .always rest
  | 0x0f :: 0x84 :: rest => distance .ifEqual rest
  | 0x0f :: 0x85 :: rest => distance .ifNotEqual rest
  | 0x3d :: rest => (word32 rest).map fun (imm, rest) => (instr (.cmpRI32 .rax imm), rest)
  | 0x84 :: rest => (operands rest).bind fun (reg, rm, rest) =>
    match Instr.test (.ofBits false rm) (.ofBits false reg) with
    | .ok i => some (instr i, rest)
    | .error _ => none
  | opcode :: rest =>
    if opcode / 16 = 0x40 / 16 then
      match rest with
      | [] => none
      | opcode' :: rest =>
        decodeOpcode { wide := opcode / 8 % 2 = 1, reg := opcode / 4 % 2 = 1, rm := opcode % 2 = 1 } opcode' rest
    else decodeOpcode {} opcode rest
  | [] => none

theorem word32_append (v : UInt32) (rest : Bytes) :
    word32 (Bytes.ofUInt32 v ++ rest) = some (v, rest) := by
  rw [word32, Bytes.ofUInt32, Bytes.split?_littleEndian, Option.map_some]
  exact congrArg (fun word => some (word, rest)) (Bytes.value_ofUInt32 v)

theorem word64_append (v : UInt64) (rest : Bytes) :
    word64 (Bytes.ofUInt64 v ++ rest) = some (v, rest) := by
  rw [word64, Bytes.ofUInt64, Bytes.split?_littleEndian, Option.map_some]
  exact congrArg (fun word => some (word, rest)) (Bytes.value_ofUInt64 v)

theorem operands_modRM (reg rm : Reg) (rest : Bytes) :
    operands (Instr.modRM reg.code rm.code :: rest) = some (reg.code, rm.code, rest) := by
  cases reg <;> cases rm <;> rfl

theorem ofBits_code_of_low : (r : Reg) → r.number < 4 → Reg.ofBits false r.code = r := by
  intro r
  cases r <;> decide

theorem decode_encode (i : Instr) (rest : Bytes) :
    decode (i.encode ++ rest) = some (instr i, rest) := by
  cases i with
  | movRR dst src => cases dst <;> cases src <;> rfl
  | movRI64 dst imm =>
    have hmap := congrArg (Option.map fun (imm, rest) => (instr (.movRI64 dst imm), rest))
      (word64_append imm rest)
    cases dst <;> exact hmap
  | movRI32 dst imm =>
    have hmap := congrArg (Option.map fun (imm, rest) => (instr (.movRI32 dst imm), rest))
      (word32_append imm rest)
    cases dst <;> exact hmap
  | cmpRI32 dst imm =>
    have hmap := congrArg (Option.map fun (imm, rest) => (instr (.cmpRI32 dst imm), rest))
      (word32_append imm rest)
    cases dst <;> exact hmap
  | testR8 a b =>
    have htest : Instr.test a b = .ok (.testR8 a b) := dif_pos ⟨a.property, b.property⟩
    simp only [Instr.encode, List.cons_append, List.nil_append, decode, operands_modRM, Option.bind_some,
      ofBits_code_of_low _ a.property, ofBits_code_of_low _ b.property, htest]
  | push r => cases r <;> rfl
  | pop r => cases r <;> rfl
  | callR r => cases r <;> rfl
  | ret => rfl

theorem decode_jump (j : Jump) {d : Int} (hl : -2 ^ 31 ≤ d) (hr : d < 2 ^ 31) (rest : Bytes) :
    decode (j.opcode ++ Bytes.ofInt32 d ++ rest) = some (jump j d, rest) := by
  have hword : distance j (Bytes.ofInt32 d ++ rest) = some (jump j d, rest) := by
    rw [distance, word32, Bytes.ofInt32, Bytes.split?_littleEndian, Option.map_some, Option.map_some]
    exact congrArg (fun d => some (jump j d, rest)) (Bytes.value_ofInt32 hl hr)
  cases j <;> exact hword

end Form

/-- A thread of the processor and the world that its calls work on. The stack stands apart from
memory. -/
structure Process (σ : Type) where
  regs : Reg → UInt64
  /-- Whether the last comparison found both sides equal, or the last test found zero. -/
  equal : Bool
  stack : List UInt64
  world : σ
  returned : Option UInt64 := none

namespace Process

def set (p : Process σ) (r : Reg) (v : UInt64) : Process σ :=
  { p with regs := fun s => if s = r then v else p.regs s }

end Process

def Jump.taken (equal : Bool) : Jump → Bool
  | always => true
  | ifEqual => equal
  | ifNotEqual => !equal

namespace Callee

def all : List Callee :=
  Action.all.map action ++ Condition.all.map condition ++ [lookupSwitch]

def at? (address : Callee → UInt64) (v : UInt64) : Option Callee :=
  all.find? fun callee => address callee = v

theorem mem_all (callee : Callee) : callee ∈ all := by
  cases callee with
  | action a =>
    have ha : a ∈ Action.all := by cases a <;> decide
    exact List.mem_append_left _ (List.mem_append_left _ (List.mem_map_of_mem ha))
  | condition c =>
    have hc : c ∈ Condition.all := by cases c <;> decide
    exact List.mem_append_left _ (List.mem_append_right _ (List.mem_map_of_mem hc))
  | lookupSwitch => exact List.mem_append_right _ (List.mem_singleton_self _)

theorem at?_address {address : Callee → UInt64} (h : ∀ a b, address a = address b → a = b)
    (callee : Callee) : at? address (address callee) = some callee := by
  cases hf : at? address (address callee) with
  | none => exact absurd (decide_eq_true rfl) (List.find?_eq_none.mp hf callee callee.mem_all)
  | some found =>
    have hfound : address found = address callee := by simpa using List.find?_some hf
    rw [h _ _ hfound]

end Callee

/-- What code runs on: where its callees stand, what they do when they are given a frame, and what
they leave in the registers and flags that they need not keep. -/
structure Host (ε σ : Type) where
  address : Callee → UInt64
  calls : UInt64 → Calls (EStateM ε σ)
  scratch : Process σ → (Reg → UInt64) × Bool

def withLow8 (b : Bool) (v : UInt64) : UInt64 :=
  UInt64.ofNat (v.toNat / 2 ^ 8 * 2 ^ 8 + b.toNat)

def withLow32 (w : UInt32) (v : UInt64) : UInt64 :=
  UInt64.ofNat (v.toNat / 2 ^ 32 * 2 ^ 32 + w.toNat)

theorem toUInt8_withLow8 (b : Bool) (v : UInt64) :
    decide (((withLow8 b v).toUInt8 &&& (withLow8 b v).toUInt8) = 0) = !b := by
  have hlow : (withLow8 b v).toUInt8 = UInt8.ofNat b.toNat := by
    apply UInt8.toNat_inj.mp
    have hb : b.toNat ≤ 1 := Bool.toNat_le b
    rw [withLow8, UInt64.toNat_toUInt8, UInt64.toNat_ofNat', UInt8.toNat_ofNat']
    omega
  rw [hlow]
  cases b <;> decide

theorem toUInt32_withLow32 (w : UInt32) (v : UInt64) : (withLow32 w v).toUInt32 = w := by
  apply UInt32.toNat_inj.mp
  have hw := w.toNat_lt
  rw [withLow32, UInt64.toNat_toUInt32, UInt64.toNat_ofNat']
  omega

namespace Host

/-- Runs a callee on its arguments. The result says how it comes into the register for results. -/
def run (host : Host ε σ) (frame : UInt64) (a b : UInt32) : Callee → EStateM ε σ (UInt64 → UInt64)
  | .action action => do
    (host.calls frame).act { action, a, b }
    return id
  | .condition condition => do
    return withLow8 (← (host.calls frame).test condition)
  | .lookupSwitch => do
    return withLow32 (← (host.calls frame).select a)

def resume (host : Host ε σ) (p : Process σ) (result : UInt64 → UInt64) (world : σ) : Process σ :=
  let left := host.scratch { p with world }
  { p with
    regs := fun r =>
      if r = .rbx then p.regs .rbx else if r = .rax then result (left.1 .rax) else left.1 r
    equal := left.2
    world }

def execute (host : Host ε σ) (next : Nat) (p : Process σ) : Instr → Turn ε (Process σ) Nat
  | .movRR dst src => some (.ok (some next) (p.set dst (p.regs src)))
  | .movRI64 dst imm => some (.ok (some next) (p.set dst imm))
  | .movRI32 dst imm => some (.ok (some next) (p.set dst imm.toUInt64))
  | .cmpRI32 dst imm => some (.ok (some next) { p with equal := (p.regs dst).toUInt32 = imm })
  | .testR8 a b =>
    some (.ok (some next) { p with equal := ((p.regs a).toUInt8 &&& (p.regs b).toUInt8) = 0 })
  | .push r => some (.ok (some next) { p with stack := p.regs r :: p.stack })
  | .pop r =>
    match p.stack with
    | [] => none
    | v :: rest => some (.ok (some next) ({ p with stack := rest }.set r v))
  | .callR r =>
    (Callee.at? host.address (p.regs r)).map fun callee =>
      match host.run (p.regs .rdi) (p.regs .rsi).toUInt32 (p.regs .rdx).toUInt32 callee p.world with
      | .ok result world => .ok (some next) (host.resume p result world)
      | .error e world => .error e { p with world }
  | .ret =>
    match p.stack with
    | [] => none
    | v :: rest => some (.ok none { p with stack := rest, returned := some v })

/-- One instruction of machine code. Bytes that are no instruction stop the processor, and so does a
jump to before the code. -/
def turn (host : Host ε σ) (code : Bytes) (place : Nat) (p : Process σ) : Turn ε (Process σ) Nat :=
  match Form.decode (code.drop place) with
  | none => none
  | some (form, rest) =>
    let next := code.length - rest.length
    match form with
    | .instr i => host.execute next p i
    | .jump j distance =>
      if !j.taken p.equal then some (.ok (some next) p)
      else if next + distance < 0 then none
      else some (.ok (some (next + distance).toNat) p)

end Host

end ActionVm.Native
