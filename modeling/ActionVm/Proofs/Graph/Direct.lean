import ActionVm.Graph.Lowering
import ActionVm.Proofs.Graph.Walk
import Mathlib.Algebra.Group.Nat.Defs

namespace ActionVm

namespace Instruction

def loaded? (i : Instruction) : Option UInt32 :=
  match i.opcode with
  | some .getLocal => some i.args.immediates.1
  | some .getLocal0 => some 0
  | some .getLocal1 => some 1
  | some .getLocal2 => some 2
  | some .getLocal3 => some 3
  | _ => none

def stored? (i : Instruction) : Option UInt32 :=
  match i.opcode with
  | some .setLocal => some i.args.immediates.1
  | some .setLocal0 => some 0
  | some .setLocal1 => some 1
  | some .setLocal2 => some 2
  | some .setLocal3 => some 3
  | _ => none

def leaves (i : Instruction) : Bool :=
  match i.effect with
  | .returnValue | .returnVoid | .leave _ => true
  | _ => false

def isSupported (i : Instruction) : Bool :=
  match i.effect with
  | .unknown _ | .unsupported _ => false
  | _ => true

/-- The instructions up to the first one that is unsupported and not dead. Code is dead behind an
instruction that leaves its block, up to the next start. -/
def covered (starts : List Nat) (live : Bool) : List Instruction → List Instruction
  | [] => []
  | i :: rest =>
    let live := live || starts.contains i.offset
    if live && !i.isSupported then [i] else i :: covered starts (live && !i.leaves) rest

def known (code : Bytes) : List Instruction :=
  covered (blockStarts (sweep code)) true (sweep code)

end Instruction

namespace FrameM

def trap (byte : UInt8) : FrameM α :=
  fail (.notImplemented byte.toUInt32)

/-- Executes one instruction and gives the offset of the next one, or none behind a return. A branch
counts from the next instruction, a switch from its own opcode. The default of a switch stands
behind its last case, where its number has to fit a word. -/
def execute (invoke : Invoke) (i : Instruction) : FrameM (Option Nat) :=
  match i.loaded?, i.stored? with
  | some index, _ => do
    push (← getLocal index)
    return some i.next
  | none, some index => do
    setLocal index (← pop)
    return some i.next
  | none, none =>
    match i.opcode, i.args with
    | some .dup, _ => do
      push (← peek)
      return some i.next
    | some .pop, _ => do
      let _ ← pop
      return some i.next
    | some .returnValue, _ => do
      setResult (← pop)
      return none
    | some .returnVoid, _ => return none
    | some .nop, _ | some .label, _ | some .debug, _ | some .debugLine, _ | some .debugFile, _ =>
      return some i.next
    | some .jump, .branch displacement => return some (address (i.next + displacement))
    | some .lookupSwitch, .switch default cases => do
      let selector := (← value (← pop)).toInt.toInt
      let last := UInt32.ofNat (cases.length - 1)
      if 0 ≤ selector ∧ selector ≤ last.toNat then
        return some (address (i.offset + cases.getD selector.toNat default))
      else
        let _ ← Stop.within (Bounds.add UInt32.size last.toNat 1)
        return some (address (i.offset + default))
    | some op, args =>
      match op.condition?, args, i.effect with
      | some condition, .branch displacement, _ => do
        return some (if ← test condition then address (i.next + displacement) else i.next)
      | _, _, .act step => do
        act invoke step
        return some i.next
      | _, _, _ => trap i.byte
    | none, _ => trap i.byte

end FrameM

namespace Effect

def execute (invoke : Invoke) (next : Nat) : Effect → FrameM (Option Nat)
  | load index => do
    FrameM.push (← FrameM.getLocal index)
    return some next
  | store index => do
    FrameM.setLocal index (← FrameM.pop)
    return some next
  | dup => do
    FrameM.push (← FrameM.peek)
    return some next
  | pop => do
    let _ ← FrameM.pop
    return some next
  | returnValue => do
    FrameM.setResult (← FrameM.pop)
    return none
  | returnVoid => return none
  | skip => return some next
  | leave exit => exit.leave (FrameM.calls invoke)
  | act step => do
    FrameM.act invoke step
    return some next
  | unknown byte | unsupported byte => FrameM.trap byte

end Effect

namespace FrameM

theorem select_bind (cases : List Int) (hc : cases.length ≤ 2 ^ 32) (default : Int) (f : Int → Nat) :
    (do
      let i ← select (UInt32.ofNat (cases.length - 1))
      return some ((cases.map f).getD i.toNat (f default))) =
    (do
      let selector := (← value (← pop)).toInt.toInt
      let last := UInt32.ofNat (cases.length - 1)
      if 0 ≤ selector ∧ selector ≤ last.toNat then
        return some (f (cases.getD selector.toNat default))
      else
        let _ ← Stop.within (Bounds.add UInt32.size last.toNat 1)
        return some (f default) : FrameM (Option Nat)) := by
  have hmap (n : Nat) : (cases.map f).getD n (f default) = f (cases.getD n default) := by
    rw [List.getD_eq_getElem?_getD, List.getElem?_map, Option.getD_map, List.getD_eq_getElem?_getD]
  have hlast : (UInt32.ofNat (cases.length - 1)).toNat = cases.length - 1 := by
    rw [UInt32.toNat_ofNat']
    omega
  simp only [select, bind_assoc, hlast, hmap]
  refine bind_congr fun r => bind_congr fun v => ?_
  split
  · rename_i hrange
    have hi : (UInt32.ofNat v.toInt.toInt.toNat).toNat = v.toInt.toInt.toNat := by
      rw [UInt32.toNat_ofNat']
      omega
    simp only [pure_bind, hi]
  · unfold Bounds.add
    split
    · rename_i hfits
      rw [UInt32.size] at hfits
      have hbehind : (UInt32.ofNat (cases.length - 1 + 1)).toNat = cases.length - 1 + 1 := by
        rw [UInt32.toNat_ofNat']
        omega
      have hnone : cases.getD (cases.length - 1 + 1) default = default := by
        rw [List.getD_eq_getElem?_getD, List.getElem?_eq_none (by omega)]
        rfl
      simp only [Stop.within, pure_bind, hbehind, hnone]
    · rfl

theorem execute_eq (invoke : Invoke) {i : Instruction}
    (h : ∀ default cases, i.args = .switch default cases → cases.length ≤ 2 ^ 32) :
    execute invoke i = i.effect.execute invoke i.next := by
  obtain ⟨offset, next, byte, opcode, args⟩ := i
  cases opcode with
  | none => rfl
  | some op =>
    cases op
    case lookupSwitch =>
      cases args
      case switch default cases =>
        have hselect := select_bind cases (h _ _ rfl) default fun d => address (offset + d)
        simp only [execute, Instruction.loaded?, Instruction.stored?, Instruction.effect,
          Instruction.operation, Instruction.exit?, Instruction.switchTargets, ↓reduceIte, List.map_cons,
          Effect.execute, Exit.leave, List.length_map]
        exact hselect.symm
      all_goals rfl
    all_goals cases args <;> rfl

end FrameM

def Instruction.turn (invoke : Invoke) (code : Bytes) (offset : Nat) (a : Activation) :
    Turn Stop Activation Nat :=
  some (match (known code).find? (·.offset = offset) with
    | some i => FrameM.execute invoke i a
    | none => FrameM.trap (code.getD offset 0) a)

end ActionVm
