import ActionVm.Code.Instruction
import ActionVm.Graph.Basic

namespace ActionVm

/-- What an instruction means for the block it stands in. -/
inductive Effect where
  | load (index : UInt32)
  | store (index : UInt32)
  | dup
  | pop
  | returnValue
  | returnVoid
  | skip
  | leave (exit : Exit)
  | act (step : Step)
  | unknown (byte : UInt8)
  | unsupported (byte : UInt8)
  deriving DecidableEq, Repr

namespace Opcode

def condition? : Opcode → Option Condition
  | ifTrue => some .isTrue
  | ifFalse => some .isFalse
  | ifEq => some .eq
  | ifNe => some .ne
  | ifStrictEq => some .strictEq
  | ifStrictNe => some .strictNe
  | ifLt => some .lt
  | ifLe => some .le
  | ifGt => some .gt
  | ifGe => some .ge
  | ifNlt => some .nlt
  | ifNle => some .nle
  | ifNgt => some .ngt
  | ifNge => some .nge
  | _ => none

/-- The action that carries an opcode's operands as they are. -/
def action? : Opcode → Option Action
  | kill => some .kill
  | swap => some .swap
  | pushNull => some .pushNull
  | pushUndefined => some .pushUndefined
  | pushTrue => some .pushTrue
  | pushFalse => some .pushFalse
  | pushNaN => some .pushNaN
  | pushByte => some .pushByte
  | pushShort => some .pushShort
  | pushString => some .pushString
  | pushInt => some .pushInt
  | pushUint => some .pushUint
  | pushDouble => some .pushDouble
  | pushScope => some .pushScope
  | popScope => some .popScope
  | getGlobalScope => some .getGlobalScope
  | getScopeObject => some .getScopeObject
  | add => some .add
  | subtract => some .subtract
  | multiply => some .multiply
  | divide => some .divide
  | incLocalI => some .incLocalI
  | lessThan => some .lessThan
  | greaterThan => some .greaterThan
  | throw => some .throw
  | newCatch => some .newCatch
  | nextValue => some .nextValue
  | constructSuper => some .constructSuper
  | setSuper => some .setSuper
  | getProperty => some .getProperty
  | setProperty => some .setProperty
  | initProperty => some .initProperty
  | deleteProperty => some .deleteProperty
  | getSlot => some .getSlot
  | setSlot => some .setSlot
  | findProperty => some .findProperty
  | findPropStrict => some .findPropStrict
  | getLex => some .getLex
  | callProperty | callPropLex => some .callProperty
  | callPropVoid => some .callPropVoid
  | callSuper => some .callSuper
  | callSuperVoid => some .callSuperVoid
  | call => some .call
  | construct => some .construct
  | constructProp => some .constructProp
  | newFunction => some .newFunction
  | newObject => some .newObject
  | newArray => some .newArray
  | newActivation => some .newActivation
  | newClass => some .newClass
  | hasNext2 => some .hasNext2
  | nextName => some .nextName
  | _ => none

/-- The stub that stands in for an opcode without an action; it is told the opcode's byte. -/
def stub? : Opcode → Option Action
  | increment | decrement | incrementI | decrementI | not | convertS | convertI | convertU
  | convertD | convertB | convertO | coerce | coerceA | coerceS => some .unaryStub
  | equals | strictEquals | isTypeLate | asTypeLate => some .binaryStub
  | _ => none

end Opcode

namespace Args

/-- The immediate operands that a step carries. -/
def immediates : Args → UInt32 × UInt32
  | one a => (a, 0)
  | two a b => (a, b)
  | _ => (0, 0)

end Args

namespace Instruction

def exit? (i : Instruction) (op : Opcode) : Option Exit :=
  if op = .lookupSwitch then
    match i.switchTargets with
    | default :: cases => some (.switch cases default)
    | [] => none
  else
    i.branchTarget?.bind fun taken =>
      if op = .jump then some (.jump taken)
      else op.condition?.map fun condition => .branch condition taken i.next

def operation (i : Instruction) (op : Opcode) : Effect :=
  match i.exit? op with
  | some exit => .leave exit
  | none =>
    match op.action?, op.stub? with
    | some action, _ => .act { action, a := i.args.immediates.1, b := i.args.immediates.2 }
    | none, some action => .act { action, a := i.byte.toUInt32 }
    | none, none => .unsupported i.byte

def effect (i : Instruction) : Effect :=
  match i.opcode with
  | none => .unknown i.byte
  | some op =>
    match op with
    | .getLocal => .load i.args.immediates.1
    | .getLocal0 => .load 0
    | .getLocal1 => .load 1
    | .getLocal2 => .load 2
    | .getLocal3 => .load 3
    | .setLocal => .store i.args.immediates.1
    | .setLocal0 => .store 0
    | .setLocal1 => .store 1
    | .setLocal2 => .store 2
    | .setLocal3 => .store 3
    | .dup => .dup
    | .pop => .pop
    | .returnValue => .returnValue
    | .returnVoid => .returnVoid
    | .nop | .label | .debug | .debugLine | .debugFile => .skip
    | _ => i.operation op

/-- The offsets at which this instruction makes blocks start. -/
def starts (i : Instruction) : List Nat :=
  match i.opcode with
  | some .lookupSwitch => i.switchTargets
  | some .label => [i.next]
  | _ =>
    match i.branchTarget? with
    | some target => [target, i.next]
    | none => []

end Instruction

/-- Puts an offset in its place unless it is there. -/
def insertOffset (n : Nat) : List Nat → List Nat
  | [] => [n]
  | m :: rest =>
    if n < m then n :: m :: rest
    else if n = m then m :: rest
    else m :: insertOffset n rest

theorem mem_insertOffset {n m : Nat} {ms : List Nat} :
    m ∈ insertOffset n ms ↔ m = n ∨ m ∈ ms := by
  induction ms with
  | nil => simp [insertOffset]
  | cons k rest ih =>
    unfold insertOffset
    split
    · simp
    · split <;> simp_all
      grind

theorem pairwise_insertOffset {n : Nat} {ms : List Nat} (h : ms.Pairwise (· < ·)) :
    (insertOffset n ms).Pairwise (· < ·) := by
  induction ms with
  | nil => simp [insertOffset]
  | cons k rest ih =>
    obtain ⟨hk, hrest⟩ := List.pairwise_cons.mp h
    unfold insertOffset
    split
    · rename_i hn
      refine List.pairwise_cons.mpr ⟨fun m hm => ?_, h⟩
      rcases List.mem_cons.mp hm with rfl | hm
      · exact hn
      · exact Nat.lt_trans hn (hk m hm)
    · split
      · exact h
      · refine List.pairwise_cons.mpr ⟨fun m hm => ?_, ih hrest⟩
        rcases mem_insertOffset.mp hm with rfl | hm
        · omega
        · exact hk m hm

def blockStarts (instructions : List Instruction) : List Nat :=
  (instructions.flatMap Instruction.starts).foldr insertOffset [0]

theorem pairwise_blockStarts (instructions : List Instruction) :
    (blockStarts instructions).Pairwise (· < ·) := by
  unfold blockStarts
  induction instructions.flatMap Instruction.starts with
  | nil => simp
  | cons _ _ ih => exact pairwise_insertOffset ih

/-- A walk over the instructions: the blocks that are closed, the last one first; the block that is
being filled, with its steps from the last one on; and the locals whose loads wait, the last one first. -/
structure Walk where
  closed : List Block := []
  current : Option Nat := some 0
  steps : List Step := []
  pending : List UInt32 := []

/-- The step that ends code which cannot go on. -/
def trapStep (byte : UInt8) : Step :=
  { action := .trap, a := byte.toUInt32 }

namespace Walk

def emit (w : Walk) (s : Step) : Walk :=
  { w with steps := s :: w.steps }

/-- Loads what waits onto the operand stack, the oldest first. -/
def flush (w : Walk) : Walk :=
  { w with
    steps := w.pending.map (fun i => { action := .getLocal, a := i }) ++ w.steps
    pending := [] }

/-- Ends the current block. Loads that still wait are dropped. -/
def close (w : Walk) (exit : Exit) : Walk :=
  match w.current with
  | none => w
  | some offset =>
    { closed := { offset, steps := w.steps.reverse, exit := some exit } :: w.closed
      current := none }

/-- A waiting load is stored without reaching the stack. Older loads of the stored local go first. -/
def store (w : Walk) (index : UInt32) : Walk :=
  match w.pending with
  | [] => w.emit { action := .setLocal, a := index }
  | source :: older =>
    let w := { w with pending := older }
    if source = index then w
    else
      let w := if older.contains index then w.flush else w
      w.emit { action := .copyLocal, a := source, b := index }

def apply (w : Walk) : Effect → Walk
  | .load index => { w with pending := index :: w.pending }
  | .store index => w.store index
  | .dup =>
    match w.pending with
    | top :: _ => { w with pending := top :: w.pending }
    | [] => w.emit { action := .dup }
  | .pop =>
    match w.pending with
    | _ :: older => { w with pending := older }
    | [] => w.emit { action := .pop }
  | .returnValue =>
    let step : Step := match w.pending with
      | index :: _ => { action := .returnLocal, a := index }
      | [] => { action := .returnValue }
    (w.emit step).close .ret
  | .returnVoid => w.close .ret
  | .skip => w
  | .leave exit => w.flush.close exit
  | .act step => w.flush.emit step
  | .unknown byte => (w.emit (trapStep byte)).close .ret
  | .unsupported byte => (w.flush.emit (trapStep byte)).close .ret

def enter (w : Walk) (offset : Nat) : Walk :=
  let w := if w.current.isSome then w.flush.close (.jump offset) else w
  { w with current := some offset }

/-- Lowers instruction after instruction, with the starts that are still to come. Code behind an exit is
passed over up to the next start, and the first instruction that cannot be lowered ends the walk. -/
def run (starts : List Nat) (w : Walk) : List Instruction → Walk
  | [] => w
  | i :: rest =>
    let starts := starts.dropWhile (· < i.offset)
    let w := if starts.head? = some i.offset then w.enter i.offset else w
    if w.current.isNone then run starts w rest
    else
      match i.effect with
      | .unknown byte => w.apply (.unknown byte)
      | .unsupported byte => w.apply (.unsupported byte)
      | effect => run starts (w.apply effect) rest

/-- The blocks that were filled, in order. One that is still open traps with the byte at its offset. -/
def finish (w : Walk) (code : Bytes) : List Block :=
  let w := w.flush
  match w.current with
  | none => w.closed.reverse
  | some offset => ((w.emit (trapStep (code.getD offset 0))).close .ret).closed.reverse

end Walk

/-- The blocks at all starts. One that was not filled traps with the byte at its offset. -/
def fillBlocks (code : Bytes) : List Nat → List Block → List Block
  | [], _ => []
  | start :: starts, filled =>
    let missing : Block :=
      { offset := start, steps := [trapStep (code.getD start 0)], exit := some .ret }
    match filled with
    | [] => missing :: fillBlocks code starts []
    | b :: rest =>
      if b.offset = start then b :: fillBlocks code starts rest
      else missing :: fillBlocks code starts (b :: rest)

@[simp] theorem map_offset_fillBlocks (code : Bytes) (starts : List Nat) (filled : List Block) :
    (fillBlocks code starts filled).map Block.offset = starts := by
  induction starts generalizing filled with
  | nil => rfl
  | cons start starts ih =>
    cases filled with
    | nil => simp [fillBlocks, ih]
    | cons b rest =>
      simp only [fillBlocks]
      split <;> simp_all

namespace Graph

/-- Blocks start at offset 0, at every target, and behind every branch and label. Within a block, loads of
locals wait above the operand stack until something needs them there, so that copies between locals never
touch the stack. -/
def ofCode (code : Bytes) : Graph :=
  let instructions := Instruction.sweep code
  let starts := blockStarts instructions
  let walked := Walk.run starts.tail {} instructions
  ⟨fillBlocks code starts (walked.finish code), List.pairwise_map.mp <| by
    rw [map_offset_fillBlocks]
    exact pairwise_blockStarts instructions⟩

end Graph

end ActionVm
