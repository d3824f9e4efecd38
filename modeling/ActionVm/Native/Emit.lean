import ActionVm.Graph.Basic
import ActionVm.Native.Buffer
import ActionVm.Native.Encoding
import ActionVm.Native.Region

namespace ActionVm.Native

inductive Callee where
  | action (a : Action)
  | condition (c : Condition)
  | lookupSwitch
  deriving DecidableEq, Repr

namespace Callee

def name : Callee → String
  | action a => a.name
  | condition c => c.name
  | lookupSwitch => "LookupSwitch"

end Callee

inductive EmitError where
  | graph (e : GraphError)
  | memory (e : RegionError)
  | label (e : UnboundLabel)
  deriving DecidableEq, Repr

namespace EmitError

def message : EmitError → String
  | graph e => e.message
  | memory e => e.message
  | label e => e.message

end EmitError

/-- Finished code, and where in it the address of each callee stands. -/
structure MachineCode where
  bytes : Bytes
  calls : List (Nat × Callee)

structure Emission where
  buffer : Buffer := {}
  calls : Array (Nat × Callee) := #[]

namespace Emission

def frame : Reg := .rbx

/-- The low byte of the register in which calls return. -/
def result : LowReg := ⟨.rax, by decide⟩

def instr (e : Emission) (i : Instr) : Emission :=
  { e with buffer := e.buffer.emit i.encode }

def jump (e : Emission) (j : Jump) (label : Nat) : Emission :=
  { e with buffer := (e.buffer.emit j.opcode).rel32 label }

/-- Loads the callee's address and calls it. The address stands behind two bytes. -/
def call (address : Callee → UInt64) (e : Emission) (callee : Callee) : Emission :=
  let field := e.buffer.code.size + 2
  let e := (e.instr (.movRI64 .rax (address callee))).instr (.callR .rax)
  { e with calls := e.calls.push (field, callee) }

def step (address : Callee → UInt64) (e : Emission) (s : Step) : Emission :=
  (((e.instr (.movRR .rdi frame)).instr (.movRI32 .rsi s.a)).instr (.movRI32 .rdx s.b)).call
    address (.action s.action)

def cases (places : Std.HashMap Nat Nat) (source : Nat) (e : Emission) :
    List (Nat × Nat) → Except GraphError Emission
  | [] => .ok e
  | (target, i) :: rest => do
    let label ← targetPlace places source target
    cases places source ((e.instr (.cmpRI32 .rax (UInt32.ofNat i))).jump .ifEqual label) rest

def exit (address : Callee → UInt64) (places : Std.HashMap Nat Nat) (source : Nat) (e : Emission) :
    Exit → Except GraphError Emission
  | .ret => .ok ((e.instr (.pop frame)).instr .ret)
  | .jump target => do
    let label ← targetPlace places source target
    return e.jump .always label
  | .branch condition taken fallthrough => do
    let e := ((e.instr (.movRR .rdi frame)).call address (.condition condition)).instr
      (.testR8 result result)
    let label ← targetPlace places source taken
    let e := e.jump .ifNotEqual label
    let label ← targetPlace places source fallthrough
    return e.jump .always label
  | .switch targets default => do
    let e := ((e.instr (.movRR .rdi frame)).instr
      (.movRI32 .rsi (UInt32.ofNat (targets.length - 1)))).call address .lookupSwitch
    let e ← cases places source e targets.zipIdx
    let label ← targetPlace places source default
    return e.jump .always label

/-- A block begins where its label, the block's place, is bound. -/
def block (address : Callee → UInt64) (places : Std.HashMap Nat Nat) (e : Emission) (b : Block)
    (place : Nat) : Except GraphError Emission :=
  let e := { e with buffer := e.buffer.bind place }
  let e := b.steps.foldl (step address) e
  match b.exit with
  | none => .error (.missingTerminator b.offset)
  | some exit => e.exit address places b.offset exit

def start (g : Graph) : Emission :=
  let e : Emission := { buffer := { labels := Array.replicate g.blocks.length none } }
  (e.instr (.push frame)).instr (.movRR frame .rdi)

def blocks (address : Callee → UInt64) (g : Graph) : Except GraphError Emission :=
  let places := g.places
  g.blocks.zipIdx.foldlM (fun e (b, place) => e.block address places b place) (start g)

end Emission

/-- The frame stays in `rbx`; every step is one call, and the result of a condition or switch decides where to go.

    entry:   push rbx; mov rbx, rdi
    step:    mov rdi, rbx; mov esi, a; mov edx, b; mov rax, action; call rax
    branch:  mov rdi, rbx; mov rax, condition; call rax; test al, al; jne taken; jmp fallthrough
    return:  pop rbx; ret
-/
def emit (address : Callee → UInt64) (g : Graph) : Except EmitError MachineCode :=
  match Emission.blocks address g with
  | .error e => .error (.graph e)
  | .ok e =>
    match e.buffer.finish with
    | .error unbound => .error (.label unbound)
    | .ok bytes => .ok { bytes, calls := e.calls.toList }

namespace Buffer

def toRegion (b : Buffer) : Except EmitError Region :=
  match b.finish with
  | .error unbound => .error (.label unbound)
  | .ok code =>
    match Region.ofCode code with
    | .error e => .error (.memory e)
    | .ok region => .ok region

end Buffer

end ActionVm.Native
