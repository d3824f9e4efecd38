import ActionVm.Bytes.Basic
import ActionVm.Code.Opcode
import ActionVm.Number.Bounds

namespace ActionVm

/-- One line of assembly. Labels are numbered from 0 in the order of the `label` lines. -/
inductive Line where
  | op (op : Opcode)
  | opU30 (op : Opcode) (a : UInt32)
  | opU30U30 (op : Opcode) (a b : UInt32)
  | pushByte (value : UInt8)
  | getLocal (index : UInt32)
  | setLocal (index : UInt32)
  | label
  | bind (label : Nat)
  | branch (op : Opcode) (label : Nat)
  | lookupSwitch (default : Nat) (cases : List Nat)
  deriving DecidableEq, Repr

structure CodeFixup where
  field : Nat
  base : Nat
  label : Nat
  deriving DecidableEq, Repr

structure Assembly where
  code : Array UInt8 := #[]
  labels : Array (Option Nat) := #[]
  fixups : Array CodeFixup := #[]

namespace Assembly

def emit (a : Assembly) (bytes : Bytes) : Assembly :=
  { a with code := a.code ++ bytes }

def reference (a : Assembly) (base label : Nat) : Assembly :=
  { a with
    code := a.code ++ Bytes.ofInt24 0
    fixups := a.fixups.push { field := a.code.size, base, label } }

/-- The first four locals have opcodes of their own. -/
def shortForm (long : Opcode) (short : List Opcode) (index : UInt32) : Bytes :=
  match short[index.toNat]? with
  | some op => [op.byte]
  | none => long.byte :: Bytes.varint index

def getLocal (index : UInt32) : Bytes :=
  shortForm .getLocal [.getLocal0, .getLocal1, .getLocal2, .getLocal3] index

def setLocal (index : UInt32) : Bytes :=
  shortForm .setLocal [.setLocal0, .setLocal1, .setLocal2, .setLocal3] index

def lookupSwitch (a : Assembly) (default : Nat) (cases : List Nat) : Assembly :=
  let base := a.code.size
  let head := (a.emit [Opcode.lookupSwitch.byte]).reference base default
  cases.foldl (·.reference base ·) (head.emit (Bytes.varint (UInt32.ofNat (cases.length - 1))))

def bind (a : Assembly) (label : Nat) : Except BoundsError Assembly := do
  let label ← Bounds.place a.labels.size label
  return { a with labels := a.labels.setIfInBounds label (some a.code.size) }

def line (a : Assembly) : Line → Except BoundsError Assembly
  | .op op => return a.emit [op.byte]
  | .opU30 op x => return a.emit (op.byte :: Bytes.varint x)
  | .opU30U30 op x y => return a.emit (op.byte :: (Bytes.varint x ++ Bytes.varint y))
  | .pushByte value => return a.emit [Opcode.pushByte.byte, value]
  | .getLocal index => return a.emit (getLocal index)
  | .setLocal index => return a.emit (setLocal index)
  | .label => return { a with labels := a.labels.push none }
  | .bind label => a.bind label
  | .branch op label => return (a.emit [op.byte]).reference (a.code.size + 4) label
  | .lookupSwitch default cases => return a.lookupSwitch default cases

def target (a : Assembly) (stop label : Nat) : Except BoundsError Nat := do
  let label ← Bounds.place a.labels.size label
  return a.labels[label]?.join.getD stop

def fix (a : Assembly) (code : Array UInt8) (f : CodeFixup) : Except BoundsError (Array UInt8) := do
  let target ← a.target a.code.size f.label
  return Bytes.patch code f.field (Bytes.ofInt24 ((target : Int) - f.base))

def finish (a : Assembly) : Except BoundsError Bytes := do
  return (← a.fixups.foldlM a.fix a.code).toList

end Assembly

/-- The code of some lines. A label that is bound nowhere stands for the end of the code. It is an error to
bind a label before its `label` line, or to branch to one that has none. -/
def assemble (lines : List Line) : Except BoundsError Bytes := do
  (← lines.foldlM Assembly.line {}).finish

end ActionVm
