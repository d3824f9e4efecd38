import ActionVm.Bytes.Basic
import ActionVm.Number.Bounds

namespace ActionVm.Native

structure UnboundLabel where
  label : Nat
  deriving DecidableEq, Repr

namespace UnboundLabel

def message (e : UnboundLabel) : String :=
  s!"label {e.label} referenced but never bound"

end UnboundLabel

/-- Machine code with labels. A reference to a label is a four-byte field that is filled in at the end with
the distance from behind the field to where the label was bound last. -/
structure Buffer where
  code : Array UInt8 := #[]
  labels : Array (Option Nat) := #[]
  fixups : Array (Nat × Nat) := #[]

namespace Buffer

def emit (b : Buffer) (bytes : Bytes) : Buffer :=
  { b with code := b.code ++ bytes }

def newLabel (b : Buffer) : Buffer × Nat :=
  ({ b with labels := b.labels.push none }, b.labels.size)

def label (b : Buffer) (number : Nat) : Except BoundsError Nat :=
  Bounds.place b.labels.size number

def bind (b : Buffer) (label : Nat) : Buffer :=
  { b with labels := b.labels.setIfInBounds label (some b.code.size) }

def target? (b : Buffer) (label : Nat) : Option Nat :=
  b.labels[label]?.join

def rel32 (b : Buffer) (label : Nat) : Buffer :=
  { b with
    code := b.code ++ Bytes.ofUInt32 0
    fixups := b.fixups.push (b.code.size, label) }

def fix (b : Buffer) (code : Array UInt8) (field label : Nat) :
    Except UnboundLabel (Array UInt8) :=
  match b.target? label with
  | none => .error ⟨label⟩
  | some target => .ok (Bytes.patch code field (Bytes.ofInt32 ((target : Int) - (field + 4))))

def finish (b : Buffer) : Except UnboundLabel Bytes := do
  let code ← b.fixups.foldlM (fun code (field, label) => b.fix code field label) b.code
  return code.toList

end Buffer

end ActionVm.Native
