import ActionVm.Document.Anomaly
import ActionVm.Number.Double
import ActionVm.Text.Utf8

namespace ActionVm

/-- The bytes still to be read, how many were read before them, and the anomalies met so far. -/
structure Input where
  rest : Bytes
  position : Nat := 0
  anomalies : List Anomaly := []

/-- Every entry of a list takes a byte at least, so no list is longer than the input left. -/
def Input.capacityFor (input : Input) (count : Nat) : Nat :=
  min count input.rest.length

/-- A reader keeps the input that it has reached also when it fails, so that reading can go on from there: a
failed fixed-width read consumes nothing, a failed varint keeps the bytes it took. -/
abbrev Read := EStateM ReadError Input

namespace Read

def position : Read Nat := do
  return (← get).position

def note (anomaly : Anomaly) : Read Unit :=
  modify fun input => { input with anomalies := input.anomalies ++ [anomaly] }

def takeAnomalies : Read (List Anomaly) :=
  modifyGet fun input => (input.anomalies, { input with anomalies := [] })

def bytes (count : Nat) : Read Bytes := fun input =>
  match Bytes.split? count input.rest with
  | some (taken, rest) => .ok taken { input with rest, position := input.position + count }
  | none => .error (.endOfInput input.position count) input

def u8 : Read UInt8 := do
  return (← bytes 1).headD 0

def u16 : Read UInt16 := do
  return UInt16.ofNat (Bytes.value (← bytes 2))

def d64 : Read Double := do
  return ⟨UInt64.ofNat (Bytes.value (← bytes 8))⟩

/-- Three bytes, the top bit being the sign. -/
def s24 : Read Int := do
  return Int.bmod (Bytes.value (← bytes 3)) 0x1000000

/-- The bytes of a varint: up to the first one with a clear top bit, and at most `limit` of them. -/
def groups : Nat → Read Bytes
  | 0 => pure []
  | limit + 1 => do
    let b ← u8
    if b < 128 ∨ limit = 0 then
      return [b]
    else
      let more ← groups limit
      return b :: more

def varint : Read Bytes :=
  groups 5

/-- A word that should have 30 bits. Bits above the word are dropped. -/
def u30 : Read UInt32 := do
  let offset ← position
  let value := UInt32.ofNat (Bytes.groupValue (← varint))
  if 0x40000000 ≤ value.toNat then
    note (.u30Overflow offset value)
  return value

def u32 : Read UInt32 := do
  let offset ← position
  let taken ← varint
  if taken.length = 5 ∧ 15 < (taken.getLastD 0).toNat % 128 then
    note (.u32HighBits offset)
  return UInt32.ofNat (Bytes.groupValue taken)

/-- Fewer than five groups are extended by the sign in bit 6 of the last; five groups fill the word. -/
def s32 : Read Int32 := do
  let taken ← varint
  let value : Int := Bytes.groupValue taken
  if taken.length < 5 ∧ 64 ≤ (taken.getLastD 0).toNat % 128 then
    return Int32.ofInt (value - (1 <<< (7 * taken.length) : Nat))
  else
    return Int32.ofInt value

def text : Read String := do
  let length ← u30
  let offset ← position
  let taken ← bytes length.toNat
  if taken.any (128 ≤ ·) then
    note (.multibyteString offset)
  return Utf8.decode taken

def times (count : Nat) (entry : Read α) : Read (List α) :=
  match count with
  | 0 => pure []
  | count + 1 => do
    let first ← entry
    let more ← times count entry
    return first :: more

def counted (entry : Read α) : Read (List α) := do
  let count ← u30
  times count.toNat entry

def numbered (entry : Nat → Read α) (index : Nat) : Nat → Read (List α)
  | 0 => pure []
  | count + 1 => do
    let first ← entry index
    let more ← numbered entry (index + 1) count
    return first :: more

/-- A table whose index 0 is implied: the count includes it, so one entry less follows. -/
def table (entry : Nat → Read α) : Read (List α) := do
  let count ← u30
  numbered entry 1 (count.toNat - 1)

end Read

end ActionVm
