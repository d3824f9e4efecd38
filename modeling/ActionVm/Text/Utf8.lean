import ActionVm.Bytes.Basic

namespace ActionVm.Utf8

/-- What a started character still needs: the bits read so far, the bytes owed, and the range that
the next byte has to lie in. -/
structure Pending where
  bits : Nat
  owed : Nat
  low : UInt8 := 0x80
  high : UInt8 := 0xBF

def replacement : Char := '\uFFFD'

def lead (b : UInt8) : List Char × Option Pending :=
  if b < 0x80 then ([Char.ofNat b.toNat], none)
  else if b < 0xC2 then ([replacement], none)
  else if b < 0xE0 then ([], some { bits := b.toNat % 32, owed := 1 })
  else if b = 0xE0 then ([], some { bits := 0, owed := 2, low := 0xA0 })
  else if b = 0xED then ([], some { bits := 13, owed := 2, high := 0x9F })
  else if b < 0xF0 then ([], some { bits := b.toNat % 16, owed := 2 })
  else if b = 0xF0 then ([], some { bits := 0, owed := 3, low := 0x90 })
  else if b < 0xF4 then ([], some { bits := b.toNat % 8, owed := 3 })
  else if b = 0xF4 then ([], some { bits := 4, owed := 3, high := 0x8F })
  else ([replacement], none)

/-- A byte that does not continue a started character ends it and is looked at afresh. -/
def step : Option Pending → UInt8 → List Char × Option Pending
  | none, b => lead b
  | some p, b =>
    if p.low ≤ b ∧ b ≤ p.high then
      let bits := p.bits * 64 + b.toNat % 64
      if p.owed ≤ 1 then ([Char.ofNat bits], none) else ([], some { bits, owed := p.owed - 1 })
    else
      let (chars, next) := lead b
      (replacement :: chars, next)

def decodeFrom (pending : Option Pending) : Bytes → List Char
  | [] => if pending.isSome then [replacement] else []
  | b :: rest =>
    let (chars, next) := step pending b
    chars ++ decodeFrom next rest

/-- Reading never fails: every maximal run of bytes that starts a character and does not finish it, and
every byte that starts none, is read as U+FFFD. -/
def decode (bytes : Bytes) : String :=
  String.ofList (decodeFrom none bytes)

def encode (text : String) : Bytes :=
  text.toList.flatMap String.utf8EncodeChar

end ActionVm.Utf8
