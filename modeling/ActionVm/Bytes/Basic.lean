namespace ActionVm

abbrev Bytes := List UInt8

namespace Bytes

def split? : Nat → Bytes → Option (Bytes × Bytes)
  | 0, rest => some ([], rest)
  | _ + 1, [] => none
  | n + 1, b :: rest => (split? n rest).map fun (taken, left) => (b :: taken, left)

def littleEndian : Nat → Nat → Bytes
  | 0, _ => []
  | width + 1, n => UInt8.ofNat n :: littleEndian width (n / 256)

def value : Bytes → Nat
  | [] => 0
  | b :: rest => b.toNat + 256 * value rest

/-- Base-128 groups of `n`, at most `groups` of them; every byte but the last has its top bit set. -/
def varintGroups : Nat → Nat → Bytes
  | 0, _ => []
  | groups + 1, n =>
    if n < 128 then [UInt8.ofNat n]
    else UInt8.ofNat (n % 128 + 128) :: varintGroups groups (n / 128)

def varint (v : UInt32) : Bytes :=
  varintGroups 5 v.toNat

/-- Groups of a signed number. The last one is the first whose bit 6 repeats as the sign. -/
def signedGroups : Nat → Int → Bytes
  | 0, _ => []
  | groups + 1, n =>
    let group := (n % 128).toNat
    let rest := n / 128
    if (rest = 0 ∧ group < 64) ∨ (rest = -1 ∧ 64 ≤ group) then [UInt8.ofNat group]
    else UInt8.ofNat (group + 128) :: signedGroups groups rest

def signedVarint (v : Int32) : Bytes :=
  signedGroups 5 v.toInt

def groupValue : Bytes → Nat
  | [] => 0
  | b :: rest => b.toNat % 128 + 128 * groupValue rest

def ofUInt16 (v : UInt16) : Bytes :=
  littleEndian 2 v.toNat

def ofUInt32 (v : UInt32) : Bytes :=
  littleEndian 4 v.toNat

def ofUInt64 (v : UInt64) : Bytes :=
  littleEndian 8 v.toNat

def ofInt24 (v : Int) : Bytes :=
  littleEndian 3 (v % 0x1000000).toNat

def ofInt32 (v : Int) : Bytes :=
  littleEndian 4 (v % UInt32.size).toNat

def patch (code : Array UInt8) (start : Nat) : Bytes → Array UInt8
  | [] => code
  | b :: rest => patch (code.setIfInBounds start b) (start + 1) rest

end Bytes

end ActionVm
