import ActionVm.Text.Hex

namespace ActionVm

/-- What ends the reading of a document. -/
inductive ReadError where
  | endOfInput (offset wanted : Nat)
  | unknownMultinameKind (index : Nat) (kind : UInt8)
  | unknownTraitKind (offset : Nat) (kind : UInt8)
  deriving DecidableEq, Repr

namespace ReadError

def message : ReadError → String
  | endOfInput offset wanted =>
    s!"unexpected end of input at offset {offset} (wanted {wanted} bytes)"
  | unknownMultinameKind index kind =>
    s!"unknown multiname kind 0x{Hex.ofByte kind} at pool index {index}"
  | unknownTraitKind offset kind =>
    s!"unknown trait kind {kind.toNat} at offset {offset}"

end ReadError

/-- An oddity that reading absorbs and reports. -/
inductive Anomaly where
  | u30Overflow (offset : Nat) (value : UInt32)
  | u32HighBits (offset : Nat)
  | multibyteString (offset : Nat)
  | unknownNamespaceKind (index : Nat) (kind : UInt8)
  | emptyNamespaceSet (index : Nat)
  | unknownConstantKind (kind : UInt8)
  | bodyMethodOutOfRange (body : Nat) (method : UInt32)
  | duplicateBody (method : UInt32)
  deriving DecidableEq, Repr

namespace Anomaly

def message : Anomaly → String
  | u30Overflow offset value =>
    s!"u30 at offset {offset} exceeds 30 bits (0x{Hex.padded 8 value.toNat})"
  | u32HighBits offset => s!"u32 at offset {offset} has bits set above bit 31"
  | multibyteString offset => s!"multibyte string at offset {offset} not handled"
  | unknownNamespaceKind index kind =>
    s!"unexpected namespace kind 0x{Hex.ofByte kind} at pool index {index}"
  | emptyNamespaceSet index => s!"namespace set {index} is empty"
  | unknownConstantKind kind => s!"unexpected constant kind 0x{Hex.ofByte kind}"
  | bodyMethodOutOfRange body method =>
    s!"method body {body} refers to missing method {method.toNat}"
  | duplicateBody method => s!"duplicate body assignment for method {method.toNat}"

end Anomaly

end ActionVm
