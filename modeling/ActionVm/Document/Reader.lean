import ActionVm.Document.Basic
import ActionVm.Document.Input

namespace ActionVm

namespace Namespace

def read (index : Nat) : Read Namespace := do
  let kind ← Read.u8
  unless knownKinds.contains kind do
    Read.note (.unknownNamespaceKind index kind)
  let name ← Read.u30
  return { kind, name }

def readSet (index : Nat) : Read (List UInt32) := do
  let count ← Read.u30
  if count = 0 then
    Read.note (.emptyNamespaceSet index)
  Read.times count.toNat Read.u30

end Namespace

namespace Multiname

def readKind (index : Nat) (kind : UInt8) : Read Multiname :=
  if kind = 0x07 ∨ kind = 0x0d then do
    let ns ← Read.u30
    let name ← Read.u30
    return qname ns name (kind = 0x0d)
  else if kind = 0x0f ∨ kind = 0x10 then do
    let name ← Read.u30
    return rtqname name (kind = 0x10)
  else if kind = 0x11 ∨ kind = 0x12 then
    return rtqnameL (kind = 0x12)
  else if kind = 0x09 ∨ kind = 0x0e then do
    let name ← Read.u30
    let nsSet ← Read.u30
    return multiname name nsSet (kind = 0x0e)
  else if kind = 0x1b ∨ kind = 0x1c then do
    let nsSet ← Read.u30
    return multinameL nsSet (kind = 0x1c)
  else
    throw (.unknownMultinameKind index kind)

def read (index : Nat) : Read Multiname := do
  let kind ← Read.u8
  readKind index kind

end Multiname

namespace Pool

def read : Read Pool := do
  let integers ← Read.table fun _ => Read.s32
  let uintegers ← Read.table fun _ => Read.u32
  let doubles ← Read.table fun _ => Read.d64
  let strings ← Read.table fun _ => Read.text
  let namespaces ← Read.table Namespace.read
  let nsSets ← Read.table Namespace.readSet
  let multinames ← Read.table Multiname.read
  return { integers, uintegers, doubles, strings, namespaces, nsSets, multinames }

end Pool

namespace OptionValue

def read : Read OptionValue := do
  let value ← Read.u30
  let kind ← Read.u8
  unless ConstantKind.isKnown kind do
    Read.note (.unknownConstantKind kind)
  return { value, kind }

end OptionValue

namespace Method

def read : Read Method := do
  let paramCount ← Read.u30
  let returnType ← Read.u30
  let paramTypes ← Read.times paramCount.toNat Read.u30
  let name ← Read.u30
  let flags ← Read.u8
  let options ← if flags &&& hasOptional ≠ 0 then Read.counted OptionValue.read else pure []
  let paramNames ←
    if flags &&& hasParamNames ≠ 0 then Read.times paramCount.toNat Read.u30 else pure []
  return { paramTypes, returnType, name, flags, options, paramNames }

end Method

namespace Metadata

def read : Read Metadata := do
  let name ← Read.u30
  let items ← Read.counted do
    let key ← Read.u30
    let value ← Read.u30
    return (key, value)
  return { name, items }

end Metadata

namespace SlotTrait

/-- The kind byte is there only if there is a value. -/
def read : Read SlotTrait := do
  let slotId ← Read.u30
  let typeName ← Read.u30
  let vindex ← Read.u30
  let vkind ← if vindex ≠ 0 then Read.u8 else pure 0
  return { slotId, typeName, vindex, vkind }

end SlotTrait

namespace MethodTrait

def read : Read MethodTrait := do
  let dispId ← Read.u30
  let method ← Read.u30
  return { dispId, method }

end MethodTrait

namespace TraitKind

def read (offset : Nat) (tag : UInt8) : Read TraitKind :=
  if tag = 0 then do
    return slot (← SlotTrait.read)
  else if tag = 1 then do
    return method (← MethodTrait.read)
  else if tag = 2 then do
    return getter (← MethodTrait.read)
  else if tag = 3 then do
    return setter (← MethodTrait.read)
  else if tag = 4 then do
    let slotId ← Read.u30
    let cls ← Read.u30
    return classDef slotId cls
  else if tag = 5 then do
    let slotId ← Read.u30
    let method ← Read.u30
    return function slotId method
  else if tag = 6 then do
    return constant (← SlotTrait.read)
  else
    throw (.unknownTraitKind offset tag)

end TraitKind

namespace Trait

def read : Read Trait := do
  let name ← Read.u30
  let offset ← Read.position
  let kindByte ← Read.u8
  let attributes := kindByte / 16
  let kind ← TraitKind.read offset (kindByte % 16)
  let metadata ← if attributes &&& hasMetadata ≠ 0 then Read.counted Read.u30 else pure []
  return { name, kind, attributes, metadata }

def readList : Read (List Trait) :=
  Read.counted read

end Trait

namespace Instance

def read : Read Instance := do
  let name ← Read.u30
  let superName ← Read.u30
  let flags ← Read.u8
  let protectedNs ← if flags &&& hasProtectedNs ≠ 0 then some <$> Read.u30 else pure none
  let interfaces ← Read.counted Read.u30
  let init ← Read.u30
  let traits ← Trait.readList
  return { name, superName, flags, protectedNs, interfaces, init, traits }

end Instance

namespace Definition

def read : Read Definition := do
  let init ← Read.u30
  let traits ← Trait.readList
  return { init, traits }

end Definition

namespace ExceptionRange

def read : Read ExceptionRange := do
  let start ← Read.u30
  let stop ← Read.u30
  let target ← Read.u30
  let excType ← Read.u30
  let varName ← Read.u30
  return { start, stop, target, excType, varName }

end ExceptionRange

namespace Body

def read : Read (UInt32 × Body) := do
  let method ← Read.u30
  let maxStack ← Read.u30
  let localCount ← Read.u30
  let initScopeDepth ← Read.u30
  let maxScopeDepth ← Read.u30
  let codeLength ← Read.u30
  let code ← Read.bytes codeLength.toNat
  let exceptions ← Read.counted ExceptionRange.read
  let traits ← Trait.readList
  return (method, { maxStack, localCount, initScopeDepth, maxScopeDepth, code, exceptions, traits })

/-- Gives the body to its method. The first body of a method stays. -/
def link (methods : List Method) (index : Nat) (method : UInt32) (body : Body) :
    Read (List Method) :=
  match methods[method.toNat]? with
  | none => do
    Read.note (.bodyMethodOutOfRange index method)
    return methods
  | some m =>
    if m.body.isSome then do
      Read.note (.duplicateBody method)
      return methods
    else
      return methods.set method.toNat { m with body := some body }

def readAll (methods : List Method) (index : Nat) : Nat → Read (List Method)
  | 0 => pure methods
  | count + 1 => do
    let (method, body) ← read
    let linked ← link methods index method body
    readAll linked (index + 1) count

end Body

namespace Document

/-- What stands before the bodies: a document whose methods are as they were declared. -/
def readHeader : Read Document := do
  let minorVersion ← Read.u16
  let majorVersion ← Read.u16
  let pool ← Pool.read
  let methods ← Read.counted Method.read
  let metadata ← Read.counted Metadata.read
  let classCount ← Read.u30
  let instances ← Read.times classCount.toNat Instance.read
  let classes ← Read.times classCount.toNat Definition.read
  let scripts ← Read.counted Definition.read
  return { minorVersion, majorVersion, pool, methods, metadata, instances, classes, scripts }

/-- Everything that a document holds but its anomalies. -/
def readContent : Read Document := do
  let header ← readHeader
  let bodyCount ← Read.u30
  let methods ← Body.readAll header.methods 0 bodyCount.toNat
  return { header with methods }

def read : Read Document := do
  let content ← readContent
  let anomalies ← Read.takeAnomalies
  return { content with anomalies }

/-- The document at the start of `bytes`; what follows it is not looked at. -/
def ofBytes (bytes : Bytes) : Except ReadError Document :=
  match read { rest := bytes } with
  | .ok document _ => .ok document
  | .error e _ => .error e

end Document

end ActionVm
