import ActionVm.Document.Basic
import ActionVm.Text.Utf8

namespace ActionVm

namespace Write

def u30 (v : UInt32) : Bytes :=
  Bytes.varint v

def text (s : String) : Bytes :=
  let bytes := Utf8.encode s
  u30 (UInt32.ofNat bytes.length) ++ bytes

def counted (entry : α → Bytes) (entries : List α) : Bytes :=
  u30 (UInt32.ofNat entries.length) ++ entries.flatMap entry

/-- A table from index 1 on. Its count includes index 0 unless the table is empty. -/
def table (entry : α → Bytes) (entries : List α) : Bytes :=
  u30 (if entries.isEmpty then 0 else UInt32.ofNat (entries.length + 1)) ++ entries.flatMap entry

end Write

open Write

namespace Namespace

def write (ns : Namespace) : Bytes :=
  ns.kind :: u30 ns.name

end Namespace

namespace Multiname

def write (mn : Multiname) : Bytes :=
  mn.kindByte :: match mn with
    | any | rtqnameL _ => []
    | qname ns name _ => u30 ns ++ u30 name
    | rtqname name _ => u30 name
    | multiname name nsSet _ => u30 name ++ u30 nsSet
    | multinameL nsSet _ => u30 nsSet

end Multiname

namespace Pool

def write (p : Pool) : Bytes :=
  table Bytes.signedVarint p.integers
    ++ table Bytes.varint p.uintegers
    ++ table (fun d => Bytes.ofUInt64 d.bits) p.doubles
    ++ table text p.strings
    ++ table Namespace.write p.namespaces
    ++ table (counted u30) p.nsSets
    ++ table Multiname.write p.multinames

end Pool

namespace OptionValue

def write (o : OptionValue) : Bytes :=
  u30 o.value ++ [o.kind]

end OptionValue

namespace Method

def writtenFlags (m : Method) : UInt8 :=
  m.flags ||| (if m.options.isEmpty then 0 else hasOptional)
    ||| (if m.paramNames.isEmpty then 0 else hasParamNames)

def writtenNames (m : Method) : List UInt32 :=
  (List.range m.paramTypes.length).map fun i => m.paramNames.getD i 0

def write (m : Method) : Bytes :=
  u30 (UInt32.ofNat m.paramTypes.length)
    ++ u30 m.returnType
    ++ m.paramTypes.flatMap u30
    ++ u30 m.name
    ++ [m.writtenFlags]
    ++ (if m.writtenFlags &&& hasOptional ≠ 0 then counted OptionValue.write m.options else [])
    ++ (if m.writtenFlags &&& hasParamNames ≠ 0 then m.writtenNames.flatMap u30 else [])

end Method

namespace Metadata

def write (m : Metadata) : Bytes :=
  u30 m.name ++ counted (fun (key, value) => u30 key ++ u30 value) m.items

end Metadata

namespace SlotTrait

def write (s : SlotTrait) : Bytes :=
  u30 s.slotId ++ u30 s.typeName ++ u30 s.vindex ++ (if s.vindex ≠ 0 then [s.vkind] else [])

end SlotTrait

namespace MethodTrait

def write (m : MethodTrait) : Bytes :=
  u30 m.dispId ++ u30 m.method

end MethodTrait

namespace TraitKind

def write : TraitKind → Bytes
  | slot s | constant s => s.write
  | method m | getter m | setter m => m.write
  | classDef slotId cls => u30 slotId ++ u30 cls
  | function slotId m => u30 slotId ++ u30 m

end TraitKind

namespace Trait

/-- The attributes with the one that metadata implies. -/
def writtenAttributes (t : Trait) : UInt8 :=
  t.attributes ||| (if t.metadata.isEmpty then 0 else hasMetadata)

def write (t : Trait) : Bytes :=
  u30 t.name
    ++ [t.kind.tag ||| (t.writtenAttributes <<< 4)]
    ++ t.kind.write
    ++ (if t.writtenAttributes &&& hasMetadata ≠ 0 then counted u30 t.metadata else [])

def writeList (traits : List Trait) : Bytes :=
  counted write traits

end Trait

namespace Instance

def write (i : Instance) : Bytes :=
  u30 i.name
    ++ u30 i.superName
    ++ [i.flags]
    ++ i.protectedNs.elim [] u30
    ++ counted u30 i.interfaces
    ++ u30 i.init
    ++ Trait.writeList i.traits

end Instance

namespace Definition

def write (c : Definition) : Bytes :=
  u30 c.init ++ Trait.writeList c.traits

end Definition

namespace ExceptionRange

def write (e : ExceptionRange) : Bytes :=
  u30 e.start ++ u30 e.stop ++ u30 e.target ++ u30 e.excType ++ u30 e.varName

end ExceptionRange

namespace Body

def write (method : UInt32) (b : Body) : Bytes :=
  u30 method
    ++ u30 b.maxStack
    ++ u30 b.localCount
    ++ u30 b.initScopeDepth
    ++ u30 b.maxScopeDepth
    ++ u30 (UInt32.ofNat b.code.length)
    ++ b.code
    ++ counted ExceptionRange.write b.exceptions
    ++ Trait.writeList b.traits

end Body

namespace Document

def bodies (d : Document) : List (UInt32 × Body) :=
  d.methods.zipIdx.filterMap fun (m, i) => m.body.map (UInt32.ofNat i, ·)

/-- Flags that the data implies are set on the way out, and bodies follow the method table in method order.
-/
def toBytes (d : Document) : Bytes :=
  Bytes.ofUInt16 d.minorVersion
    ++ Bytes.ofUInt16 d.majorVersion
    ++ d.pool.write
    ++ counted Method.write d.methods
    ++ counted Metadata.write d.metadata
    ++ counted Instance.write d.instances
    ++ d.classes.flatMap Definition.write
    ++ counted Definition.write d.scripts
    ++ counted (fun (method, body) => body.write method) d.bodies

end Document

end ActionVm
