import ActionVm.Document.Names
import ActionVm.Text.Json

namespace ActionVm

structure JsonLeaves where
  double : Double → Json
  code : Bytes → Json

namespace JsonLeaves

/-- Doubles as numbers, what is not finite as null, and code as a list of bytes. -/
def plain : JsonLeaves where
  double d := if d.isFinite then .number d else .null
  code bytes := .array (bytes.map fun b => .int b.toNat)

end JsonLeaves

namespace Json

def nat (n : Nat) : Json :=
  .int n

def u32 (v : UInt32) : Json :=
  .int v.toNat

def list (item : α → Json) (items : List α) : Json :=
  .array (items.map item)

end Json

open Json

namespace Anomaly

def toJson : Anomaly → Json
  | u30Overflow offset value =>
    .object [("U30Overflow", .object [("offset", nat offset), ("value", u32 value)])]
  | u32HighBits offset => .object [("U32HighBits", .object [("offset", nat offset)])]
  | multibyteString offset => .object [("MultibyteString", .object [("offset", nat offset)])]
  | unknownNamespaceKind index kind =>
    .object [("UnknownNamespaceKind", .object [("index", nat index), ("kind", nat kind.toNat)])]
  | emptyNamespaceSet index => .object [("EmptyNamespaceSet", .object [("index", nat index)])]
  | unknownConstantKind kind =>
    .object [("UnknownConstantKind", .object [("kind", nat kind.toNat)])]
  | bodyMethodOutOfRange body method =>
    .object [("BodyMethodOutOfRange", .object [("body", nat body), ("method", u32 method)])]
  | duplicateBody method => .object [("DuplicateBody", .object [("method", u32 method)])]

end Anomaly

namespace Namespace

def toJson (ns : Namespace) : Json :=
  .object [("kind", nat ns.kind.toNat), ("name", u32 ns.name)]

end Namespace

namespace Multiname

def toJson : Multiname → Json
  | any => .string "Any"
  | qname ns name isAttribute =>
    .object [("QName",
      .object [("ns", u32 ns), ("name", u32 name), ("attribute", .bool isAttribute)])]
  | rtqname name isAttribute =>
    .object [("RtqName", .object [("name", u32 name), ("attribute", .bool isAttribute)])]
  | rtqnameL isAttribute => .object [("RtqNameL", .object [("attribute", .bool isAttribute)])]
  | multiname name nsSet isAttribute =>
    .object [("Multiname",
      .object [("name", u32 name), ("ns_set", u32 nsSet), ("attribute", .bool isAttribute)])]
  | multinameL nsSet isAttribute =>
    .object [("MultinameL", .object [("ns_set", u32 nsSet), ("attribute", .bool isAttribute)])]

end Multiname

namespace Pool

def toJson (leaves : JsonLeaves) (p : Pool) : Json :=
  .object [
    ("integers", list (fun v => .int v.toInt) (0 :: p.integers)),
    ("uintegers", list u32 (0 :: p.uintegers)),
    ("doubles", list leaves.double (Double.nan :: p.doubles)),
    ("strings", list .string ("" :: p.strings)),
    ("namespaces", list Namespace.toJson (⟨0, 0⟩ :: p.namespaces)),
    ("ns_sets", list (fun set => .object [("namespaces", list u32 set)]) ([] :: p.nsSets)),
    ("multinames", list Multiname.toJson (.any :: p.multinames))]

end Pool

namespace SlotTrait

def toJson (s : SlotTrait) : Json :=
  .object [("slot_id", u32 s.slotId), ("type_name", u32 s.typeName), ("vindex", u32 s.vindex),
    ("vkind", nat s.vkind.toNat)]

end SlotTrait

namespace MethodTrait

def toJson (m : MethodTrait) : Json :=
  .object [("disp_id", u32 m.dispId), ("method", u32 m.method)]

end MethodTrait

namespace TraitKind

def toJson : TraitKind → Json
  | slot s => .object [("Slot", s.toJson)]
  | method m => .object [("Method", m.toJson)]
  | getter m => .object [("Getter", m.toJson)]
  | setter m => .object [("Setter", m.toJson)]
  | classDef slotId cls =>
    .object [("Class", .object [("slot_id", u32 slotId), ("class", u32 cls)])]
  | function slotId m =>
    .object [("Function", .object [("slot_id", u32 slotId), ("function", u32 m)])]
  | constant s => .object [("Const", s.toJson)]

end TraitKind

namespace Trait

def toJson (t : Trait) : Json :=
  .object [("name", u32 t.name), ("kind", t.kind.toJson), ("attributes", nat t.attributes.toNat),
    ("metadata", list u32 t.metadata)]

end Trait

namespace ExceptionRange

def toJson (e : ExceptionRange) : Json :=
  .object [("from", u32 e.start), ("to", u32 e.stop), ("target", u32 e.target),
    ("exc_type", u32 e.excType), ("var_name", u32 e.varName)]

end ExceptionRange

namespace Body

def toJson (leaves : JsonLeaves) (b : Body) : Json :=
  .object [
    ("max_stack", u32 b.maxStack),
    ("local_count", u32 b.localCount),
    ("init_scope_depth", u32 b.initScopeDepth),
    ("max_scope_depth", u32 b.maxScopeDepth),
    ("code", leaves.code b.code),
    ("exceptions", list ExceptionRange.toJson b.exceptions),
    ("traits", list Trait.toJson b.traits)]

end Body

namespace Method

def toJson (leaves : JsonLeaves) (m : Method) : Json :=
  .object [
    ("param_types", list u32 m.paramTypes),
    ("return_type", u32 m.returnType),
    ("name", u32 m.name),
    ("flags", nat m.flags.toNat),
    ("options", list (fun o => .object [("value", u32 o.value), ("kind", nat o.kind.toNat)]) m.options),
    ("param_names", list u32 m.paramNames),
    ("body", m.body.elim .null (Body.toJson leaves))]

end Method

namespace Metadata

def toJson (m : Metadata) : Json :=
  .object [("name", u32 m.name),
    ("items", list (fun (key, value) => .array [u32 key, u32 value]) m.items)]

end Metadata

namespace Instance

def toJson (i : Instance) : Json :=
  .object [
    ("name", u32 i.name),
    ("super_name", u32 i.superName),
    ("flags", nat i.flags.toNat),
    ("protected_ns", i.protectedNs.elim .null u32),
    ("interfaces", list u32 i.interfaces),
    ("init", u32 i.init),
    ("traits", list Trait.toJson i.traits)]

end Instance

namespace Definition

def toJson (c : Definition) : Json :=
  .object [("init", u32 c.init), ("traits", list Trait.toJson c.traits)]

end Definition

namespace Document

def toJson (leaves : JsonLeaves) (d : Document) : Json :=
  .object [
    ("minor_version", nat d.minorVersion.toNat),
    ("major_version", nat d.majorVersion.toNat),
    ("constant_pool", d.pool.toJson leaves),
    ("methods", list (Method.toJson leaves) d.methods),
    ("metadata", list Metadata.toJson d.metadata),
    ("instances", list Instance.toJson d.instances),
    ("classes", list Definition.toJson d.classes),
    ("scripts", list Definition.toJson d.scripts),
    ("class_index", .object (d.classIndex.toList.map fun (name, index) => (name, nat index))),
    ("anomalies", list Anomaly.toJson d.anomalies)]

end Document

end ActionVm
