import ActionVm.Document.Basic
import ActionVm.Text.Utf8
import Mathlib

namespace ActionVm

def Each (P : α → Prop) (entries : List α) : Prop :=
  ∀ a ∈ entries, P a

instance [DecidablePred P] : DecidablePred (Each P) := fun entries =>
  inferInstanceAs (Decidable (∀ a ∈ entries, P a))

/-- A list of fewer than `limit` entries, each of which has the property. -/
def Bounded (limit : Nat) (P : α → Prop) (entries : List α) : Prop :=
  entries.length < limit ∧ Each P entries

instance [DecidablePred P] : DecidablePred (Bounded limit P) := fun entries =>
  inferInstanceAs (Decidable (entries.length < limit ∧ Each P entries))

def Small (v : UInt32) : Prop :=
  v.toNat < 2 ^ 30

instance : DecidablePred Small := fun v =>
  inferInstanceAs (Decidable (v.toNat < 2 ^ 30))

def Ascii (s : String) : Prop :=
  Each (·.toNat < 128) s.toList

instance : DecidablePred Ascii := fun s =>
  inferInstanceAs (Decidable (Each (·.toNat < 128) s.toList))

@[mk_iff]
structure Namespace.Plain (ns : Namespace) : Prop where
  kind : Namespace.knownKinds.contains ns.kind
  name : Small ns.name

instance : DecidablePred Namespace.Plain := fun ns =>
  decidable_of_iff _ (Namespace.plain_iff ns).symm

def Multiname.Plain : Multiname → Prop
  | any | rtqnameL _ => True
  | qname ns name _ => Small ns ∧ Small name
  | rtqname name _ => Small name
  | multiname name nsSet _ => Small name ∧ Small nsSet
  | multinameL nsSet _ => Small nsSet

instance : DecidablePred Multiname.Plain
  | .any | .rtqnameL _ => inferInstanceAs (Decidable True)
  | .qname .. | .multiname .. => inferInstanceAs (Decidable (_ ∧ _))
  | .rtqname name _ | .multinameL name _ => inferInstanceAs (Decidable (Small name))

namespace Pool

/-- The count of a table includes index 0. -/
@[mk_iff]
structure WellFormed (p : Pool) : Prop where
  integers : p.integers.length < 2 ^ 32 - 1
  uintegers : p.uintegers.length < 2 ^ 32 - 1
  doubles : p.doubles.length < 2 ^ 32 - 1
  strings : Bounded (2 ^ 32 - 1) (fun s => (Utf8.encode s).length < 2 ^ 32) p.strings
  namespaces : p.namespaces.length < 2 ^ 32 - 1
  nsSets : Bounded (2 ^ 32 - 1) (·.length < 2 ^ 32) p.nsSets
  multinames : Bounded (2 ^ 32 - 1) (· ≠ .any) p.multinames

instance : DecidablePred WellFormed := fun p =>
  decidable_of_iff _ (wellFormed_iff p).symm

@[mk_iff]
structure Plain (p : Pool) : Prop where
  integers : p.integers.length < 2 ^ 30 - 1
  uintegers : p.uintegers.length < 2 ^ 30 - 1
  doubles : p.doubles.length < 2 ^ 30 - 1
  strings : Bounded (2 ^ 30 - 1) (fun s => (Utf8.encode s).length < 2 ^ 30 ∧ Ascii s) p.strings
  namespaces : Bounded (2 ^ 30 - 1) Namespace.Plain p.namespaces
  nsSets : Bounded (2 ^ 30 - 1) (fun set => set ≠ [] ∧ Bounded (2 ^ 30) Small set) p.nsSets
  multinames : Bounded (2 ^ 30 - 1) Multiname.Plain p.multinames

instance : DecidablePred Plain := fun p =>
  decidable_of_iff _ (plain_iff p).symm

end Pool

@[mk_iff]
structure OptionValue.Plain (o : OptionValue) : Prop where
  value : Small o.value
  kind : ConstantKind.isKnown o.kind

instance : DecidablePred OptionValue.Plain := fun o =>
  decidable_of_iff _ (OptionValue.plain_iff o).symm

namespace Metadata

def WellFormed (m : Metadata) : Prop :=
  m.items.length < 2 ^ 32

instance : DecidablePred WellFormed := fun m =>
  inferInstanceAs (Decidable (m.items.length < 2 ^ 32))

@[mk_iff]
structure Plain (m : Metadata) : Prop where
  name : Small m.name
  items : Bounded (2 ^ 30) (fun item => Small item.1 ∧ Small item.2) m.items

instance : DecidablePred Plain := fun m =>
  decidable_of_iff _ (plain_iff m).symm

end Metadata

namespace SlotTrait

def WellFormed (s : SlotTrait) : Prop :=
  s.vindex = 0 → s.vkind = 0

instance : DecidablePred WellFormed := fun s =>
  inferInstanceAs (Decidable (s.vindex = 0 → s.vkind = 0))

@[mk_iff]
structure Plain (s : SlotTrait) : Prop where
  slotId : Small s.slotId
  typeName : Small s.typeName
  vindex : Small s.vindex

instance : DecidablePred Plain := fun s =>
  decidable_of_iff _ (plain_iff s).symm

end SlotTrait

@[mk_iff]
structure MethodTrait.Plain (m : MethodTrait) : Prop where
  dispId : Small m.dispId
  method : Small m.method

instance : DecidablePred MethodTrait.Plain := fun m =>
  decidable_of_iff _ (MethodTrait.plain_iff m).symm

namespace TraitKind

def WellFormed : TraitKind → Prop
  | slot s | constant s => s.WellFormed
  | _ => True

instance : DecidablePred WellFormed
  | slot s | constant s => inferInstanceAs (Decidable s.WellFormed)
  | method _ | getter _ | setter _ | classDef .. | function .. => inferInstanceAs (Decidable True)

def Plain : TraitKind → Prop
  | slot s | constant s => s.Plain
  | method m | getter m | setter m => m.Plain
  | classDef slotId cls => Small slotId ∧ Small cls
  | function slotId m => Small slotId ∧ Small m

instance : DecidablePred Plain
  | slot s | constant s => inferInstanceAs (Decidable s.Plain)
  | method m | getter m | setter m => inferInstanceAs (Decidable m.Plain)
  | classDef .. | function .. => inferInstanceAs (Decidable (_ ∧ _))

end TraitKind

namespace Trait

@[mk_iff]
structure WellFormed (t : Trait) : Prop where
  kind : t.kind.WellFormed
  attributes : t.attributes < 16
  count : t.metadata.length < 2 ^ 32
  flagged : t.metadata ≠ [] → t.attributes &&& hasMetadata ≠ 0

instance : DecidablePred WellFormed := fun t =>
  decidable_of_iff _ (wellFormed_iff t).symm

@[mk_iff]
structure Plain (t : Trait) : Prop where
  name : Small t.name
  kind : t.kind.Plain
  metadata : Bounded (2 ^ 30) Small t.metadata

instance : DecidablePred Plain := fun t =>
  decidable_of_iff _ (plain_iff t).symm

end Trait

@[mk_iff]
structure ExceptionRange.Plain (e : ExceptionRange) : Prop where
  start : Small e.start
  stop : Small e.stop
  target : Small e.target
  excType : Small e.excType
  varName : Small e.varName

instance : DecidablePred ExceptionRange.Plain := fun e =>
  decidable_of_iff _ (ExceptionRange.plain_iff e).symm

namespace Body

@[mk_iff]
structure WellFormed (b : Body) : Prop where
  code : b.code.length < 2 ^ 32
  exceptions : b.exceptions.length < 2 ^ 32
  traits : Bounded (2 ^ 32) Trait.WellFormed b.traits

instance : DecidablePred WellFormed := fun b =>
  decidable_of_iff _ (wellFormed_iff b).symm

@[mk_iff]
structure Plain (b : Body) : Prop where
  maxStack : Small b.maxStack
  localCount : Small b.localCount
  initScopeDepth : Small b.initScopeDepth
  maxScopeDepth : Small b.maxScopeDepth
  code : b.code.length < 2 ^ 30
  exceptions : Bounded (2 ^ 30) ExceptionRange.Plain b.exceptions
  traits : Bounded (2 ^ 30) Trait.Plain b.traits

instance : DecidablePred Plain := fun b =>
  decidable_of_iff _ (plain_iff b).symm

end Body

namespace Method

/-- Names are given for all parameters or for none. -/
@[mk_iff]
structure WellFormed (m : Method) : Prop where
  paramTypes : m.paramTypes.length < 2 ^ 32
  options : m.options.length < 2 ^ 32
  optional : m.options ≠ [] → m.flags &&& hasOptional ≠ 0
  named : m.paramNames ≠ [] → m.flags &&& hasParamNames ≠ 0
  paramNames : m.flags &&& hasParamNames ≠ 0 → m.paramNames.length = m.paramTypes.length
  body : ∀ b ∈ m.body, b.WellFormed

instance : DecidablePred WellFormed := fun m =>
  decidable_of_iff _ (wellFormed_iff m).symm

@[mk_iff]
structure Plain (m : Method) : Prop where
  paramTypes : Bounded (2 ^ 30) Small m.paramTypes
  returnType : Small m.returnType
  name : Small m.name
  options : Bounded (2 ^ 30) OptionValue.Plain m.options
  paramNames : Each Small m.paramNames
  body : ∀ b ∈ m.body, b.Plain

instance : DecidablePred Plain := fun m =>
  decidable_of_iff _ (plain_iff m).symm

end Method

namespace Instance

@[mk_iff]
structure WellFormed (i : Instance) : Prop where
  protectedNs : i.protectedNs.isSome ↔ i.flags &&& hasProtectedNs ≠ 0
  interfaces : i.interfaces.length < 2 ^ 32
  traits : Bounded (2 ^ 32) Trait.WellFormed i.traits

instance : DecidablePred WellFormed := fun i =>
  decidable_of_iff _ (wellFormed_iff i).symm

@[mk_iff]
structure Plain (i : Instance) : Prop where
  name : Small i.name
  superName : Small i.superName
  protectedNs : Each Small i.protectedNs.toList
  interfaces : Bounded (2 ^ 30) Small i.interfaces
  init : Small i.init
  traits : Bounded (2 ^ 30) Trait.Plain i.traits

instance : DecidablePred Plain := fun i =>
  decidable_of_iff _ (plain_iff i).symm

end Instance

namespace Definition

def WellFormed (c : Definition) : Prop :=
  Bounded (2 ^ 32) Trait.WellFormed c.traits

instance : DecidablePred WellFormed := fun c =>
  inferInstanceAs (Decidable (Bounded (2 ^ 32) Trait.WellFormed c.traits))

@[mk_iff]
structure Plain (c : Definition) : Prop where
  init : Small c.init
  traits : Bounded (2 ^ 30) Trait.Plain c.traits

instance : DecidablePred Plain := fun c =>
  decidable_of_iff _ (plain_iff c).symm

end Definition

namespace Document

/-- A document that writing keeps whole. Its records have the flags that their lists imply and counts that fit
a word, and every class has an instance side. -/
@[mk_iff]
structure WellFormed (d : Document) : Prop where
  pool : d.pool.WellFormed
  methods : Bounded (2 ^ 32) Method.WellFormed d.methods
  metadata : Bounded (2 ^ 32) Metadata.WellFormed d.metadata
  instances : Bounded (2 ^ 32) Instance.WellFormed d.instances
  classes : Each Definition.WellFormed d.classes
  paired : d.classes.length = d.instances.length
  scripts : Bounded (2 ^ 32) Definition.WellFormed d.scripts

instance : DecidablePred WellFormed := fun d =>
  decidable_of_iff _ (wellFormed_iff d).symm

/-- A document whose bytes show no oddity: every number that should have 30 bits does, texts are ASCII and kinds
are known. -/
@[mk_iff]
structure Plain (d : Document) : Prop where
  pool : d.pool.Plain
  methods : Bounded (2 ^ 30) Method.Plain d.methods
  metadata : Bounded (2 ^ 30) Metadata.Plain d.metadata
  instances : Bounded (2 ^ 30) Instance.Plain d.instances
  classes : Each Definition.Plain d.classes
  scripts : Bounded (2 ^ 30) Definition.Plain d.scripts

instance : DecidablePred Plain := fun d =>
  decidable_of_iff _ (plain_iff d).symm

end Document

end ActionVm
