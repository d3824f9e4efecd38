import ActionVm.Bytes.Basic
import ActionVm.Document.Anomaly
import ActionVm.Number.Double

namespace ActionVm

structure Namespace where
  kind : UInt8
  name : UInt32
  deriving DecidableEq, Repr

namespace Namespace

def package : UInt8 := 0x16

/-- Private, plain, package, internal, protected, explicit and static protected. -/
def knownKinds : List UInt8 :=
  [0x05, 0x08, 0x16, 0x17, 0x18, 0x19, 0x1a]

end Namespace

/-- A name, possibly qualified. The `isAttribute` flag resolves the same way. -/
inductive Multiname where
  | any
  | qname (ns name : UInt32) (isAttribute : Bool)
  | rtqname (name : UInt32) (isAttribute : Bool)
  | rtqnameL (isAttribute : Bool)
  | multiname (name nsSet : UInt32) (isAttribute : Bool)
  | multinameL (nsSet : UInt32) (isAttribute : Bool)
  deriving DecidableEq, Repr

namespace Multiname

def kindByte : Multiname → UInt8
  | any => 0
  | qname _ _ isAttribute => if isAttribute then 0x0d else 0x07
  | rtqname _ isAttribute => if isAttribute then 0x10 else 0x0f
  | rtqnameL isAttribute => if isAttribute then 0x12 else 0x11
  | multiname _ _ isAttribute => if isAttribute then 0x0e else 0x09
  | multinameL _ isAttribute => if isAttribute then 0x1c else 0x1b

end Multiname

inductive ConstantKind where
  | undefined
  | utf8
  | int
  | uint
  | double
  | falseValue
  | trueValue
  | null
  deriving DecidableEq, Repr

namespace ConstantKind

def byte : ConstantKind → UInt8
  | undefined => 0x00
  | utf8 => 0x01
  | int => 0x03
  | uint => 0x04
  | double => 0x06
  | falseValue => 0x0a
  | trueValue => 0x0b
  | null => 0x0c

def all : List ConstantKind :=
  [undefined, utf8, int, uint, double, falseValue, trueValue, null]

def ofByte? (b : UInt8) : Option ConstantKind :=
  all.find? (·.byte = b)

def isKnown (b : UInt8) : Bool :=
  (ofByte? b).isSome || Namespace.knownKinds.contains b

end ConstantKind

/-- The pool tables from index 1 on. -/
structure Pool where
  integers : List Int32 := []
  uintegers : List UInt32 := []
  doubles : List Double := []
  strings : List String := []
  namespaces : List Namespace := []
  nsSets : List (List UInt32) := []
  multinames : List Multiname := []
  deriving DecidableEq, Repr

structure OptionValue where
  value : UInt32
  kind : UInt8
  deriving DecidableEq, Repr

structure ExceptionRange where
  start : UInt32
  stop : UInt32
  target : UInt32
  excType : UInt32
  varName : UInt32
  deriving DecidableEq, Repr

/-- A slot or constant. The kind means nothing when `vindex` is 0. -/
structure SlotTrait where
  slotId : UInt32
  typeName : UInt32 := 0
  vindex : UInt32 := 0
  vkind : UInt8 := 0
  deriving DecidableEq, Repr

structure MethodTrait where
  dispId : UInt32 := 0
  method : UInt32
  deriving DecidableEq, Repr

inductive TraitKind where
  | slot (s : SlotTrait)
  | method (m : MethodTrait)
  | getter (m : MethodTrait)
  | setter (m : MethodTrait)
  | classDef (slotId cls : UInt32)
  | function (slotId method : UInt32)
  | constant (s : SlotTrait)
  deriving DecidableEq, Repr

namespace TraitKind

def tag : TraitKind → UInt8
  | slot _ => 0
  | method _ => 1
  | getter _ => 2
  | setter _ => 3
  | classDef _ _ => 4
  | function _ _ => 5
  | constant _ => 6

end TraitKind

structure Trait where
  name : UInt32
  kind : TraitKind
  attributes : UInt8 := 0
  metadata : List UInt32 := []
  deriving DecidableEq, Repr

namespace Trait

def hasMetadata : UInt8 := 0x4

end Trait

structure Body where
  maxStack : UInt32
  localCount : UInt32
  initScopeDepth : UInt32
  maxScopeDepth : UInt32
  code : Bytes
  exceptions : List ExceptionRange := []
  traits : List Trait := []
  deriving DecidableEq, Repr

structure Method where
  paramTypes : List UInt32 := []
  returnType : UInt32 := 0
  name : UInt32 := 0
  flags : UInt8 := 0
  options : List OptionValue := []
  paramNames : List UInt32 := []
  body : Option Body := none
  deriving DecidableEq, Repr

namespace Method

def hasOptional : UInt8 := 0x08

def hasParamNames : UInt8 := 0x80

end Method

structure Metadata where
  name : UInt32
  items : List (UInt32 × UInt32)
  deriving DecidableEq, Repr

structure Instance where
  name : UInt32
  superName : UInt32
  flags : UInt8 := 0
  protectedNs : Option UInt32 := none
  interfaces : List UInt32 := []
  init : UInt32
  traits : List Trait := []
  deriving DecidableEq, Repr

namespace Instance

def hasProtectedNs : UInt8 := 0x08

end Instance

/-- The static side of a class, or a script: an initializer and what it declares. -/
structure Definition where
  init : UInt32
  traits : List Trait := []
  deriving DecidableEq, Repr

structure Document where
  minorVersion : UInt16 := 16
  majorVersion : UInt16 := 46
  pool : Pool := {}
  methods : List Method := []
  metadata : List Metadata := []
  instances : List Instance := []
  classes : List Definition := []
  scripts : List Definition := []
  anomalies : List Anomaly := []
  deriving DecidableEq, Repr

namespace Document

def method? (d : Document) (index : UInt32) : Option Method :=
  d.methods[index.toNat]?

def body? (d : Document) (index : UInt32) : Option Body :=
  (d.method? index).bind Method.body

end Document

end ActionVm
