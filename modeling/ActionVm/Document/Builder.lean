import ActionVm.Document.Basic
import ActionVm.Number.Bounds
import Std.Data.TreeMap

namespace ActionVm

/-- A document under construction, beside a map from the strings that it has to their indices. -/
structure Builder where
  document : Document := {}
  strings : Std.TreeMap String UInt32 := {}

namespace Builder

def lastIndex (entries : List α) : UInt32 :=
  UInt32.ofNat entries.length

def modifyPool (b : Builder) (f : Pool → Pool) : Builder :=
  { b with document := { b.document with pool := f b.document.pool } }

/-- The index of a string. Only the map tells whether there is one. -/
def addString (b : Builder) (s : String) : Builder × UInt32 :=
  if s = "" then (b, 0)
  else match b.strings[s]? with
    | some index => (b, index)
    | none =>
      let strings := b.document.pool.strings ++ [s]
      let b := b.modifyPool ({ · with strings })
      ({ b with strings := b.strings.insert s (lastIndex strings) }, lastIndex strings)

def addInt (b : Builder) (v : Int32) : Builder × UInt32 :=
  let integers := b.document.pool.integers ++ [v]
  (b.modifyPool ({ · with integers }), lastIndex integers)

def addUint (b : Builder) (v : UInt32) : Builder × UInt32 :=
  let uintegers := b.document.pool.uintegers ++ [v]
  (b.modifyPool ({ · with uintegers }), lastIndex uintegers)

def addDouble (b : Builder) (v : Double) : Builder × UInt32 :=
  let doubles := b.document.pool.doubles ++ [v]
  (b.modifyPool ({ · with doubles }), lastIndex doubles)

def addNamespace (b : Builder) (kind : UInt8) (name : String) : Builder × UInt32 :=
  let (b, name) := b.addString name
  let namespaces := b.document.pool.namespaces ++ [{ kind, name }]
  (b.modifyPool ({ · with namespaces }), lastIndex namespaces)

def addNsSet (b : Builder) (members : List UInt32) : Builder × UInt32 :=
  let nsSets := b.document.pool.nsSets ++ [members]
  (b.modifyPool ({ · with nsSets }), lastIndex nsSets)

def addMultiname (b : Builder) (mn : Multiname) : Builder × UInt32 :=
  let multinames := b.document.pool.multinames ++ [mn]
  (b.modifyPool ({ · with multinames }), lastIndex multinames)

def addQName (b : Builder) (package name : String) : Builder × UInt32 :=
  let (b, ns) := b.addNamespace Namespace.package package
  let (b, name) := b.addString name
  b.addMultiname (.qname ns name false)

/-- A method with a body whose locals hold the receiver and the parameters at least. -/
def addMethod (b : Builder) (paramCount : Nat) (maxStack localCount : UInt32) (code : Bytes)
    (traits : List Trait := []) : Except BoundsError (Builder × UInt32) := do
  let paramCount ← Bounds.capacity 4 paramCount
  let fewest ← Bounds.add UInt32.size (paramCount % UInt32.size) 1
  let body : Body :=
    { maxStack
      localCount := max localCount (UInt32.ofNat fewest)
      initScopeDepth := 0
      maxScopeDepth := 4
      code
      traits }
  let method : Method := { paramTypes := List.replicate paramCount 0, body := some body }
  return ({ b with document := { b.document with methods := b.document.methods ++ [method] } },
    UInt32.ofNat b.document.methods.length)

def addClass (b : Builder) (name superName instanceInit : UInt32) (instanceTraits : List Trait)
    (classInit : UInt32) (classTraits : List Trait) : Builder × UInt32 :=
  ({ b with
     document := { b.document with
       instances := b.document.instances ++ [{ name, superName, init := instanceInit, traits := instanceTraits }]
       classes := b.document.classes ++ [{ init := classInit, traits := classTraits }] } },
   UInt32.ofNat b.document.classes.length)

def addScript (b : Builder) (init : UInt32) (traits : List Trait) : Builder × UInt32 :=
  ({ b with document := { b.document with scripts := b.document.scripts ++ [{ init, traits }] } },
    UInt32.ofNat b.document.scripts.length)

def finish (b : Builder) : Document :=
  b.document

end Builder

namespace Document

def modifyMethod (d : Document) (index : UInt32) (f : Method → Method) :
    Except BoundsError Document := do
  let i ← Bounds.place d.methods.length index.toNat
  return { d with methods := d.methods.modify i f }

def modifyInstance (d : Document) (index : UInt32) (f : Instance → Instance) :
    Except BoundsError Document := do
  let i ← Bounds.place d.instances.length index.toNat
  return { d with instances := d.instances.modify i f }

end Document

end ActionVm
