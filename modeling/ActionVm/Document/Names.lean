import ActionVm.Document.Basic
import Std.Data.TreeMap

namespace ActionVm

/-- An entry of a table that counts from 1, with `first` at index 0. -/
def item? (first : α) (entries : List α) (index : UInt32) : Option α :=
  (first :: entries)[index.toNat]?

namespace Pool

def integer? (p : Pool) (index : UInt32) : Option Int32 :=
  item? 0 p.integers index

def uinteger? (p : Pool) (index : UInt32) : Option UInt32 :=
  item? 0 p.uintegers index

def double? (p : Pool) (index : UInt32) : Option Double :=
  item? Double.nan p.doubles index

/-- Index 0 and indices past the table read as the empty string. -/
def string (p : Pool) (index : UInt32) : String :=
  (item? "" p.strings index).getD ""

def namespace? (p : Pool) (index : UInt32) : Option Namespace :=
  item? ⟨0, 0⟩ p.namespaces index

def nsSet? (p : Pool) (index : UInt32) : Option (List UInt32) :=
  item? [] p.nsSets index

def multiname? (p : Pool) (index : UInt32) : Option Multiname :=
  item? .any p.multinames index

def namespaceName (p : Pool) (ns : UInt32) : String :=
  p.string ((p.namespace? ns).elim 0 Namespace.name)

/-- The namespace's name, a point and the name; the bare name in a namespace without one. -/
def qualify (p : Pool) (ns name : UInt32) : String :=
  let space := p.namespaceName ns
  if space = "" then p.string name else space ++ "." ++ p.string name

/-- The text of a name that resolves without running code: it is qualified, or its namespace set holds
exactly one namespace. -/
def staticName? (p : Pool) (index : UInt32) : Option String :=
  match p.multiname? index with
  | some .any => some ""
  | some (.qname ns name _) => some (p.qualify ns name)
  | some (.multiname name nsSet _) =>
    match p.nsSet? nsSet with
    | some [ns] => some (p.qualify ns name)
    | _ => none
  | _ => none

end Pool

namespace Document

def className (d : Document) (i : Instance) : String :=
  (d.pool.staticName? i.name).getD (d.pool.string i.name)

/-- Class names with the last instance of each name. -/
def classIndex (d : Document) : Std.TreeMap String Nat :=
  d.instances.zipIdx.foldl (fun index (i, n) => index.insert (d.className i) n) {}

def classByName? (d : Document) (name : String) : Option Nat :=
  d.classIndex[name]?

end Document

end ActionVm
