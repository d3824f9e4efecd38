import ActionVm.Machine.Compiled
import ActionVm.Machine.Dialogue

namespace ActionVm

/-- What a class name stands for: a copy of a global binding, or a class of the document. -/
inductive ClassEntry where
  | builtin
  | defined (index : Nat)
  deriving DecidableEq, Repr

structure Survey where
  document : Document
  config : Config
  global : Ref
  classes : Std.TreeMap String ClassEntry
  isCompiled : UInt32 → Bool
  compileCount : Nat

/-- What can be asked of a machine, also by a function that it is just calling. -/
inductive Request where
  | object (q : ObjectRequest)
  | survey
  | write (text : String)
  | registerClass (name : String) (value : Ref)
  | compile (method : UInt32)
  | callMethod (method : UInt32) (this : Ref) (args : List Ref)
  | callFunction (f this : Ref) (args : List Ref)
  | define (init : UInt32)
  | start (init : UInt32)
  | resolve (holder : Ref) (name : String) (value : Ref)
  | buildTraits (r : Ref) (traits : List Trait) (init : Option UInt32)
  | buildNamed (name : String) (base : Ref) (args : List Ref)
  | newClass (base : Ref) (index : UInt32)

abbrev Request.Reply : Request → Type
  | object q => q.Reply
  | survey => Survey
  | compile _ | start _ => Bool
  | callMethod .. | callFunction .. | resolve .. | buildNamed .. | newClass .. => Ref
  | write _ | registerClass .. | define _ | buildTraits .. => Unit

abbrev HostProgram := Dialogue Request Request.Reply

/-- What a machine is embedded in: it has methods translated, which may fail, and has functions to call. -/
structure Embedding where
  translator : Mode → UInt32 → Body → Except Native.EmitError Compiled := fun mode _ => Compiled.ofBody .generous mode
  functions : HostFunction → Ref → List Ref → HostProgram Ref := fun _ _ _ => .ask (.object (.make .undefined)) .done

end ActionVm
