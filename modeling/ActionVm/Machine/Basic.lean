import ActionVm.Document.Names
import ActionVm.Machine.Frame
import ActionVm.Machine.Request
import ActionVm.Object.Reach
import ActionVm.Object.Text

namespace ActionVm

inductive Note where
  /-- The body of a method was translated, with or without success. -/
  | translated (method : UInt32)
  /-- A script was started because something that it defines was read. -/
  | began (init : UInt32)
  /-- Such a script has returned. -/
  | ended (init : UInt32)
  deriving DecidableEq, Repr

/-- A document, the objects made from it, and what was compiled and started so far. -/
structure Machine where
  document : Document
  config : Config
  embedding : Embedding := {}
  store : Store
  global : Ref
  classes : Std.TreeMap String ClassEntry := {}
  /-- Methods that were compiled, with none for one that could not be. -/
  compiled : Std.TreeMap UInt32 (Option Compiled) := {}
  compileCount : Nat := 0
  started : List UInt32 := []
  output : String := ""
  outputBroken : Bool := false
  /-- What suspended calls and the caller of the machine keep alive. -/
  held : List Ref := []
  /-- What was done so far, the latest first. -/
  journal : List Note := []

abbrev MachineM := EStateM Stop Machine

namespace MachineM

/-- Runs work on the store, which is taken out of the machine meanwhile so that it is not shared. -/
def onStore (act : StoreM α) : MachineM α := fun m =>
  let store := m.store
  let m := { m with store := {} }
  match act store with
  | .ok x store => .ok x { m with store }
  | .error e store => .error (.fault (.bounds e)) { m with store }

instance : MonadLift StoreM MachineM where
  monadLift := onStore

def fresh (v : Value) : MachineM Ref :=
  onStore (StoreM.fresh v)

def value (r : Ref) : MachineM Value :=
  return (← get).store.value r

/-- The text of an object. Nobody gets past one that has none. -/
def textOf (r : Ref) : MachineM String := do
  match (← get).store.text? r with
  | some text => return text
  | none => throw .endless

def holding (refs : List Ref) (act : MachineM α) : MachineM α := fun m =>
  let held := m.held
  match act { m with held := refs ++ held } with
  | .ok x m => .ok x { m with held }
  | .error e m => .error e { m with held }

def write (text : String) : MachineM Unit :=
  modify fun m => if m.outputBroken then m else { m with output := m.output ++ text ++ "\n" }

def classEntry? (name : String) : MachineM (Option ClassEntry) :=
  return (← get).classes[name]?

def registerClass (name : String) (value : Ref) : MachineM Unit := do
  onStore (StoreM.setProperty (← get).global name value)
  modify fun m => { m with classes := m.classes.insert name .builtin }

def start (init : UInt32) : MachineM Bool :=
  modifyGet fun m =>
    if m.started.contains init then (false, m) else (true, { m with started := init :: m.started })

def note (n : Note) : MachineM Unit :=
  modify fun m => { m with journal := n :: m.journal }

def translate (method : UInt32) (body : Body) : MachineM (Except Native.EmitError Compiled) := do
  note (.translated method)
  let m ← get
  return m.embedding.translator m.config.mode method body

/-- Compiles a method when it is first needed. There is nothing to compile without a body. -/
def compile (method : UInt32) : MachineM (Option Compiled) := do
  let m ← get
  match m.compiled[method]? with
  | some known => return known
  | none =>
    match m.document.body? method with
    | none => return none
    | some body =>
      match ← translate method body with
      | .ok code =>
        modify fun m => { m with
          compiled := m.compiled.insert method (some code)
          compileCount := m.compileCount + 1 }
        return some code
      | .error _ =>
        modify fun m => { m with compiled := m.compiled.insert method none }
        return none

end MachineM

namespace Machine

def isCompiled (m : Machine) (method : UInt32) : Bool :=
  match m.compiled[method]? with
  | some (some _) => true
  | _ => false

end Machine

namespace Pool

def nameText (p : Pool) (index : UInt32) : String :=
  match p.multiname? index with
  | some (.qname ns name _) => p.qualify ns name
  | some (.multiname name _ _) => (p.staticName? index).getD (p.string name)
  | some (.rtqname name _) => p.string name
  | some (.rtqnameL _) | some (.multinameL ..) => "<Invalid>"
  | some .any | none => ""

end Pool

structure Activation where
  machine : Machine
  frame : Frame

abbrev FrameM := EStateM Stop Activation

namespace FrameM

def frame : FrameM Frame :=
  return (← get).frame

def modifyFrame (f : Frame → Frame) : FrameM Unit :=
  modify fun a => { a with frame := f a.frame }

def fail (f : UInt32 → Fault) : FrameM α := do
  throw (.fault (f (← frame).method))

/-- Runs work on the machine while the frame waits. The frame and `refs` stay alive. -/
def callOut (refs : List Ref) (act : MachineM α) : FrameM α := fun a =>
  let frame := a.frame
  match MachineM.holding (frame.references ++ refs) act a.machine with
  | .ok x machine => .ok x { machine, frame }
  | .error e machine => .error e { machine, frame }

def onStore (act : StoreM α) : FrameM α := fun a =>
  let frame := a.frame
  match MachineM.onStore act a.machine with
  | .ok x machine => .ok x { machine, frame }
  | .error e machine => .error e { machine, frame }

instance : MonadLift StoreM FrameM where
  monadLift := onStore

def fresh (v : Value) : FrameM Ref :=
  onStore (StoreM.fresh v)

def value (r : Ref) : FrameM Value :=
  return (← get).machine.store.value r

def textOf (r : Ref) : FrameM String := do
  match (← get).machine.store.text? r with
  | some text => return text
  | none => throw .endless

def pool : FrameM Pool :=
  return (← get).machine.document.pool

def global : FrameM Ref :=
  return (← get).machine.global

def push (r : Ref) : FrameM Unit := do
  let f ← frame
  if f.stackLimit ≤ f.stack.length then fail (.overflow · f.stackLimit)
  else modifyFrame fun f => { f with stack := r :: f.stack }

def pushFresh (v : Value) : FrameM Unit := do
  push (← fresh v)

def pop : FrameM Ref := do
  match (← frame).stack with
  | [] => fail .emptyPop
  | r :: rest =>
    modifyFrame fun f => { f with stack := rest }
    return r

def peek : FrameM Ref := do
  match (← frame).stack with
  | [] => fail .emptyPeek
  | r :: _ => return r

def popOnto (above : List Ref) : Nat → FrameM (List Ref)
  | 0 => return above
  | n + 1 => do
    let r ← pop
    popOnto (r :: above) n

/-- Pops `n` operands; they come in the order in which they were pushed. -/
def popN (n : Nat) : FrameM (List Ref) := do
  popOnto [] (← Stop.within (Bounds.capacity 8 n))

def popPair : FrameM (Ref × Ref) := do
  let right ← pop
  let left ← pop
  return (left, right)

/-- A local that was never written is a new undefined object every time. -/
def getLocal (index : UInt32) : FrameM Ref := do
  match (← frame).locals[index.toNat]? with
  | some r => return r
  | none => fresh .undefined

/-- Writes past the declared locals are dropped. -/
def setLocal (index : UInt32) (r : Ref) : FrameM Unit := do
  let f ← frame
  let i := index.toNat
  if f.localLimit ≤ i then return
  let filling ← onStore (StoreM.freshUndefined (i + 1 - f.locals.length))
  modifyFrame fun f => { f with locals := (f.locals ++ filling).set i r }

def receiver : FrameM Ref :=
  getLocal 0

/-- The text of a name. Its runtime parts are popped: first the name, then the namespace. -/
def nameText (index : UInt32) : FrameM String := do
  let p ← pool
  match p.multiname? index with
  | some (.rtqname ..) =>
    let _ ← pop
    return p.nameText index
  | some (.rtqnameL _) =>
    let name ← textOf (← pop)
    let _ ← pop
    return name
  | some (.multinameL ..) => textOf (← pop)
  | _ => return p.nameText index

end FrameM

end ActionVm
