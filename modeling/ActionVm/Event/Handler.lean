import ActionVm.Event.Basic
import ActionVm.Machine.Builtins

namespace ActionVm

/-- The other side, which has objects for tags and is told what was placed. It has a state of its own and works on
objects, but asks nothing of the machine. -/
structure Host (σ : Type) where
  state : σ
  lookup : UInt32 → σ → ObjectProgram (Option Ref × σ)
  placed : UInt32 → String → Ref → σ → ObjectProgram σ

def Host.silent (state : σ) : Host σ where
  state
  lookup _ s := .done (none, s)
  placed _ _ _ s := .done s

def ObjectProgram.run (p : ObjectProgram α) : MachineM α :=
  Dialogue.run (fun q => MachineM.onStore q.run) p

namespace MachineM

/-- Builds what a script declares, before and after the script is compiled. -/
def declare (global : Ref) (script : Definition) (init : Option UInt32) : MachineM Unit := do
  buildTraits global script.traits none
  let _ ← compile script.init
  buildTraits global script.traits init

/-- Builds what all scripts declare. Those before the last one run when something that they define is
read. -/
def declareScripts (global : Ref) (scripts : List Definition) (last : Definition) : MachineM Unit := do
  scripts.forM fun script => declare global script (some script.init)
  declare global last none

/-- Runs all scripts but the last as declarations, and then the last one as the entry. False if there
is none. -/
def runScriptsWith (invoke : Invoke) : MachineM Bool := do
  let m ← get
  match m.document.scripts.getLast? with
  | none => return false
  | some last =>
    declareScripts m.global m.document.scripts.dropLast last
    let _ ← start last.init
    let _ ← invoke (.method last.init) m.global []
    return true

def baseFor (host : Host σ) : Option UInt32 → MachineM (Ref × σ)
  | none => return (← fresh .object, host.state)
  | some tag => do
    let (found, state) ← (host.lookup tag host.state).run
    match found with
    | some r => return (r, state)
    | none => return (← fresh .object, state)

/-- Makes an instance a property of its parent, if there is one, and tells the host. -/
def place (host : Host σ) (state : σ) (inst : Ref) (p : Placement) : MachineM σ := do
  let global := (← get).global
  let parent ← match p.parent with
    | none => pure (some global)
    | some name => onStore (StoreM.property? global name)
  match parent with
  | none => return state
  | some parent =>
    setProperty parent p.name inst
    (host.placed p.placedBy p.name inst state).run

/-- Builds an instance with null as its only argument, and places it. -/
def bindClass (invoke : Invoke) (host : Host σ) (b : Binding) : MachineM σ := do
  let (base, state) ← baseFor host b.tag
  let inst ← invoke (.construction b.className) base [← fresh .null]
  match b.placement with
  | none => return state
  | some p => place host state inst p

def newEvent (type : String) : MachineM Ref := do
  let event ← onStore (StoreM.alloc { className := "flash.events.Event" })
  setProperty event "type" (← fresh (.text type))
  return event

def notify (invoke : Invoke) (obj : Ref) (type : String) : MachineM Unit := do
  match ← onStore (StoreM.property? obj type) with
  | none => return
  | some handler =>
    if (← value handler).isFunction then
      let event ← newEvent type
      let _ ← holding [obj, handler, event] (callFunction invoke handler obj [event])

def dispatch (invoke : Invoke) (target type : String) : MachineM Unit := do
  match ← onStore (StoreM.property? (← get).global target) with
  | none => return
  | some obj => notify invoke obj type

def handleWith (invoke : Invoke) (host : Host σ) : Event → MachineM (Bool × σ)
  | .bind b => return (true, ← bindClass invoke host b)
  | .dispatch target type => do
    dispatch invoke target type
    return (true, host.state)
  | .sync _ => return (true, host.state)
  | .shutdown => return (false, host.state)

def runScripts : MachineM Bool :=
  runScriptsWith invoke

def handle (host : Host σ) (e : Event) : MachineM (Bool × σ) :=
  handleWith invoke host e

end MachineM

end ActionVm
