import ActionVm.Session.Basic

namespace ActionVm

inductive Command where
  -- On the machine.
  | runScripts
  | event (e : Event)
  | callMethod (method : UInt32) (this : Term) (args : List Term)
  | callFunction (f this : Term) (args : List Term)
  | compile (method : UInt32)
  | compiled (method : UInt32)
  | classEntry (name : String)
  | registerClass (name : String) (value : Term)
  | define (init : UInt32)
  | start (init : UInt32)
  | resolve (holder : Term) (name : String) (value : Term)
  | nameText (index : UInt32)
  | buildTraits (target : Term) (traits : List Trait) (init : Option UInt32)
  | buildNamed (name : String) (base : Term) (args : List Term)
  | newClass (base : Term) (index : UInt32)
  | write (text : String)
  | globals
  -- On registers.
  | keep (register : String) (value : Term)
  | popInto (register : String)
  | release (register : String)
  | copy (value : Term) (register : String)
  -- On objects.
  | inspect (value : Term)
  | display (value : Term)
  | same (a b : Term)
  | getProperty (target : Term) (name : String)
  | setProperty (target : Term) (name : String) (value : Term)
  | hasProperty (target : Term) (name : String)
  | removeProperty (target : Term) (name : String)
  | propertyNames (target : Term)
  | getSlot (target : Term) (id : UInt32)
  | setSlot (target : Term) (id : UInt32) (value : Term)
  | bindSlot (target : Term) (id : UInt32) (name : String)
  | getter (target : Term) (name : String)
  | setter (target : Term) (name : String)
  | setGetter (target : Term) (name : String) (f : Term)
  | setSetter (target : Term) (name : String) (f : Term)
  | className (target : Term)
  | setClassName (target : Term) (name : String)
  | prototype (target : Term)
  | setPrototype (target prototype : Term)
  -- On the frame.
  | act (s : Step)
  | test (c : Condition)
  | select (last : UInt32)
  | push (value : Term)
  | peek
  | popN (n : Nat)
  | pushScope (value : Term)
  | getLocal (index : UInt32)
  | setLocal (index : UInt32) (value : Term)
  | localCount
  | result
  | frameName (index : UInt32)
  deriving Inhabited

inductive Reply where
  | nothing
  | flag (b : Bool)
  | number (n : Int)
  | text (s : String)
  | object (depth : Nat) (r : Ref)
  | scripts (ran : Bool)
  | list (items : List Reply)

namespace Reply

def option (depth : Nat) : Option Ref → Reply
  | some r => object depth r
  | none => nothing

def texts (items : List String) : Reply :=
  list (items.map text)

def classEntry : Option ClassEntry → Reply
  | some .builtin => number (-1)
  | some (.defined i) => number i
  | none => nothing

def compiled : Option Compiled → Reply
  | some c => list [text c.backend.name, number c.blockCount, number c.stepCount]
  | none => nothing

end Reply

namespace SessionM

def evalAll : List Term → SessionM (List Ref)
  | [] => return []
  | t :: rest => do
    let r ← eval t
    return r :: (← evalAll rest)

def object (t : Term) : SessionM Object := do
  let r ← eval t
  return (← get).machine.store.get r

def change (act : StoreM Unit) : SessionM Reply := do
  onStore act
  return .nothing

def runMachine : Command → SessionM Reply
  | .callMethod method this args => do
    let this ← handOver this
    let args ← evalAll args
    return .object 3 (← onMachine (MachineM.invoke (.method method) this args))
  | .callFunction f this args => do
    let f ← eval f
    let this ← eval this
    let args ← evalAll args
    return .object 3 (← onMachine (MachineM.callFunction MachineM.invoke f this args))
  | .define init => do
    onMachine (MachineM.define MachineM.invoke init)
    return .nothing
  | .resolve holder name value => do
    let holder ← eval holder
    let r ← eval value
    return .object 3 (← onMachine (MachineM.resolve MachineM.invoke holder name r))
  | .buildTraits target traits init => do
    let r ← eval target
    onMachine (MachineM.buildTraits r traits init)
    return .object 2 (← eval target)
  | .buildNamed name base args => do
    let base ← eval base
    let args ← evalAll args
    return .object 3 (← onMachine (MachineM.buildNamed MachineM.invoke name base args))
  | .newClass base index => do
    let base ← eval base
    return .object 3 (← onMachine (MachineM.newClass MachineM.invoke base index))
  | _ => return .nothing

def runObject : Command → SessionM Reply
  | .keep register value => do
    setRegister register (← eval value)
    return .nothing
  | .popInto register => do
    setRegister register (← onFrame FrameM.pop)
    return .nothing
  | .release register => return .flag (← dropRegister register)
  | .copy value register => do
    let r ← onStore (StoreM.copy (← eval value))
    setRegister register r
    return .object 2 r
  | .inspect value => return .object 4 (← eval value)
  | .display value => do
    let r ← eval value
    return .text (← onMachine (MachineM.textOf r))
  | .same a b => do
    let a ← eval a
    let b ← eval b
    return .flag (a = b)
  | .getProperty target name => do
    return .option 3 (← onStore (StoreM.property? (← eval target) name))
  | .setProperty target name value => do
    let r ← eval target
    change (StoreM.setProperty r name (← eval value))
  | .hasProperty target name => return .flag ((← object target).hasProperty name)
  | .removeProperty target name => do
    return .flag (← onStore (StoreM.removeProperty (← eval target) name))
  | .propertyNames target => do
    let o ← object target
    return .list [.number o.properties.size, .texts o.propertyNames]
  | .getSlot target id => do
    return .option 3 (← onStore (StoreM.slot? (← eval target) id))
  | .setSlot target id value => do
    let r ← eval target
    change (StoreM.setSlot r id (← eval value))
  | .bindSlot target id name => do
    change (StoreM.update (← eval target) (·.bindSlot id name))
  | .getter target name => return .option 1 (← object target).getters[name]?
  | .setter target name => return .option 1 (← object target).setters[name]?
  | .setGetter target name f => do
    let r ← eval target
    change (StoreM.setGetter r name (← eval f))
  | .setSetter target name f => do
    let r ← eval target
    change (StoreM.setSetter r name (← eval f))
  | .className target => return .text (← object target).className
  | .setClassName target name => do
    change (StoreM.setClassName (← eval target) name)
  | .prototype target => do
    let r ← eval target
    return .option 3 (← prototype? r)
  | .setPrototype target prototype => do
    let r ← eval target
    change (StoreM.setPrototype r (← eval prototype))
  | c => runMachine c

def runFrame : Command → SessionM Reply
  | .act s => do
    onFrame (FrameM.act MachineM.invoke s)
    return .nothing
  | .test c => return .flag (← onFrame (FrameM.test c))
  | .select last => return .number (← onFrame (FrameM.select last)).toNat
  | .push value => do
    let r ← eval value
    onFrame (FrameM.push r)
    return .nothing
  | .peek => return .object 2 (← onFrame FrameM.peek)
  | .popN n => return .list ((← onFrame (FrameM.popN n)).map (.object 2))
  | .pushScope value => do
    let r ← eval value
    onFrame (FrameM.modifyFrame fun f => { f with scopes := r :: f.scopes })
    return .nothing
  | .getLocal index => return .object 2 (← onFrame (FrameM.getLocal index))
  | .setLocal index value => do
    let r ← eval value
    onFrame (FrameM.setLocal index r)
    return .nothing
  | .localCount => return .number (← get).frame.localLimit
  | .result => return .option 3 (← get).frame.result
  | .frameName index => return .text (← onFrame (FrameM.nameText index))
  | c => runObject c

def run : Command → SessionM Reply
  | .runScripts => return .scripts (← onMachine MachineM.runScripts)
  | .event e => return .flag (← handle e)
  | .compile method => return .compiled (← onMachine (MachineM.compile method))
  | .compiled method => do
    let m := (← get).machine
    return .list [.flag (m.isCompiled method), .number m.compileCount]
  | .classEntry name => return .classEntry (← onMachine (MachineM.classEntry? name))
  | .registerClass name value => do
    let r ← eval value
    onMachine (MachineM.registerClass name r)
    return .nothing
  | .start init => return .flag (← onMachine (MachineM.start init))
  | .nameText index => return .text ((← get).machine.document.pool.nameText index)
  | .write text => do
    onMachine (MachineM.write text)
    return .nothing
  | .globals => do
    let m := (← get).machine
    return .texts (m.store.get m.global).propertyNames
  | c => runFrame c

end SessionM

structure Outcome where
  reply : Except Stop Reply
  output : String
  placed : List Placed

namespace Session

def create (m : Machine) (host : Host (List Placed)) (method maxStack localCount : UInt32)
    (receiver : Term) (args : List Term) : Except Stop Session :=
  let names : Names := { global := m.global }
  let make : MachineM Frame := do
    let receiver ← (receiver.program names).run
    let args ← (Term.programAll names args).run
    Stop.within (Frame.create m.config method maxStack localCount receiver args)
  match make m with
  | .ok frame machine => .ok { machine, frame, host }
  | .error e _ => .error e

def step (s : Session) (c : Command) : Outcome × Session :=
  let (reply, s) := match SessionM.run c s with
    | .ok r s => (Except.ok r, s)
    | .error e s => (Except.error e, s)
  let ((output, placed), s) := s.endStep
  ({ reply, output, placed }, s)

end Session

end ActionVm
