import ActionVm.Machine.Action

namespace ActionVm

namespace FrameM

/-- The place of the next block, or none behind a return. -/
def leave : Exit → FrameM (Option Nat)
  | .ret => return none
  | .jump target => return some target
  | .branch condition taken fallthrough => do
    return some (if ← test condition then taken else fallthrough)
  | .switch cases default => do
    let i ← select (UInt32.ofNat (cases.length - 1))
    return some (cases.getD i.toNat default)

def runFrom (invoke : Invoke) (code : Threaded) : Nat → Nat → FrameM Unit
  | 0, _ => throw .outOfFuel
  | fuel + 1, place => do
    match code.blocks[place]? with
    | none => return
    | some block =>
      block.steps.forM (act invoke)
      match ← leave block.exit with
      | none => return
      | some next => runFrom invoke code fuel next

end FrameM

namespace MachineM

def inFrame (f : Frame) (act : FrameM Unit) : MachineM Ref := fun m =>
  match act { machine := m, frame := f } with
  | .ok _ a =>
    match a.frame.result with
    | some r => .ok r a.machine
    | none => fresh .undefined a.machine
  | .error e a => .error e a.machine

/-- Runs a method on a frame of its own. One without code gives undefined. -/
def runMethod (run : Threaded → FrameM Unit) (method : UInt32) (this : Ref) (args : List Ref) : MachineM Ref := do
  match ← compile method with
  | none => fresh .undefined
  | some code =>
    let m ← get
    match m.document.body? method with
    | none => fresh .undefined
    | some body =>
      let f ← Stop.within (Frame.create m.config method body.maxStack body.localCount this args)
      inFrame f (run code.code)

def answer (invoke : Invoke) : (q : Request) → MachineM q.Reply
  | .object q => onStore q.run
  | .survey => do
    let m ← get
    return {
      document := m.document
      config := m.config
      global := m.global
      classes := m.classes
      isCompiled := m.isCompiled
      compileCount := m.compileCount }
  | .write text => write text
  | .registerClass name value => registerClass name value
  | .compile method => return (← compile method).isSome
  | .callMethod method this args => holding args (invoke (.method method) this args)
  | .callFunction f this args => holding (f :: this :: args) (callFunction invoke f this args)
  | .define init => define invoke init
  | .start init => start init
  | .resolve holder name value => resolve invoke holder name value
  | .buildTraits r traits init => buildTraits r traits init
  | .buildNamed name base args => holding args (invoke (.construction name) base args)
  | .newClass base index => newClass invoke base index

/-- Runs a callee, given how it runs others and the code of methods. -/
def enter (invoke : Invoke) (run : Threaded → FrameM Unit) : Invoke
  | .code (.method method), this, args => runMethod run method this args
  | .code (.builtin f), _, args => callBuiltin f args
  | .code (.host f), this, args => do ((← get).embedding.functions f this args).run (answer invoke)
  | .construction name, base, args => buildNamed invoke name base args

/-- Every call and every block takes one unit of fuel, so that a run is a total function. A run that ends
never notices. -/
def execute : Nat → Invoke
  | 0, _, _, _ => throw .outOfFuel
  | fuel + 1, callee, this, args =>
    enter (execute fuel) (fun code => FrameM.runFrom (execute fuel) code fuel 0) callee this args

/-- The fuel of a run: more than any run takes that ends in a lifetime. -/
def fullTank : Nat := 0x4000000000000000

def invoke : Invoke :=
  execute fullTank

end MachineM

end ActionVm
