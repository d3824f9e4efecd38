import ActionVm.Session.Embedder

namespace ActionVm

/-- A machine with a host that keeps a record, a frame to work on, and objects in named registers. -/
structure Session where
  machine : Machine
  frame : Frame
  host : Host (List Placed)
  registers : Std.TreeMap String Ref := {}
  /-- What the current step works on and did not hand over; it is released when the step ends. -/
  temporaries : List Ref := []

abbrev SessionM := EStateM Stop Session

namespace Session

def references (s : Session) : List Ref :=
  s.registers.values ++ s.temporaries

def endStep (s : Session) : (String × List Placed) × Session :=
  ((s.machine.output, s.host.state),
    { s with
      machine := { s.machine with output := "" }
      host := { s.host with state := [] }
      temporaries := [] })

end Session

namespace SessionM

def onMachine (act : MachineM α) : SessionM α := fun s =>
  match MachineM.holding (s.frame.references ++ s.references) act s.machine with
  | .ok x machine => .ok x { s with machine }
  | .error e machine => .error e { s with machine }

def onFrame (act : FrameM α) : SessionM α := fun s =>
  let held := s.machine.held
  let machine := { s.machine with held := s.references ++ held }
  match act { machine, frame := s.frame } with
  | .ok x a => .ok x { s with machine := { a.machine with held }, frame := a.frame }
  | .error e a => .error e { s with machine := { a.machine with held }, frame := a.frame }

def onStore (act : StoreM α) : SessionM α :=
  onMachine (MachineM.onStore act)

/-- Evaluates a term whose object is handed over: the step does not keep it alive. -/
def handOver (t : Term) : SessionM Ref := do
  let s ← get
  onMachine (t.program { global := s.machine.global, registers := s.registers }).run

/-- Evaluates a term; its object lives at least as long as the step. -/
def eval (t : Term) : SessionM Ref := do
  let r ← handOver t
  modify fun s => { s with temporaries := r :: s.temporaries }
  return r

def setRegister (name : String) (r : Ref) : SessionM Unit :=
  modify fun s => { s with registers := s.registers.insert name r }

def dropRegister (name : String) : SessionM Bool :=
  modifyGet fun s => (s.registers.contains name, { s with registers := s.registers.erase name })

def prototype? (r : Ref) : SessionM (Option Ref) := do
  let s ← get
  let roots := s.machine.global :: s.frame.references ++ s.references
  return s.machine.store.prototype? roots r

def handle (e : Event) : SessionM Bool := do
  let (goOn, state) ← onMachine (MachineM.handle (← get).host e)
  modify fun s => { s with host := { s.host with state } }
  return goOn

end SessionM

end ActionVm
