import ActionVm.Event.Handler
import ActionVm.Event.Queue

namespace ActionVm

inductive WorkerError where
  | noScripts
  | gone
  | panicked
  deriving DecidableEq, Repr

namespace WorkerError

def message : WorkerError → String
  | noScripts => "program has no scripts"
  | gone => "VM worker is gone"
  | panicked => "VM worker panicked"

end WorkerError

inductive Ending where
  | finished
  | failed
  deriving DecidableEq, Repr

inductive Phase where
  | starting
  | waiting
  | handling (e : Event)
  | closing (how : Ending)
  | draining (how : Ending)
  | ended (how : Ending)
  deriving DecidableEq, Repr

/-- A machine that serves a queue, step by step. When it ends, it closes the queue and drops what is left in
it. -/
structure Worker (σ : Type) where
  machine : Machine
  host : Host σ
  queue : Queue := {}
  phase : Phase := .starting
  acknowledged : List Nat := []

namespace Worker

def spawn (document : Document) (config : Config) (host : Host σ) (embedding : Embedding := {}) :
    Except WorkerError (Worker σ) :=
  if document.scripts.isEmpty then .error .noScripts
  else .ok { machine := Machine.create document config embedding, host }

def acknowledge (w : Worker σ) : Event → Worker σ
  | .sync ticket => { w with acknowledged := ticket :: w.acknowledged }
  | _ => w

def boot (w : Worker σ) : Worker σ :=
  match MachineM.runScripts w.machine with
  | .ok _ machine => { w with machine, phase := .waiting }
  | .error _ machine => { w with machine, phase := .closing .failed }

def complete (w : Worker σ) (e : Event) : Worker σ :=
  match MachineM.handle w.host e w.machine with
  | .ok (goOn, state) machine =>
    { w.acknowledge e with
      machine
      host := { w.host with state }
      phase := if goOn then .waiting else .closing .finished }
  | .error _ machine => { w with machine, phase := .closing .failed }

def advance (w : Worker σ) : Option (Worker σ) :=
  match w.phase with
  | .starting => some w.boot
  | .waiting =>
    match w.queue.receive with
    | .event e queue => some { w with queue, phase := .handling e }
    | .ended => some { w with phase := .closing .finished }
    | .blocks => none
  | .handling e => some (w.complete e)
  | .closing how => some { w with queue := w.queue.close, phase := .draining how }
  | .draining how =>
    match w.queue.tryReceive with
    | some (_, queue) => some { w with queue }
    | none => some { w with phase := .ended how }
  | .ended _ => none

/-- A bound on the steps that are left: two for an event, and those of each phase. -/
def stepsLeft (w : Worker σ) : Nat :=
  2 * w.queue.events.length +
    match w.phase with
    | .starting => 5
    | .handling _ => 4
    | .waiting => 3
    | .closing _ => 2
    | .draining _ => 1
    | .ended _ => 0

theorem stepsLeft_advance {w next : Worker σ} (h : w.advance = some next) : next.stepsLeft < w.stepsLeft := by
  obtain ⟨machine, host, ⟨events, closed, posted⟩, phase, acknowledged⟩ := w
  cases phase with
  | starting =>
    cases h
    simp only [boot]
    split <;> simp [stepsLeft]
  | waiting =>
    cases events with
    | nil => cases closed <;> cases h; simp [stepsLeft]
    | cons e rest => cases h; simp [stepsLeft]; omega
  | handling e =>
    cases h
    simp only [complete]
    split
    · cases e <;> split <;> simp [stepsLeft, acknowledge]
    · simp [stepsLeft]
  | closing how => cases h; simp [stepsLeft, Queue.close]
  | draining how => cases events <;> cases h <;> simp [stepsLeft]
  | ended how => cases h

def settle (w : Worker σ) : Worker σ :=
  match _h : w.advance with
  | none => w
  | some next => next.settle
termination_by w.stepsLeft
decreasing_by exact stepsLeft_advance _h

def post (w : Worker σ) (e : Event) : Except WorkerError (Worker σ) :=
  match w.queue.post e with
  | .ok queue => .ok { w with queue }
  | .error _ => .error .gone

/-- What there is to say about a ticket when nobody can acknowledge it any more. -/
def verdict (w : Worker σ) (ticket : Nat) : Except WorkerError Unit :=
  if w.acknowledged.contains ticket then .ok () else .error .gone

def sync (w : Worker σ) : Worker σ × Except WorkerError Unit :=
  let ticket := w.queue.posted
  match w.post (.sync ticket) with
  | .error e => (w, .error e)
  | .ok w =>
    (w.settle, w.settle.verdict ticket)

def shutdown (w : Worker σ) : Worker σ × Except WorkerError Unit :=
  let w := ((w.post .shutdown).toOption.getD w).settle
  (w, if w.phase = .ended .failed then .error .panicked else .ok ())

end Worker

end ActionVm
