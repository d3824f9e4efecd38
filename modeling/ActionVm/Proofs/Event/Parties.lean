import ActionVm.Event.Worker
import Mathlib.Data.List.Induction
import Mathlib.Logic.Function.Basic

namespace ActionVm

/-- What a worker does in a step. -/
inductive Deed where
  | boot
  | receive (e : Event)
  | handle (e : Event)
  /-- It drops the event in hand with all else that it was doing. -/
  | panic (inHand : Option Event)
  | leave
  | close
  | drop (e : Event)
  | finish

def Phase.inHand : Phase → Option Event
  | handling e => some e
  | _ => none

def Phase.isActive : Phase → Bool
  | starting | waiting | handling _ => true
  | closing _ | draining _ | ended _ => false

def Phase.isServing : Phase → Bool
  | waiting | handling _ => true
  | _ => false

def Phase.hasClosed : Phase → Bool
  | draining _ | ended _ => true
  | _ => false

namespace Worker

/-- The steps of a worker. It may panic at any point of a script or an event, and so leave its machine and its
host in any state. -/
inductive Does : Worker σ → Deed → Worker σ → Prop where
  | boot (hp : w.phase = .starting) (hr : MachineM.runScripts w.machine = .ok found m) :
    Does w .boot { w with machine := m, phase := .waiting }
  | receive (hp : w.phase = .waiting) (hr : w.queue.receive = .event e q) :
    Does w (.receive e) { w with queue := q, phase := .handling e }
  | handle {w : Worker σ} {e : Event} {goOn : Bool} {state : σ} {m : Machine} (hp : w.phase = .handling e)
    (hr : MachineM.handle w.host e w.machine = .ok (goOn, state) m) :
    Does w (.handle e) { w.acknowledge e with
      machine := m
      host := { w.host with state }
      phase := if goOn then .waiting else .closing .finished }
  | panicStarting (hp : w.phase = .starting) :
    Does w (.panic none) { w with machine := m, phase := .closing .failed }
  | panicHandling (hp : w.phase = .handling e) :
    Does w (.panic (some e)) { w with machine := m, host := { w.host with state := x }, phase := .closing .failed }
  | leave (hp : w.phase = .waiting) (hr : w.queue.receive = .ended) :
    Does w .leave { w with phase := .closing .finished }
  | close (hp : w.phase = .closing how) :
    Does w .close { w with queue := w.queue.close, phase := .draining how }
  | drop (hp : w.phase = .draining how) (hr : w.queue.tryReceive = some (e, q)) :
    Does w (.drop e) { w with queue := q }
  | finish (hp : w.phase = .draining how) (hr : w.queue.tryReceive = none) :
    Does w .finish { w with phase := .ended how }

/-- Whether the worker or its queue has the means to acknowledge a ticket. -/
def Holds (w : Worker σ) (ticket : Nat) : Prop :=
  .sync ticket ∈ w.queue.events ∨ w.phase = .handling (.sync ticket)

@[simp] theorem queue_acknowledge (w : Worker σ) (e : Event) : (w.acknowledge e).queue = w.queue := by
  cases e <;> rfl

theorem mem_acknowledge {w : Worker σ} :
    ticket ∈ (w.acknowledge e).acknowledged ↔ ticket ∈ w.acknowledged ∨ e = .sync ticket := by
  cases e with
  | sync other =>
    change ticket ∈ other :: w.acknowledged ↔ _
    rw [List.mem_cons, Event.sync.injEq, or_comm, eq_comm]
  | bind | dispatch | shutdown =>
    change ticket ∈ w.acknowledged ↔ _
    simp

theorem does_boot {w : Worker σ} (hp : w.phase = .starting) : ∃ deed, w.Does deed w.boot := by
  unfold boot
  split
  · rename_i hr
    exact ⟨_, .boot hp hr⟩
  · exact ⟨_, .panicStarting hp⟩

theorem does_complete {w : Worker σ} (hp : w.phase = .handling e) : ∃ deed, w.Does deed (w.complete e) := by
  unfold complete
  split
  · rename_i hr
    exact ⟨_, .handle hp hr⟩
  · exact ⟨_, .panicHandling hp⟩

theorem does_advance {w : Worker σ} (h : w.advance = some next) : ∃ deed, w.Does deed next := by
  unfold advance at h
  split at h
  · rename_i hp
    cases h
    exact does_boot hp
  · rename_i hp
    split at h
    · rename_i hr
      cases h
      exact ⟨_, .receive hp hr⟩
    · rename_i hr
      cases h
      exact ⟨_, .leave hp hr⟩
    · cases h
  · rename_i hp
    cases h
    exact does_complete hp
  · rename_i hp
    cases h
    exact ⟨_, .close hp⟩
  · rename_i hp
    split at h
    · rename_i hr
      cases h
      exact ⟨_, .drop hp hr⟩
    · rename_i hr
      cases h
      exact ⟨_, .finish hp hr⟩
  · cases h

end Worker

inductive Caller where
  | free
  | posting (e : Event)
  | waiting (ticket : Nat)

def Caller.behind : Event → Caller
  | .sync ticket => waiting ticket
  | _ => free

/-- A worker, its callers, and a bound below which tickets were given away. -/
structure Parties (P σ : Type) where
  worker : Worker σ
  callers : P → Caller
  tickets : Nat

inductive Move (P : Type) where
  | worker (deed : Deed)
  | accept (p : P) (e : Event)
  | refuse (p : P) (e : Event)
  | count (p : P)
  | answer (p : P) (ticket : Nat) (r : Except WorkerError Unit)
  | close

namespace Move

variable {P : Type}

def accepted? : Move P → Option Event
  | accept _ e => some e
  | _ => none

def received? : Move P → Option Event
  | worker (.receive e) => some e
  | _ => none

def handled? : Move P → Option Event
  | worker (.handle e) => some e
  | _ => none

def dropped? : Move P → Option Event
  | worker (.drop e) => some e
  | _ => none

def lost? : Move P → Option Event
  | worker (.panic inHand) => inHand
  | _ => none

def IsSilent (move : Move P) : Prop :=
  move.accepted? = none ∧ move.received? = none ∧ move.handled? = none ∧ move.dropped? = none ∧
    move.lost? = none

end Move

/-- The events that the moves of one kind tell of, in the order of the moves. -/
def eventsOf {P : Type} (kind : Move P → Option Event) (trace : List (Move P)) : List Event :=
  trace.filterMap kind

section Histories

variable {P : Type}

theorem eventsOf_append (kind : Move P → Option Event) (trace more : List (Move P)) :
    eventsOf kind (trace ++ more) = eventsOf kind trace ++ eventsOf kind more :=
  List.filterMap_append

@[simp] theorem eventsOf_nil (kind : Move P → Option Event) : eventsOf kind [] = [] :=
  rfl

@[simp] theorem eventsOf_cons (kind : Move P → Option Event) (move : Move P) (trace : List (Move P)) :
    eventsOf kind (move :: trace) = (kind move).toList ++ eventsOf kind trace := by
  rw [eventsOf, List.filterMap_cons]
  cases kind move <;> rfl

@[simp] theorem eventsOf_snoc (kind : Move P → Option Event) (trace : List (Move P)) (move : Move P) :
    eventsOf kind (trace ++ [move]) = eventsOf kind trace ++ (kind move).toList := by
  rw [eventsOf_append, eventsOf_cons, eventsOf_nil, List.append_nil]

variable (trace : List (Move P))

/-- The events that the queue took. -/
abbrev accepted : List Event :=
  eventsOf Move.accepted? trace

/-- The events that the worker began to handle. -/
abbrev received : List Event :=
  eventsOf Move.received? trace

/-- The events that were handled completely. -/
abbrev handled : List Event :=
  eventsOf Move.handled? trace

/-- The events that were dropped out of the queue. -/
abbrev dropped : List Event :=
  eventsOf Move.dropped? trace

/-- The events that were in hand at a panic. -/
abbrev lost : List Event :=
  eventsOf Move.lost? trace

end Histories

namespace Parties

variable {P : Type}

def start (machine : Machine) (host : Host σ) : Parties P σ where
  worker := { machine, host }
  callers := fun _ => .free
  tickets := 0

def ticketsBehind (s : Parties P σ) : Event → Nat
  | .sync ticket => ticket + 1
  | _ => s.tickets

def withQueue (s : Parties P σ) (queue : Queue) : Parties P σ :=
  { s with worker := { s.worker with queue } }

def withCaller [DecidableEq P] (s : Parties P σ) (p : P) (c : Caller) : Parties P σ :=
  { s with callers := Function.update s.callers p c }

variable [DecidableEq P]

/-- The steps of all parties. A caller that waits is answered once its ticket was acknowledged, or once
nobody is left who could do so. Anyone may close the queue. -/
inductive Step : Parties P σ → Move P → Parties P σ → Prop where
  | worker (hw : s.worker.Does deed w) : Step s (.worker deed) { s with worker := w }
  | accept {s : Parties P σ} {p : P} {e : Event} {q : Queue} (hp : s.callers p = .free)
    (ht : ∀ ticket, e = .sync ticket → s.tickets ≤ ticket)
    (hq : s.worker.queue.accept e = .ok q) :
    Step s (.accept p e)
      { (s.withQueue q).withCaller p (.posting e) with tickets := s.ticketsBehind e }
  | refuse (hp : s.callers p = .free) (hq : s.worker.queue.accept e = .error e) : Step s (.refuse p e) s
  | count {s : Parties P σ} {p : P} {e : Event} (hp : s.callers p = .posting e) :
    Step s (.count p) ((s.withQueue s.worker.queue.count).withCaller p (.behind e))
  | acknowledged (hp : s.callers p = .waiting ticket) (ha : ticket ∈ s.worker.acknowledged) :
    Step s (.answer p ticket (.ok ())) (s.withCaller p .free)
  | abandoned (hp : s.callers p = .waiting ticket) (ha : ticket ∉ s.worker.acknowledged)
    (hh : ¬s.worker.Holds ticket) : Step s (.answer p ticket (.error .gone)) (s.withCaller p .free)
  | close : Step s .close (s.withQueue s.worker.queue.close)

inductive Run : Parties P σ → List (Move P) → Parties P σ → Prop where
  | nil : Run s [] s
  | snoc (hr : Run s trace t) (hs : Step t move u) : Run s (trace ++ [move]) u

namespace Run

theorem one {s t : Parties P σ} (h : Step s move t) : Run s [move] t :=
  .snoc .nil h

theorem append {s t u : Parties P σ} (h : Run s trace t) (h' : Run t more u) : Run s (trace ++ more) u := by
  induction h' with
  | nil => rwa [List.append_nil]
  | snoc _ hs ih =>
    rw [← List.append_assoc]
    exact .snoc ih hs

theorem cons {s t u : Parties P σ} (h : Step s move t) (h' : Run t rest u) : Run s (move :: rest) u :=
  (one h).append h'

theorem split {s u : Parties P σ} (h : Run s (trace ++ more) u) : ∃ t, Run s trace t ∧ Run t more u := by
  induction more using List.reverseRecOn generalizing u with
  | nil =>
    rw [List.append_nil] at h
    exact ⟨u, h, .nil⟩
  | append_singleton more move ih =>
    rw [← List.append_assoc] at h
    generalize htrace : trace ++ more ++ [move] = whole at h
    cases h with
    | nil => exact absurd htrace (by simp)
    | snoc hr hs =>
      obtain ⟨rfl, rfl⟩ := List.append_singleton_inj.mp htrace
      obtain ⟨t, h₁, h₂⟩ := ih hr
      exact ⟨t, h₁, .snoc h₂ hs⟩

theorem step_of_singleton {s t : Parties P σ} (h : Run s [move] t) : Step s move t := by
  generalize htrace : [move] = trace at h
  cases h with
  | nil => cases htrace
  | snoc hr hs =>
    obtain ⟨hnil, rfl⟩ := List.append_singleton_inj.mp (List.nil_append [move] ▸ htrace)
    subst hnil
    generalize hempty : ([] : List (Move P)) = trace at hr
    cases hr with
    | nil => exact hs
    | snoc => exact absurd hempty (by simp)

theorem around {s u : Parties P σ} (h : Run s (before ++ move :: rest) u) :
    ∃ t t', Run s before t ∧ Step t move t' ∧ Run t' rest u := by
  rw [← List.singleton_append] at h
  obtain ⟨t, h₁, h₂⟩ := h.split
  obtain ⟨t', hs, h₃⟩ := h₂.split
  exact ⟨t, t', h₁, hs.step_of_singleton, h₃⟩

end Run

end Parties

end ActionVm
