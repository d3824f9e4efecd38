import ActionVm.Event.Basic

namespace ActionVm

/-- First in, first out. A closed queue takes no more events, and those that are in it can still be
received. -/
structure Queue where
  events : List Event := []
  closed : Bool := false
  posted : Nat := 0
  deriving DecidableEq, Repr

inductive Received where
  | event (e : Event) (rest : Queue)
  | blocks
  | ended
  deriving DecidableEq, Repr

namespace Queue

/-- Appends an event. A closed queue gives it back. -/
def accept (q : Queue) (e : Event) : Except Event Queue :=
  if q.closed then .error e else .ok { q with events := q.events ++ [e] }

def count (q : Queue) : Queue :=
  { q with posted := q.posted + 1 }

/-- Between accepting an event and counting it, others may use the queue. -/
def post (q : Queue) (e : Event) : Except Event Queue :=
  (q.accept e).map count

def tryReceive (q : Queue) : Option (Event × Queue) :=
  match q.events with
  | [] => none
  | e :: rest => some (e, { q with events := rest })

def receive (q : Queue) : Received :=
  match q.tryReceive with
  | some (e, rest) => .event e rest
  | none => if q.closed then .ended else .blocks

def close (q : Queue) : Queue :=
  { q with closed := true }

end Queue

end ActionVm
