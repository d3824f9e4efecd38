namespace ActionVm

structure Placement where
  /-- The global property that holds the parent; the global object itself without one. -/
  parent : Option String
  name : String
  placedBy : UInt32
  deriving DecidableEq, Repr

structure Binding where
  className : String
  tag : Option UInt32
  placement : Option Placement
  deriving DecidableEq, Repr

inductive Event where
  | bind (b : Binding)
  /-- Calls the function that the global property `target` holds under the name `type`. -/
  | dispatch (target type : String)
  /-- Acknowledges the ticket once all earlier events were handled. -/
  | sync (ticket : Nat)
  | shutdown
  deriving DecidableEq, Repr

end ActionVm
