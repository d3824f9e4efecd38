namespace ActionVm

inductive Mode where
  | off
  | on
  | auto
  deriving DecidableEq, Repr

structure Config where
  mode : Mode := .auto
  traceCompiling : Bool := false
  /-- Factor on the stack depth that a method declares. -/
  stackSlack : Nat := 10
  hostClasses : Bool := true
  deriving DecidableEq, Repr

end ActionVm
