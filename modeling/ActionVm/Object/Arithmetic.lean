import ActionVm.Object.Comparison

namespace ActionVm

structure Unsupported where
  operation : String
  left : String
  right : String
  deriving DecidableEq, Repr

namespace Unsupported

def message (e : Unsupported) : String :=
  s!"unsupported operands for {e.operation}: {e.left} and {e.right}"

end Unsupported

namespace Value

/-- Texts are joined and numbers added; nothing else has a sum. -/
def add (a b : Value) : Except Unsupported Value :=
  match a, b with
  | text a, text b => .ok (text (a ++ b))
  | integer a, integer b => .ok (ofInt (a.toInt + b.toInt))
  | a, b =>
    if a.isNumeric && b.isNumeric then .ok (number (a.toNumber.add b.toNumber))
    else .error { operation := "add", left := a.typeName, right := b.typeName }

def subtract (a b : Value) : Value :=
  match a, b with
  | integer a, integer b => ofInt (a.toInt - b.toInt)
  | a, b => number (a.toNumber.sub b.toNumber)

def multiply (a b : Value) : Value :=
  match a, b with
  | integer a, integer b => ofInt (a.toInt * b.toInt)
  | a, b => number (a.toNumber.mul b.toNumber)

def divide (a b : Value) : Value :=
  number (a.toNumber.div b.toNumber)

end Value

end ActionVm
