import ActionVm.Number.Double

namespace ActionVm

structure Ref where
  index : Nat
  deriving DecidableEq, Repr, Inhabited

inductive Builtin where
  | toInt
  | toBoolean
  | toNumber
  | toText
  | sqrt
  | atan2
  | floor
  | trace
  | parseInt
  deriving DecidableEq, Repr

structure HostFunction where
  name : String
  deriving DecidableEq, Repr

inductive Callable where
  | method (index : UInt32)
  | builtin (f : Builtin)
  | host (f : HostFunction)
  deriving DecidableEq, Repr

inductive Value where
  | undefined
  | null
  | boolean (b : Bool)
  | integer (i : Int32)
  | number (d : Double)
  | text (s : String)
  | array (items : Array Ref)
  | object
  /-- A captured receiver replaces the one of the call. -/
  | function (callable : Callable) (receiver : Option Ref := none)
  /-- Stands for a declaration until the script that `init` starts has run. -/
  | deferred (init : UInt32)
  deriving DecidableEq, Repr, Inhabited

namespace Value

def typeName : Value → String
  | undefined => "undefined"
  | null => "null"
  | boolean _ => "Boolean"
  | integer _ => "int"
  | number _ => "Number"
  | text _ => "String"
  | array _ => "Array"
  | object => "Object"
  | function .. => "Function"
  | deferred _ => "Definable"

def isUndefined : Value → Bool
  | undefined => true
  | _ => false

def isFunction : Value → Bool
  | function .. => true
  | _ => false

def deferred? : Value → Option UInt32
  | deferred init => some init
  | _ => none

def integer? : Value → Option Int32
  | integer i => some i
  | _ => none

def text? : Value → Option String
  | text s => some s
  | _ => none

def withItems (items : Array Ref) : Value → Value
  | array _ => array items
  | v => v

def withReceiver (receiver : Option Ref) : Value → Value
  | function callable _ => function callable receiver
  | v => v

/-- An integer where it fits, else the nearest number. -/
def ofInt (n : Int) : Value :=
  if Int32.minValue.toInt ≤ n ∧ n ≤ Int32.maxValue.toInt then integer (Int32.ofInt n)
  else number (Double.ofInt n)

end Value

end ActionVm
