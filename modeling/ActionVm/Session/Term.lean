import ActionVm.Event.Handler

namespace ActionVm

/-- Describes an object. Evaluating a term makes new objects, except where it names one that exists. -/
inductive Term where
  | undefined
  | null
  | boolean (b : Bool)
  | integer (i : Int32)
  | number (d : Double)
  | text (s : String)
  | array (items : List Term)
  | object (className : Option String) (names : List String) (values : List Term)
  | function (method : UInt32)
  | deferred (init : UInt32)
  | host (f : HostFunction)
  | global
  | globalProperty (name : String)
  | register (name : String)
  deriving Inhabited

structure Names where
  global : Ref
  registers : Std.TreeMap String Ref := {}

namespace Term

open Dialogue ObjectRequest

def orUndefined : Option Ref → ObjectProgram Ref
  | some r => return r
  | none => request (make .undefined)

mutual

def program (names : Names) : Term → ObjectProgram Ref
  | undefined => request (make .undefined)
  | null => request (make .null)
  | boolean b => request (make (.boolean b))
  | integer i => request (make (.integer i))
  | number d => request (make (.number d))
  | text s => request (make (.text s))
  | array items => do request (make (.array (← programAll names items).toArray))
  | object className fields values => do
    let properties ← programAll names values
    let r ← request (make .object)
    match className with
    | some name => request (setClassName r name)
    | none => pure ()
    for (name, value) in fields.zip properties do
      request (setProperty r name value)
    return r
  | function method => request (make (.function (.method method)))
  | deferred init => request (make (.deferred init))
  | host f => request (make (.function (.host f)))
  | global => return names.global
  | globalProperty name => do orUndefined (← request (getProperty names.global name))
  | register name => orUndefined names.registers[name]?

def programAll (names : Names) : List Term → ObjectProgram (List Ref)
  | [] => return []
  | t :: rest => do
    let r ← program names t
    return r :: (← programAll names rest)

end

end Term

end ActionVm
