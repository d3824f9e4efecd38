import ActionVm.Event.Worker
import ActionVm.Session.Term

namespace ActionVm

structure Placed where
  placedBy : UInt32
  name : String
  className : String
  typeName : String
  properties : List String
  deriving DecidableEq, Repr

def Host.ofTerms (names : Names) (dictionary : Std.TreeMap UInt32 Term) : Host (List Placed) where
  state := []
  lookup tag record :=
    match dictionary[tag]? with
    | none => return (none, record)
    | some term => return (some (← term.program names), record)
  placed placedBy name inst record := do
    let o ← Dialogue.request (ObjectRequest.look inst)
    return record ++ [{
      placedBy
      name
      className := o.className
      typeName := o.value.typeName
      properties := o.propertyNames }]

namespace Session

/-- A function that gives its first argument, except by a name that stands for another one. -/
def functions (f : HostFunction) (this : Ref) (args : List Ref) : HostProgram Ref :=
  let make (v : Value) : HostProgram Ref := Dialogue.request (Request.object (.make v))
  match f.name with
  | "this" => return this
  | "argc" => make (.integer (Int32.ofNat args.length))
  | "args" => make (.array args.toArray)
  | "store" => do
    let kept ← make (.array args.toArray)
    Dialogue.request (Request.object (.setProperty this "stored" kept))
    make .undefined
  | _ => (args.head?.map pure).getD (make .undefined)

def embedding : Embedding where
  functions := functions

end Session

def Worker.takeReport (w : Worker (List Placed)) : (String × List Placed) × Worker (List Placed) :=
  ((w.machine.output, w.host.state),
    { w with machine := { w.machine with output := "" }, host := { w.host with state := [] } })

end ActionVm
