import ActionVm.Machine.Basic
import ActionVm.Number.Leading
import ActionVm.Object.Coercion

namespace ActionVm

/-- What is run with a receiver and arguments: the code of a function, or a class that is to be built on the
receiver. -/
inductive Callee where
  | code (c : Callable)
  | construction (name : String)
  deriving DecidableEq, Repr

abbrev Callee.method (index : UInt32) : Callee :=
  code (.method index)

/-- Runs a callee. The receiver is handed over, so that it lives only as long as the callee keeps it; the caller
holds the arguments until the callee returns. -/
abbrev Invoke := Callee → Ref → List Ref → MachineM Ref

namespace MachineM

def firstOf (args : List Ref) : MachineM Ref :=
  match args with
  | r :: _ => return r
  | [] => fresh .undefined

/-- The text of the first argument and a radix of 0 or none. -/
def parseInt (args : List Ref) : MachineM Value := do
  let text ← textOf (← firstOf args)
  let radix ← match args[1]? with
    | some r => pure (some (← value r).toInt.toInt)
    | none => pure none
  match Leading.integer? text (radix.filter (· ≠ 0)) with
  | some n => return Value.ofInt n.toInt
  | none => return .number .nan

def callBuiltin (f : Builtin) (args : List Ref) : MachineM Ref := do
  match f with
  | .toInt => fresh (.integer (← value (← firstOf args)).toInt)
  | .toBoolean => fresh (.boolean (← value (← firstOf args)).toBoolean)
  | .toNumber => fresh (.number (← value (← firstOf args)).toNumber)
  | .toText => fresh (.text (← textOf (← firstOf args)))
  | .sqrt => fresh (.number (← value (← firstOf args)).toNumber.sqrt)
  | .floor => fresh (.number (← value (← firstOf args)).toNumber.floor)
  | .atan2 =>
    let y := (← value (← firstOf args)).toNumber
    let x ← match args[1]? with
      | some r => pure (← value r).toNumber
      | none => pure Double.nan
    fresh (.number (Double.atan2 y x))
  | .trace =>
    let texts ← args.mapM textOf
    write (" ".intercalate texts)
    fresh .undefined
  | .parseInt => fresh (← parseInt args)

/-- Calling what is no function gives undefined. -/
def callFunction (invoke : Invoke) (f this : Ref) (args : List Ref) : MachineM Ref := do
  match ← value f with
  | .function callable receiver => invoke (.code callable) (receiver.getD this) args
  | _ => fresh .undefined

/-- Runs a script's initialiser on the global object, unless it was started before. -/
def define (invoke : Invoke) (init : UInt32) : MachineM Unit := do
  if ← start init then
    note (.began init)
    let _ ← invoke (.method init) (← get).global []
    note (.ended init)

/-- What a property is defined as by now, or undefined. -/
def definedValue (holder : Ref) (name : String) : MachineM Ref := do
  match ← onStore (StoreM.property? holder name) with
  | some r => if (← value r).deferred?.isSome then fresh .undefined else return r
  | none => fresh .undefined

/-- A deferred value that was read from a property is defined and the property read again. -/
def resolve (invoke : Invoke) (holder : Ref) (name : String) (r : Ref) : MachineM Ref := do
  match (← value r).deferred? with
  | none => return r
  | some init =>
    holding [holder, r] (define invoke init)
    definedValue holder name

end MachineM

end ActionVm
