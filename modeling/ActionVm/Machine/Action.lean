import ActionVm.Graph.Basic
import ActionVm.Machine.Traits
import ActionVm.Object.Arithmetic

namespace ActionVm.FrameM

def combine (f : Value → Value → Value) : FrameM Unit := do
  let (left, right) ← popPair
  pushFresh (f (← value left) (← value right))

def findScope? (name : String) : FrameM (Option Ref) := do
  let store := (← get).machine.store
  return (← frame).scopes.find? fun r => (store.get r).owns name

def swap : FrameM Unit := do
  let top ← pop
  let below ← pop
  push top
  push below

def incLocal (index : UInt32) : FrameM Unit := do
  if let .integer i ← value (← getLocal index) then
    setLocal index (← fresh (.integer (i + 1)))

def getProperty (invoke : Invoke) (index : UInt32) : FrameM Unit := do
  let name ← nameText index
  let obj ← pop
  match ((← get).machine.store.get obj).getters[name]? with
  | some getter =>
    push (← callOut [getter, obj] (MachineM.callFunction invoke getter obj []))
  | none =>
    match ← onStore (StoreM.property? obj name) with
    | some r => push (← callOut [obj] (MachineM.resolve invoke obj name r))
    | none => pushFresh .undefined

def setProperty (invoke : Invoke) (index : UInt32) : FrameM Unit := do
  let new ← pop
  let name ← nameText index
  let obj ← pop
  match ((← get).machine.store.get obj).setters[name]? with
  | some setter =>
    let _ ← callOut [setter, obj, new] (MachineM.callFunction invoke setter obj [new])
  | none => onStore (StoreM.setProperty obj name new)

def initProperty (index : UInt32) : FrameM Unit := do
  let new ← pop
  let name ← nameText index
  let obj ← pop
  onStore (StoreM.setProperty obj name new)

def deleteProperty (index : UInt32) : FrameM Unit := do
  let name ← nameText index
  let obj ← pop
  pushFresh (.boolean (← onStore (StoreM.removeProperty obj name)))

def getSlot (id : UInt32) : FrameM Unit := do
  let obj ← pop
  match ← onStore (StoreM.slot? obj id) with
  | some r => push r
  | none => pushFresh .undefined

def setSlot (id : UInt32) : FrameM Unit := do
  let new ← pop
  let obj ← pop
  onStore (StoreM.setSlot obj id new)

/-- Pushes the scope that owns the name, or else the global object. -/
def findProperty (index : UInt32) : FrameM Unit := do
  let name ← nameText index
  match ← findScope? name with
  | some scope => push scope
  | none => push (← global)

/-- Pushes undefined also when the global object does not own the name. -/
def findPropStrict (index : UInt32) : FrameM Unit := do
  let name ← nameText index
  match ← findScope? name with
  | some scope => push scope
  | none =>
    let g ← global
    if ((← get).machine.store.get g).owns name then push g else pushFresh .undefined

/-- A function that is found keeps a receiver for all its later calls. -/
def capture (f receiver : Ref) : StoreM Unit := do
  if let .function callable _ ← StoreM.value f then
    StoreM.update f ({ · with value := .function callable (some receiver) })

/-- Reads a name from the scopes, where functions capture the receiver, or else globally. -/
def getLex (invoke : Invoke) (index : UInt32) : FrameM Unit := do
  let name ← nameText index
  match ← findScope? name with
  | some scope =>
    let r ← match ← onStore (StoreM.property? scope name) with
      | some r => pure r
      | none => fresh .undefined
    onStore (capture r (← receiver))
    push (← callOut [scope] (MachineM.resolve invoke scope name r))
  | none =>
    let g ← global
    match ← onStore (StoreM.property? g name) with
    | some r => push (← callOut [g] (MachineM.resolve invoke g name r))
    | none => pushFresh .undefined

/-- A function that is about to be called, and what must stay alive meanwhile. -/
structure Target where
  f : Ref
  this : Ref
  refs : List Ref

def callTarget (invoke : Invoke) (args : List Ref) : Option Target → FrameM Ref
  | none => fresh .undefined
  | some t => callOut t.refs (MachineM.callFunction invoke t.f t.this args)

def callFound (invoke : Invoke) (argc : UInt32) (find : List Ref → FrameM (Option Target)) : FrameM Ref := do
  let args ← popN argc.toNat
  callTarget invoke args (← find args)

/-- A property to call. One that is no function is called through its own property `call`. -/
def findNamed (index : UInt32) (args : List Ref) : FrameM (Option Target) := do
  let name ← nameText index
  let obj ← pop
  match ← onStore (StoreM.property? obj name) with
  | none => return none
  | some callee =>
    let refs := obj :: callee :: args
    match ← value callee with
    | .function .. => return some { f := callee, this := obj, refs }
    | .undefined | .deferred _ => return none
    | _ =>
      match ← onStore (StoreM.property? callee "call") with
      | some f => return some { f, this := callee, refs := f :: refs }
      | none => return none

/-- A method to call that the receiver's prototype holds, if the prototype is still alive. -/
def findSuper (index : UInt32) (args : List Ref) : FrameM (Option Target) := do
  let name ← nameText index
  let obj ← pop
  let a ← get
  let roots := a.machine.global :: obj :: args ++ a.frame.references ++ a.machine.held
  match a.machine.store.prototype? roots obj with
  | none => return none
  | some prototype =>
    match ← onStore (StoreM.property? prototype name) with
    | none => return none
    | some f =>
      if (← value f).isFunction then return some { f, this := obj, refs := f :: obj :: args } else return none

/-- A value to call, below its receiver. -/
def findValue (args : List Ref) : FrameM (Option Target) := do
  let this ← pop
  let f ← pop
  return some { f, this, refs := f :: this :: args }

/-- A function is called on a new object; anything else is copied. -/
def instantiate (invoke : Invoke) (f : Ref) (args : List Ref) : FrameM Ref := do
  if (← value f).isFunction then
    let built ← fresh .object
    let _ ← callOut (f :: built :: args) (MachineM.callFunction invoke f built args)
    return built
  else onStore (StoreM.copy f)

def construct (invoke : Invoke) (argc : UInt32) : FrameM Unit := do
  let args ← popN argc.toNat
  let f ← pop
  push (← instantiate invoke f args)

/-- An instance of the class that a property's name stands for, once the property is defined. -/
def instantiateNamed (invoke : Invoke) (obj : Ref) (name : String) (args : List Ref) : FrameM Ref := do
  match ← onStore (StoreM.property? obj name) with
  | none => fresh .undefined
  | some r =>
    let _ ← callOut (obj :: args) (MachineM.resolve invoke obj name r)
    let base ← fresh .object
    callOut (obj :: args) (invoke (.construction name) base args)

def constructProp (invoke : Invoke) (index argc : UInt32) : FrameM Unit := do
  let args ← popN argc.toNat
  let name ← nameText index
  let obj ← pop
  push (← instantiateNamed invoke obj name args)

def setPairs (obj : Ref) : Nat → FrameM Unit
  | 0 => return
  | n + 1 => do
    let new ← pop
    let name ← textOf (← pop)
    onStore (StoreM.setProperty obj name new)
    setPairs obj n

def newObject (count : UInt32) : FrameM Unit := do
  let obj ← fresh .object
  setPairs obj count.toNat
  push obj

def newActivation : FrameM Unit := do
  let built ← fresh .object
  if let some body := (← get).machine.document.body? (← frame).method then
    callOut [built] (MachineM.buildTraits built body.traits none)
  push built

def newClass (invoke : Invoke) (index : UInt32) : FrameM Unit := do
  let base ← pop
  push (← callOut [base] (MachineM.newClass invoke base index))

/-- Steps to the object's next name, or resets both locals behind the last one. -/
def hasNext (objLocal indexLocal : UInt32) : FrameM Unit := do
  let obj ← getLocal objLocal
  let current := (← value (← getLocal indexLocal)).toInt
  let count := ((← get).machine.store.get obj).properties.size
  if 0 ≤ current.toInt ∧ current.toInt < count then
    setLocal indexLocal (← fresh (.integer (current + 1)))
    pushFresh (.boolean true)
  else
    setLocal objLocal (← fresh .null)
    setLocal indexLocal (← fresh (.integer 0))
    pushFresh (.boolean false)

/-- The name at a position that counts from 1. -/
def nextName : FrameM Unit := do
  let (obj, index) ← popPair
  let position := (← value index).toInt.toInt
  let names := ((← get).machine.store.get obj).propertyNames
  match if 1 ≤ position then names[position.toNat - 1]? else none with
  | some name => pushFresh (.text name)
  | none => pushFresh .undefined

def setResult (r : Ref) : FrameM Unit :=
  modifyFrame fun f => { f with result := some r }

/-- The sum, or undefined where there is none. -/
def sum (a b : Value) : Value :=
  match a.add b with
  | .ok v => v
  | .error _ => .undefined

def act (invoke : Invoke) (s : Step) : FrameM Unit := do
  match s.action with
  | .getLocal => push (← getLocal s.a)
  | .setLocal => setLocal s.a (← pop)
  | .copyLocal => setLocal s.b (← getLocal s.a)
  | .kill => setLocal s.a (← fresh .undefined)
  | .pop =>
    let _ ← pop
  | .dup => push (← peek)
  | .swap => swap
  | .pushNull => pushFresh .null
  | .pushUndefined => pushFresh .undefined
  | .pushTrue => pushFresh (.boolean true)
  | .pushFalse => pushFresh (.boolean false)
  | .pushNaN => pushFresh (.number .nan)
  | .pushByte => pushFresh (.integer (Int32.ofInt s.a.toUInt8.toInt8.toInt))
  | .pushShort => pushFresh (.integer (Int32.ofInt s.a.toUInt16.toInt16.toInt))
  | .pushString => pushFresh (.text ((← pool).string s.a))
  | .pushInt => pushFresh (.integer (((← pool).integer? s.a).getD 0))
  | .pushUint => pushFresh (.ofInt (((← pool).uinteger? s.a).getD 0).toNat)
  | .pushDouble => pushFresh (.number (((← pool).double? s.a).getD .nan))
  | .pushScope =>
    let r ← pop
    modifyFrame fun f => { f with scopes := r :: f.scopes }
  | .popScope => modifyFrame fun f => { f with scopes := f.scopes.drop 1 }
  | .getGlobalScope => push ((← frame).scopes.getLast?.getD (← global))
  | .getScopeObject =>
    match (← frame).scopes.reverse[s.a.toNat]? with
    | some r => push r
    | none => pushFresh .undefined
  | .add => combine sum
  | .subtract => combine Value.subtract
  | .multiply => combine Value.multiply
  | .divide => combine Value.divide
  | .incLocalI => incLocal s.a
  | .lessThan => combine fun a b => .boolean (a.less? b = some true)
  | .greaterThan => combine fun a b => .boolean (b.less? a = some true)
  | .unaryStub => return
  | .binaryStub | .nextValue => combine fun _ _ => .undefined
  | .throw =>
    let _ ← pop
  | .newCatch => pushFresh .object
  | .constructSuper =>
    let _ ← popN s.a.toNat
    let _ ← pop
  | .setSuper => initProperty s.a
  | .trap => fail (.notImplemented s.a)
  | .getProperty => getProperty invoke s.a
  | .setProperty => setProperty invoke s.a
  | .initProperty => initProperty s.a
  | .deleteProperty => deleteProperty s.a
  | .getSlot => getSlot s.a
  | .setSlot => setSlot s.a
  | .findProperty => findProperty s.a
  | .findPropStrict => findPropStrict s.a
  | .getLex => getLex invoke s.a
  | .callProperty => push (← callFound invoke s.b (findNamed s.a))
  | .callPropVoid =>
    let _ ← callFound invoke s.b (findNamed s.a)
  | .callSuper => push (← callFound invoke s.b (findSuper s.a))
  | .callSuperVoid =>
    let _ ← callFound invoke s.b (findSuper s.a)
  | .call => push (← callFound invoke s.a findValue)
  | .construct => construct invoke s.a
  | .constructProp => constructProp invoke s.a s.b
  | .newFunction => pushFresh (.function (.method s.a))
  | .newObject => newObject s.a
  | .newArray => do pushFresh (.array (← popN s.a.toNat).toArray)
  | .newActivation => newActivation
  | .newClass => newClass invoke s.a
  | .hasNext2 => hasNext s.a s.b
  | .nextName => nextName
  | .returnValue => setResult (← pop)
  | .returnLocal => setResult (← getLocal s.a)

/-- Tests the two top operands. The test is also told whether they are one object. -/
def compare (f : Bool → Value → Value → Bool) : FrameM Bool := do
  let (left, right) ← popPair
  return f (left = right) (← value left) (← value right)

/-- Consumes the operands of a condition. A comparison that is undefined counts as failed. -/
def test : Condition → FrameM Bool
  | .isTrue => return (← value (← pop)).toBoolean
  | .isFalse => return !(← value (← pop)).toBoolean
  | .eq => compare Value.looseEqual
  | .ne => compare fun same a b => !Value.looseEqual same a b
  | .strictEq => compare Value.strictEqual
  | .strictNe => compare fun same a b => !Value.strictEqual same a b
  | .lt => compare fun _ a b => a.less? b = some true
  | .le => compare fun _ a b => b.less? a = some false
  | .gt => compare fun _ a b => b.less? a = some true
  | .ge => compare fun _ a b => a.less? b = some false
  | .nlt => compare fun _ a b => a.less? b ≠ some true
  | .nle => compare fun _ a b => b.less? a ≠ some false
  | .ngt => compare fun _ a b => b.less? a ≠ some true
  | .nge => compare fun _ a b => a.less? b ≠ some false

/-- The case that the top operand selects; `last` is the last one, and a number behind it means none. -/
def select (last : UInt32) : FrameM UInt32 := do
  let i := (← value (← pop)).toInt.toInt
  if 0 ≤ i ∧ i ≤ last.toNat then return UInt32.ofNat i.toNat
  return UInt32.ofNat (← Stop.within (Bounds.add UInt32.size last.toNat 1))

end ActionVm.FrameM
