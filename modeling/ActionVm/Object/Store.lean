import ActionVm.Number.Bounds
import ActionVm.Number.Reading
import ActionVm.Object.Value
import Std.Data.TreeMap

namespace ActionVm

/-- A slot stands for a named property or holds an object of its own. -/
inductive Slot where
  | named (name : String)
  | held (value : Ref)
  deriving DecidableEq, Repr

/-- An object does not keep its prototype alive, and nothing here looks at the prototype. -/
structure Object where
  value : Value := .object
  properties : Std.TreeMap String Ref := {}
  slots : Std.TreeMap UInt32 Slot := {}
  getters : Std.TreeMap String Ref := {}
  setters : Std.TreeMap String Ref := {}
  prototype : Option Ref := none
  className : String := ""

/-- A property is stored, or is a length that is computed when it is read. -/
inductive Property where
  | stored (value : Ref)
  | length (n : Nat)
  deriving DecidableEq, Repr

namespace Object

/-- The length and items of arrays, and the length of texts. -/
def intrinsic? (o : Object) (name : String) : Option Property :=
  match o.value with
  | .array items =>
    if name = "length" then some (.length items.size)
    else (arrayIndex? name).bind fun i => items[i]?.map .stored
  | .text s => if name = "length" then some (.length s.length) else none
  | _ => none

/-- Stored properties go before the intrinsic ones. -/
def property? (o : Object) (name : String) : Option Property :=
  match o.properties[name]? with
  | some value => some (.stored value)
  | none => o.intrinsic? name

def hasProperty (o : Object) (name : String) : Bool :=
  (o.property? name).isSome

/-- A property or a getter of that name. -/
def owns (o : Object) (name : String) : Bool :=
  o.hasProperty name || o.getters.contains name

/-- The names of stored properties in ascending order. -/
def propertyNames (o : Object) : List String :=
  o.properties.keys

def slot? (o : Object) (id : UInt32) : Option Slot :=
  if id = 0 then none else o.slots[id]?

/-- Makes a slot stand for a named property. There is no slot 0. -/
def bindSlot (o : Object) (id : UInt32) (name : String) : Object :=
  if id = 0 then o else { o with slots := o.slots.insert id (.named name) }

/-- Sets item `i` of an array whose items are followed by `filling`. -/
def putItem (filling : List Ref) (i : Nat) (item : Ref) : Object → Object
  | ⟨.array items, properties, slots, getters, setters, prototype, className⟩ =>
    ⟨.array ((items ++ filling).setIfInBounds i item), properties, slots, getters, setters, prototype,
      className⟩
  | o => o

end Object

structure Store where
  objects : Array Object := #[]

namespace Store

/-- What was never allocated is undefined. -/
def get (s : Store) (r : Ref) : Object :=
  s.objects.getD r.index { value := .undefined }

def value (s : Store) (r : Ref) : Value :=
  (s.get r).value

def alloc (s : Store) (o : Object) : Ref × Store :=
  (⟨s.objects.size⟩, { s with objects := s.objects.push o })

def allocUndefined (s : Store) (n : Nat) : List Ref × Store :=
  ((List.range' s.objects.size n).map Ref.mk,
    { s with objects := s.objects ++ Array.replicate n { value := .undefined } })

def update (s : Store) (r : Ref) (f : Object → Object) : Store :=
  { s with objects := s.objects.modify r.index f }

end Store

abbrev StoreM := EStateM BoundsError Store

namespace StoreM

def object (r : Ref) : StoreM Object :=
  return (← get).get r

def value (r : Ref) : StoreM Value :=
  return (← get).value r

def alloc (o : Object) : StoreM Ref :=
  modifyGet (·.alloc o)

def fresh (v : Value) : StoreM Ref :=
  alloc { value := v }

def update (r : Ref) (f : Object → Object) : StoreM Unit :=
  modify (·.update r f)

/-- The object that a property reads as. A length is a new object every time. -/
def read : Property → StoreM Ref
  | .stored value => return value
  | .length n => fresh (.integer (Int32.ofNat n))

def property? (r : Ref) (name : String) : StoreM (Option Ref) := do
  match (← object r).property? name with
  | some p => return some (← read p)
  | none => return none

def freshUndefined (n : Nat) : StoreM (List Ref) :=
  modifyGet (·.allocUndefined n)

/-- The length that an array of references must have for item `i`. -/
def lengthFor (i : Nat) : Except BoundsError Nat := do
  Bounds.capacity 8 (← Bounds.add UInt64.size i 1)

/-- On an array, a name that denotes an index sets that item; the items in between become undefined. -/
def setProperty (r : Ref) (name : String) (value : Ref) : StoreM Unit := do
  match (← object r).value, arrayIndex? name with
  | .array items, some i =>
    let length ← MonadExcept.ofExcept (lengthFor i)
    let filling ← freshUndefined (length - items.size)
    update r (·.putItem filling i value)
  | _, _ => update r fun o => { o with properties := o.properties.insert name value }

def removeProperty (r : Ref) (name : String) : StoreM Bool := do
  let found := (← object r).properties.contains name
  update r fun o => { o with properties := o.properties.erase name }
  return found

def slot? (r : Ref) (id : UInt32) : StoreM (Option Ref) := do
  match (← object r).slot? id with
  | none => return none
  | some (.named name) => property? r name
  | some (.held value) => return some value

/-- A slot that stands for a property sets it. There is no slot 0. -/
def setSlot (r : Ref) (id : UInt32) (value : Ref) : StoreM Unit := do
  match (← object r).slot? id with
  | some (.named name) => setProperty r name value
  | _ =>
    if id = 0 then return
    update r fun o => { o with slots := o.slots.insert id (.held value) }

def setGetter (r : Ref) (name : String) (f : Ref) : StoreM Unit :=
  update r fun o => { o with getters := o.getters.insert name f }

def setSetter (r : Ref) (name : String) (f : Ref) : StoreM Unit :=
  update r fun o => { o with setters := o.setters.insert name f }

def setClassName (r : Ref) (name : String) : StoreM Unit :=
  update r ({ · with className := name })

def setPrototype (r prototype : Ref) : StoreM Unit :=
  update r ({ · with prototype := some prototype })

/-- A new object that is equal in all its parts and shares what they refer to. -/
def copy (r : Ref) : StoreM Ref := do
  alloc (← object r)

end StoreM

end ActionVm
