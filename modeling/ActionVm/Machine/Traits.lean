import ActionVm.Machine.Call

namespace ActionVm.MachineM

/-- What a declaration reads as before its script has run. -/
def placeholder (init : Option UInt32) : MachineM Ref :=
  match init with
  | some init => fresh (.deferred init)
  | none => fresh .undefined

/-- A function for a method, which is compiled at once. -/
def methodValue (method : UInt32) : MachineM Ref := do
  let _ ← compile method
  fresh (.function (.method method))

def bindSlot (r : Ref) (id : UInt32) (name : String) : MachineM Unit :=
  onStore (StoreM.update r (·.bindSlot id name))

def setProperty (r : Ref) (name : String) (value : Ref) : MachineM Unit :=
  onStore (StoreM.setProperty r name value)

def constant (p : Pool) (index : UInt32) : ConstantKind → Value
  | .utf8 => .text (p.string index)
  | .int => .integer ((p.integer? index).getD 0)
  | .uint => .ofInt ((p.uinteger? index).getD 0).toNat
  | .double => .number ((p.double? index).getD .nan)
  | .falseValue => .boolean false
  | .trueValue => .boolean true
  | .null => .null
  | .undefined => .undefined

/-- A slot without an initial value leaves a property that is there. -/
def buildSlot (r : Ref) (name : String) (s : SlotTrait) (init : Option UInt32) :
    MachineM Unit := do
  if s.vindex = 0 then
    unless ((← get).store.get r).hasProperty name do
      setProperty r name (← placeholder init)
    bindSlot r s.slotId name
  else
    match ConstantKind.ofByte? s.vkind with
    | some kind =>
      setProperty r name (← fresh (constant (← get).document.pool s.vindex kind))
      bindSlot r s.slotId name
    | none => setProperty r name (← fresh .undefined)

/-- Applies one trait. `init` is the script that defines what the trait only declares. -/
def buildTrait (r : Ref) (init : Option UInt32) (t : Trait) : MachineM Unit := do
  let name := (← get).document.pool.nameText t.name
  match t.kind with
  | .classDef slotId _ =>
    setProperty r name (← placeholder init)
    bindSlot r slotId name
  | .method m => setProperty r name (← methodValue m.method)
  | .getter m => onStore (StoreM.setGetter r name (← methodValue m.method))
  | .setter m => onStore (StoreM.setSetter r name (← methodValue m.method))
  | .function slotId method =>
    setProperty r name (← methodValue method)
    bindSlot r slotId name
  | .constant s =>
    if s.vindex = 0 then
      setProperty r name (← placeholder init)
      bindSlot r s.slotId name
    else buildSlot r name s init
  | .slot s => buildSlot r name s init

def buildTraits (r : Ref) (traits : List Trait) (init : Option UInt32) : MachineM Unit :=
  traits.forM (buildTrait r init)

/-- An instance of a named class, with `base` as the object to build it on. A builtin class gives a
copy of its binding; any other defines its binding first and runs the instance initialiser. -/
def buildNamed (invoke : Invoke) (name : String) (base : Ref) (args : List Ref) :
    MachineM Ref := do
  let m ← get
  match m.classes[name]? with
  | none => fresh .object
  | some .builtin =>
    match ← onStore (StoreM.property? m.global name) with
    | some binding => onStore (StoreM.copy binding)
    | none => fresh .object
  | some (.defined index) =>
    onStore (StoreM.setClassName base name)
    match ← onStore (StoreM.property? m.global name) with
    | none => return base
    | some binding =>
      let resolved ← holding (base :: args) (resolve invoke m.global name binding)
      onStore (StoreM.setPrototype base resolved)
      match m.document.instances[index]? with
      | none => return base
      | some inst =>
        let _ ← compile inst.init
        buildTraits base inst.traits none
        let _ ← holding (base :: resolved :: args) (invoke (.method inst.init) base args)
        return base

/-- A copy of `base` with a class's own traits, on which the class initialiser ran. -/
def newClass (invoke : Invoke) (base : Ref) (index : UInt32) : MachineM Ref := do
  let d := (← get).document
  let built ← onStore (StoreM.copy base)
  match d.classes[index.toNat]? with
  | none => return built
  | some info =>
    if let some inst := d.instances[index.toNat]? then
      onStore (StoreM.setClassName built (d.pool.nameText inst.name))
    let _ ← compile info.init
    buildTraits built info.traits none
    let _ ← holding [base, built] (invoke (.method info.init) built [])
    return built

end ActionVm.MachineM
