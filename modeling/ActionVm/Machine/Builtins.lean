import ActionVm.Machine.Run

namespace ActionVm

/-- Display, event and text classes, which a host may replace. -/
def hostClassNames : List String := [
  "flash.display.MovieClip",
  "flash.display.DisplayObject",
  "flash.display.DisplayObjectContainer",
  "flash.display.InteractiveObject",
  "flash.display.SimpleButton",
  "flash.display.Sprite",
  "flash.text.TextField",
  "flash.text.TextFormat",
  "flash.text.TextFieldType",
  "flash.xml.XMLDocument",
  "flash.utils.Timer",
  "flash.utils.Dictionary",
  "flash.utils.Proxy",
  "flash.geom.Rectangle",
  "flash.events.EventDispatcher",
  "flash.events.Event",
  "flash.events.MouseEvent",
  "flash.events.ProgressEvent",
  "flash.net.LocalConnection"]

namespace MachineM

def builtin (f : Builtin) : MachineM Ref :=
  fresh (.function (.builtin f))

/-- A class whose call converts its argument. -/
def conversion (v : Value) (f : Builtin) : MachineM Ref := do
  let r ← fresh v
  setProperty r "call" (← builtin f)
  return r

def pi : Double := ⟨0x400921fb54442d18⟩

def math : MachineM Ref := do
  let r ← onStore (StoreM.alloc { className := "Math" })
  setProperty r "PI" (← fresh (.number pi))
  setProperty r "sqrt" (← builtin .sqrt)
  setProperty r "atan2" (← builtin .atan2)
  setProperty r "floor" (← builtin .floor)
  return r

def registerBuiltins : MachineM Unit := do
  registerClass "Object" (← fresh .object)
  registerClass "int" (← conversion .object .toInt)
  registerClass "Boolean" (← conversion .object .toBoolean)
  registerClass "Number" (← conversion .object .toNumber)
  registerClass "String" (← conversion (.text "") .toText)
  registerClass "Array" (← fresh (.array #[]))
  registerClass "undefined" (← fresh .undefined)
  if (← get).config.hostClasses then
    for name in hostClassNames do
      registerClass name (← onStore (StoreM.alloc { className := name }))
  let global := (← get).global
  setProperty global "Math" (← math)
  setProperty global "trace" (← builtin .trace)
  setProperty global "parseInt" (← builtin .parseInt)

end MachineM

namespace Machine

/-- A machine before anything was registered on it. -/
def bare (document : Document) (config : Config) (embedding : Embedding := {}) : Machine :=
  let (global, store) := Store.alloc {} { className := "Global" }
  { document, config, embedding, store, global
    classes := document.classIndex.foldl (fun m name i => m.insert name (.defined i)) {} }

def create (document : Document) (config : Config) (embedding : Embedding := {}) : Machine :=
  match MachineM.registerBuiltins (bare document config embedding) with
  | .ok _ m => m
  | .error _ m => m

end Machine

end ActionVm
