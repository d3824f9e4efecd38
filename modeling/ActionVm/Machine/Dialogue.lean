import ActionVm.Machine.Fault
import ActionVm.Object.Store

namespace ActionVm

/-- Code of the embedder. It asks for one thing after the other and goes on with the reply, until it is done or
gives up. -/
inductive Dialogue (Request : Type) (Reply : Request → Type) (α : Type) where
  | done (result : α)
  | fail (stop : Stop)
  | ask (request : Request) (next : Reply request → Dialogue Request Reply α)

namespace Dialogue

variable {Request : Type} {Reply : Request → Type}

def bind : Dialogue Request Reply α → (α → Dialogue Request Reply β) → Dialogue Request Reply β
  | done result, f => f result
  | fail stop, _ => fail stop
  | ask request next, f => ask request fun reply => (next reply).bind f

instance : Monad (Dialogue Request Reply) where
  pure := done
  bind := bind

def request (q : Request) : Dialogue Request Reply (Reply q) :=
  ask q done

def run [Monad m] [MonadExcept Stop m] (answer : (q : Request) → m (Reply q)) : Dialogue Request Reply α → m α
  | done result => pure result
  | fail stop => throw stop
  | ask q next => do (next (← answer q)).run answer

end Dialogue

inductive ObjectRequest where
  | look (r : Ref)
  | make (v : Value)
  | copy (r : Ref)
  | getProperty (r : Ref) (name : String)
  | setProperty (r : Ref) (name : String) (value : Ref)
  | removeProperty (r : Ref) (name : String)
  | setSlot (r : Ref) (id : UInt32) (value : Ref)
  | bindSlot (r : Ref) (id : UInt32) (name : String)
  | setGetter (r : Ref) (name : String) (f : Ref)
  | setSetter (r : Ref) (name : String) (f : Ref)
  | setClassName (r : Ref) (name : String)
  | setPrototype (r prototype : Ref)
  | setItems (r : Ref) (items : Array Ref)
  | capture (f : Ref) (receiver : Option Ref)

namespace ObjectRequest

abbrev Reply : ObjectRequest → Type
  | look _ => Object
  | make _ | copy _ => Ref
  | getProperty .. => Option Ref
  | removeProperty .. => Bool
  | setProperty .. | setSlot .. | bindSlot .. | setGetter .. | setSetter .. | setClassName .. | setPrototype ..
  | setItems .. | capture .. => Unit

def run : (q : ObjectRequest) → StoreM q.Reply
  | look r => StoreM.object r
  | make v => StoreM.fresh v
  | copy r => StoreM.copy r
  | getProperty r name => StoreM.property? r name
  | setProperty r name value => StoreM.setProperty r name value
  | removeProperty r name => StoreM.removeProperty r name
  | setSlot r id value => StoreM.setSlot r id value
  | bindSlot r id name => StoreM.update r (·.bindSlot id name)
  | setGetter r name f => StoreM.setGetter r name f
  | setSetter r name f => StoreM.setSetter r name f
  | setClassName r name => StoreM.setClassName r name
  | setPrototype r prototype => StoreM.setPrototype r prototype
  | setItems r items => StoreM.update r fun o => { o with value := o.value.withItems items }
  | capture f receiver => StoreM.update f fun o => { o with value := o.value.withReceiver receiver }

end ObjectRequest

abbrev ObjectProgram := Dialogue ObjectRequest ObjectRequest.Reply

end ActionVm
