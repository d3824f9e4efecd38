import ActionVm.Config.Basic
import ActionVm.Document.Basic
import ActionVm.Graph.Lowering
import ActionVm.Graph.Threaded
import ActionVm.Native.Build

namespace ActionVm

/-- What a method was compiled to. Machine code runs as threaded code does. -/
inductive Backend where
  | threaded
  | native
  deriving DecidableEq, Repr

namespace Backend

def name : Backend → String
  | threaded => "threaded"
  | native => "native"

def ofMode : Mode → Backend
  | .off => threaded
  | .on | .auto => native

end Backend

structure Compiled where
  code : Threaded
  backend : Backend
  blockCount : Nat
  stepCount : Nat

namespace Compiled

/-- What a graph is compiled to. Only machine code needs anything of the system. -/
def ofGraph (s : Native.System) (mode : Mode) (g : Graph) : Except Native.EmitError Compiled := do
  match g.check, Threaded.ofGraph g with
  | .ok _, .ok code =>
    if Backend.ofMode mode = .native then
      let _ ← Native.build s g
    return {
      code
      backend := Backend.ofMode mode
      blockCount := g.blocks.length
      stepCount := g.stepCount }
  | .error e, _ | _, .error e => throw (.graph e)

def ofBody (s : Native.System) (mode : Mode) (body : Body) : Except Native.EmitError Compiled :=
  ofGraph s mode (Graph.ofCode body.code)

end Compiled

end ActionVm
