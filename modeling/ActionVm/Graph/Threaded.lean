import ActionVm.Graph.Basic

namespace ActionVm

structure ThreadedBlock where
  steps : List Step
  exit : Exit
  deriving DecidableEq, Repr

/-- The blocks of a graph in order, with exits that point at places instead of offsets. The first block is
the entry. -/
structure Threaded where
  blocks : Array ThreadedBlock
  deriving DecidableEq, Repr

namespace Threaded

def block (places : Std.HashMap Nat Nat) (b : Block) : Except GraphError ThreadedBlock :=
  match b.exit with
  | none => throw (.missingTerminator b.offset)
  | some exit => do
    let exit ← exit.resolve (targetPlace places b.offset)
    return { steps := b.steps, exit }

def ofGraph (g : Graph) : Except GraphError Threaded := do
  let blocks ← g.blocks.mapM (block g.places)
  return { blocks := blocks.toArray }

end Threaded

end ActionVm
