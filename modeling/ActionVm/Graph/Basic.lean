import ActionVm.Graph.Action
import Std.Data.HashMap
import Std.Data.HashSet

namespace ActionVm

structure Step where
  action : Action
  a : UInt32 := 0
  b : UInt32 := 0
  deriving DecidableEq, Repr

/-- How a block ends. A switch takes the case that its selector counts to, else the default. -/
inductive Exit where
  | jump (target : Nat)
  | branch (condition : Condition) (taken fallthrough : Nat)
  | switch (cases : List Nat) (default : Nat)
  | ret
  deriving DecidableEq, Repr

namespace Exit

def targets : Exit → List Nat
  | jump target => [target]
  | branch _ taken fallthrough => [taken, fallthrough]
  | switch cases default => cases ++ [default]
  | ret => []

def resolve (f : Nat → Except ε Nat) : Exit → Except ε Exit
  | jump target => do
    return jump (← f target)
  | branch condition taken fallthrough => do
    let taken ← f taken
    let fallthrough ← f fallthrough
    return branch condition taken fallthrough
  | switch cases default => do
    let cases ← cases.mapM f
    let default ← f default
    return switch cases default
  | ret => return ret

end Exit

structure Block where
  offset : Nat
  steps : List Step := []
  exit : Option Exit := none
  deriving DecidableEq, Repr

namespace Block

/-- Puts a block in its place unless there is one of the same offset. -/
def insert (b : Block) : List Block → List Block
  | [] => [b]
  | c :: rest =>
    if b.offset < c.offset then b :: c :: rest
    else if b.offset = c.offset then c :: rest
    else c :: insert b rest

theorem mem_insert {b c : Block} {bs : List Block} (h : c ∈ insert b bs) : c = b ∨ c ∈ bs := by
  induction bs with
  | nil => simpa [insert] using h
  | cons d rest ih =>
    unfold insert at h
    split at h
    · simpa using h
    · split at h
      · exact .inr h
      · rcases List.mem_cons.mp h with h | h
        · exact .inr (h ▸ List.mem_cons_self)
        · exact (ih h).imp_right (List.mem_cons_of_mem _)

theorem pairwise_insert {b : Block} {bs : List Block}
    (h : bs.Pairwise (·.offset < ·.offset)) : (insert b bs).Pairwise (·.offset < ·.offset) := by
  induction bs with
  | nil => simp [insert]
  | cons d rest ih =>
    obtain ⟨hd, hrest⟩ := List.pairwise_cons.mp h
    unfold insert
    split
    · rename_i hb
      refine List.pairwise_cons.mpr ⟨fun c hc => ?_, h⟩
      rcases List.mem_cons.mp hc with rfl | hc
      · exact hb
      · exact Nat.lt_trans hb (hd c hc)
    · split
      · exact h
      · rename_i hb hne
        refine List.pairwise_cons.mpr ⟨fun c hc => ?_, ih hrest⟩
        rcases mem_insert hc with rfl | hc
        · omega
        · exact hd c hc

end Block

structure Graph where
  blocks : List Block
  ascending : blocks.Pairwise (·.offset < ·.offset)

inductive GraphError where
  | missingTerminator (offset : Nat)
  | unknownBlock (source target : Nat)
  deriving DecidableEq, Repr

namespace GraphError

def message : GraphError → String
  | missingTerminator offset => s!"block at offset {offset} has no terminator"
  | unknownBlock source target => s!"block at offset {source} exits to unknown block {target}"

end GraphError

namespace Graph

def empty : Graph :=
  ⟨[], .nil⟩

def insert (g : Graph) (b : Block) : Graph :=
  ⟨b.insert g.blocks, Block.pairwise_insert g.ascending⟩

/-- The graph of some blocks; a later block replaces an earlier one of the same offset. -/
def ofBlocks (bs : List Block) : Graph :=
  bs.foldr (fun b g => g.insert b) empty

def offsets (g : Graph) : List Nat :=
  g.blocks.map Block.offset

def places (g : Graph) : Std.HashMap Nat Nat :=
  .ofList g.offsets.zipIdx

def stepCount (g : Graph) : Nat :=
  (g.blocks.flatMap Block.steps).length

def check (g : Graph) : Except GraphError Unit :=
  let known := Std.HashSet.ofList g.offsets
  g.blocks.forM fun b =>
    match b.exit with
    | none => throw (.missingTerminator b.offset)
    | some exit =>
      match exit.targets.find? (!known.contains ·) with
      | some target => throw (.unknownBlock b.offset target)
      | none => pure ()

end Graph

def targetPlace (places : Std.HashMap Nat Nat) (source offset : Nat) : Except GraphError Nat :=
  match places[offset]? with
  | some i => .ok i
  | none => .error (.unknownBlock source offset)

end ActionVm
