import ActionVm.Machine.Run
import ActionVm.Proofs.Program
import ActionVm.Proofs.Simulation

namespace ActionVm

/-- A meaning of what compiled code calls. -/
structure Calls (m : Type → Type) where
  act : Step → m Unit
  test : Condition → m Bool
  select : UInt32 → m UInt32

def Exit.leave [Monad m] (calls : Calls m) : Exit → m (Option Nat)
  | .ret => return none
  | .jump target => return some target
  | .branch condition taken fallthrough => do
    return some (if ← calls.test condition then taken else fallthrough)
  | .switch cases default => do
    let i ← calls.select (UInt32.ofNat (cases.length - 1))
    return some (cases.getD i.toNat default)

def Calls.block [Monad m] (calls : Calls m) (steps : List Step) (exit : Exit) : m (Option Nat) := do
  steps.forM calls.act
  exit.leave calls

def FrameM.calls (invoke : Invoke) : Calls FrameM where
  act := act invoke
  test := test
  select := select

def Graph.block? (g : Graph) (offset : Nat) : Option Block :=
  g.blocks.find? (·.offset = offset)

/-- One block of a walk by offset. There is nothing to do without a block, or without an exit. -/
def Graph.turn (calls : Calls (EStateM ε σ)) (g : Graph) (offset : Nat) (s : σ) : Turn ε σ Nat :=
  match g.block? offset with
  | none => none
  | some b => b.exit.map fun exit => calls.block b.steps exit s

/-- One block of threaded code. A place without a block ends the run. -/
def Threaded.turn (calls : Calls (EStateM ε σ)) (t : Threaded) (place : Nat) (s : σ) :
    Turn ε σ Nat :=
  match t.blocks[place]? with
  | none => some (.ok none s)
  | some b => some (calls.block b.steps b.exit s)

namespace FrameM

theorem leave_eq (invoke : Invoke) (exit : Exit) : leave exit = exit.leave (calls invoke) := by
  cases exit <;> rfl

theorem runFrom_succ (invoke : Invoke) (t : Threaded) (n place : Nat) (a : Activation) :
    runFrom invoke t (n + 1) place a =
      match t.turn (calls invoke) place a with
      | some (.ok (some next) b) => runFrom invoke t n next b
      | some (.ok none b) => .ok () b
      | some (.error e b) => .error e b
      | none => .ok () a := by
  simp only [runFrom, Threaded.turn]
  cases t.blocks[place]? with
  | none => rfl
  | some block =>
    simp only [Calls.block, leave_eq invoke]
    cases hs : block.steps.forM (act invoke) a with
    | error e b => rw [bind_of_error hs, bind_of_error (x := block.steps.forM (calls invoke).act) hs]
    | ok u b =>
      rw [bind_of_ok hs, bind_of_ok (x := block.steps.forM (calls invoke).act) hs]
      cases hl : block.exit.leave (calls invoke) b with
      | error e c => rw [bind_of_error hl]
      | ok next c =>
        rw [bind_of_ok hl]
        cases next <;> rfl

theorem runFrom_of_runs {invoke : Invoke} {t : Threaded}
    (h : Runs (t.turn (calls invoke)) place a r) :
    ∃ n, ∀ k ≥ n, runFrom invoke t k place a = r := by
  induction h with
  | done h =>
    refine ⟨1, fun k hk => ?_⟩
    obtain ⟨k, rfl⟩ := Nat.exists_eq_add_of_le' hk
    rw [runFrom_succ, h]
  | fail h =>
    refine ⟨1, fun k hk => ?_⟩
    obtain ⟨k, rfl⟩ := Nat.exists_eq_add_of_le' hk
    rw [runFrom_succ, h]
  | next h _ ih =>
    obtain ⟨n, hn⟩ := ih
    refine ⟨n + 1, fun k hk => ?_⟩
    obtain ⟨k, rfl⟩ := Nat.exists_eq_add_of_le' hk
    rw [← Nat.add_assoc, runFrom_succ, h]
    exact hn _ (by omega)

theorem runs_of_runFrom {invoke : Invoke} {t : Threaded} (h : runFrom invoke t n place a = r)
    (hr : ∀ b, r ≠ .error .outOfFuel b) : Runs (t.turn (calls invoke)) place a r := by
  induction n generalizing place a with
  | zero => exact (hr a h.symm).elim
  | succ n ih =>
    rw [runFrom_succ] at h
    cases hs : t.turn (calls invoke) place a with
    | none => cases hb : t.blocks[place]? <;> simp [Threaded.turn, hb] at hs
    | some turn =>
      rw [hs] at h
      match turn with
      | .ok (some next) b => exact .next hs (ih h)
      | .ok none b => subst h; exact .done hs
      | .error e b => subst h; exact .fail hs

end FrameM

end ActionVm
