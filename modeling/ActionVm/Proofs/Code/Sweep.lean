import ActionVm.Code.Instruction
import ActionVm.Proofs.Document.Consumption
import Mathlib.Algebra.Group.Nat.Defs

namespace ActionVm

section Reading

variable {holds : (α : Type) → Read α → Prop} (h : Read.PlainLaw holds)

include h

theorem Args.obeys (shape : Operands) : holds Args (Args.read shape) := by
  cases shape with
  | none => exact h.pure _
  | u8 => exact h.bind h.u8 fun _ => h.pure _
  | u30 => exact h.bind h.u30 fun _ => h.pure _
  | u30u30 => exact h.bind h.u30 fun _ => h.bind h.u30 fun _ => h.pure _
  | s24 => exact h.bind h.s24 fun _ => h.pure _
  | lookupSwitch =>
    exact h.bind h.s24 fun _ => h.bind h.u30 fun _ => h.bind (h.times h.s24 _) fun _ => h.pure _
  | debug =>
    exact h.bind h.u8 fun _ => h.bind h.u30 fun _ => h.bind h.u8 fun _ => h.bind h.u30 fun _ => h.pure _

theorem Instruction.obeys (offset : Nat) : holds Instruction (Instruction.read offset) := by
  apply h.bind h.u8
  intro byte
  apply h.bind (Args.obeys h _)
  intro args
  exact h.bind h.position fun _ => h.pure _

end Reading

theorem Args.switch_length (h : Args.read shape input = .ok (.switch fallback cases) after) :
    cases.length ≤ 2 ^ 32 := by
  cases shape with
  | none => cases h
  | u8 | u30 | s24 =>
    obtain ⟨_, _, -, h⟩ := bind_eq_ok.mp h
    cases h
  | u30u30 =>
    obtain ⟨_, _, -, h⟩ := bind_eq_ok.mp h
    obtain ⟨_, _, -, h⟩ := bind_eq_ok.mp h
    cases h
  | debug =>
    obtain ⟨_, _, -, h⟩ := bind_eq_ok.mp h
    obtain ⟨_, _, -, h⟩ := bind_eq_ok.mp h
    obtain ⟨_, _, -, h⟩ := bind_eq_ok.mp h
    obtain ⟨_, _, -, h⟩ := bind_eq_ok.mp h
    cases h
  | lookupSwitch =>
    obtain ⟨_, _, -, h⟩ := bind_eq_ok.mp h
    obtain ⟨count, _, -, h⟩ := bind_eq_ok.mp h
    obtain ⟨_, _, htimes, h⟩ := bind_eq_ok.mp h
    cases h
    rw [Read.length_of_times htimes]
    exact count.toNat_lt

namespace Instruction

/-- Instructions that follow one another from one offset up to another. -/
def Tile : Nat → List Instruction → Nat → Prop
  | start, [], stop => start = stop
  | start, i :: rest, stop => i.offset = start ∧ start < i.next ∧ Tile i.next rest stop

theorem read_eq_ok {bytes : Bytes} (h : read start { rest := bytes } = .ok i after) :
    i.offset = start ∧ start < i.next ∧
      ∀ fallback cases, i.args = .switch fallback cases → cases.length ≤ 2 ^ 32 := by
  obtain ⟨byte, first, hbyte, h⟩ := bind_eq_ok.mp h
  obtain ⟨args, second, hargs, h⟩ := bind_eq_ok.mp h
  obtain ⟨length, third, hlength, h⟩ := bind_eq_ok.mp h
  obtain ⟨-, hfirst⟩ := Read.u8_eq_ok.mp hbyte
  obtain ⟨taken, htaken⟩ := (Args.obeys Read.Consumes.law.toPlainLaw _).takes _ _ _ hargs
  have hp := htaken.position
  obtain ⟨rfl, rfl⟩ := pure_eq_ok.mp h
  cases hlength
  have hp : second.position = 0 + 1 + taken.length := by rw [hp, hfirst]
  refine ⟨rfl, ?_, ?_⟩
  · change start < start + second.position
    omega
  · rintro fallback cases rfl
    exact Args.switch_length hargs

theorem tile_sweepFrom (fuel start : Nat) (bytes : Bytes) : ∃ stop, Tile start (sweepFrom fuel start bytes) stop := by
  induction fuel generalizing start bytes with
  | zero => exact ⟨start, rfl⟩
  | succ fuel ih =>
    unfold sweepFrom
    split
    · rename_i i after h
      obtain ⟨ho, hn, -⟩ := read_eq_ok h
      obtain ⟨stop, hrest⟩ := ih i.next after.rest
      exact ⟨stop, ho, hn, hrest⟩
    · exact ⟨start, rfl⟩

theorem read_of_mem_sweepFrom (h : i ∈ sweepFrom fuel start bytes) :
    ∃ offset rest after, read offset { rest } = .ok i after := by
  induction fuel generalizing start bytes with
  | zero => cases h
  | succ fuel ih =>
    unfold sweepFrom at h
    split at h
    · rename_i hread
      rcases List.mem_cons.mp h with rfl | h
      · exact ⟨_, _, _, hread⟩
      · exact ih h
    · cases h

theorem switch_length_of_mem_sweepFrom (h : i ∈ sweepFrom fuel start bytes)
    (ha : i.args = .switch fallback cases) : cases.length ≤ 2 ^ 32 := by
  obtain ⟨_, _, _, hread⟩ := read_of_mem_sweepFrom h
  exact (read_eq_ok hread).2.2 _ _ ha

theorem tile_sweep (code : Bytes) : ∃ stop, Tile 0 (sweep code) stop :=
  tile_sweepFrom _ _ _

namespace Tile

theorem le_offset (h : Tile start l stop) : ∀ i ∈ l, start ≤ i.offset := by
  induction l generalizing start with
  | nil =>
    intro i hi
    cases hi
  | cons i rest ih =>
    obtain ⟨ho, hn, hrest⟩ := h
    intro j hj
    rcases List.mem_cons.mp hj with rfl | hj
    · exact Nat.le_of_eq ho.symm
    · exact Nat.le_trans (Nat.le_of_lt hn) (ih hrest j hj)

theorem lt_offset (h : Tile start (i :: rest) stop) : ∀ j ∈ rest, i.offset < j.offset := by
  intro j hj
  obtain ⟨rfl, hn, hrest⟩ := h
  exact Nat.lt_of_lt_of_le hn (hrest.le_offset j hj)

theorem of_isPrefix (h : Tile start l stop) (hp : l' <+: l) : ∃ stop', Tile start l' stop' := by
  induction l' generalizing l start with
  | nil => exact ⟨start, rfl⟩
  | cons i rest ih =>
    obtain ⟨more, rfl⟩ := hp
    obtain ⟨ho, hn, hrest⟩ := h
    obtain ⟨stop', hrest'⟩ := ih hrest (List.prefix_append _ _)
    exact ⟨stop', ho, hn, hrest'⟩

theorem of_append (h : Tile start (before ++ i :: rest) stop) : Tile i.offset (i :: rest) stop := by
  induction before generalizing start with
  | nil => exact h.1 ▸ h
  | cons j before ih => exact ih h.2.2

theorem find?_append (h : Tile start (before ++ i :: rest) stop) :
    (before ++ i :: rest).find? (·.offset = i.offset) = some i := by
  induction before generalizing start with
  | nil => simp
  | cons j before ih =>
    have hlt := h.lt_offset i (by simp)
    rw [List.cons_append, List.find?_cons_of_neg (by simpa using Nat.ne_of_lt hlt)]
    exact ih h.2.2

end Tile

end Instruction

end ActionVm
