import ActionVm.Machine.Compiled
import ActionVm.Proofs.Graph.Closure

namespace ActionVm

namespace Args

def Fits : Args → Operands → Prop
  | branch _, shape => shape = .s24
  | switch .., shape => shape = .lookupSwitch
  | _, shape => shape ≠ .s24 ∧ shape ≠ .lookupSwitch

theorem fits_of_read (h : read shape input = .ok args input') : args.Fits shape := by
  cases shape with
  | none =>
    obtain ⟨rfl, -⟩ := pure_eq_ok.mp h
    exact ⟨nofun, nofun⟩
  | u8 | u30 =>
    obtain ⟨_, _, -, h⟩ := bind_eq_ok.mp h
    obtain ⟨rfl, -⟩ := pure_eq_ok.mp h
    exact ⟨nofun, nofun⟩
  | u30u30 =>
    obtain ⟨_, _, -, h⟩ := bind_eq_ok.mp h
    obtain ⟨_, _, -, h⟩ := bind_eq_ok.mp h
    obtain ⟨rfl, -⟩ := pure_eq_ok.mp h
    exact ⟨nofun, nofun⟩
  | s24 =>
    obtain ⟨_, _, -, h⟩ := bind_eq_ok.mp h
    obtain ⟨rfl, -⟩ := pure_eq_ok.mp h
    exact rfl
  | lookupSwitch =>
    obtain ⟨_, _, -, h⟩ := bind_eq_ok.mp h
    obtain ⟨_, _, -, h⟩ := bind_eq_ok.mp h
    obtain ⟨_, _, -, h⟩ := bind_eq_ok.mp h
    obtain ⟨rfl, -⟩ := pure_eq_ok.mp h
    exact rfl
  | debug =>
    obtain ⟨_, _, -, h⟩ := bind_eq_ok.mp h
    obtain ⟨_, _, -, h⟩ := bind_eq_ok.mp h
    obtain ⟨_, _, -, h⟩ := bind_eq_ok.mp h
    obtain ⟨_, _, -, h⟩ := bind_eq_ok.mp h
    obtain ⟨rfl, -⟩ := pure_eq_ok.mp h
    exact ⟨nofun, nofun⟩

end Args

theorem Opcode.eq_lookupSwitch {op : Opcode} (h : op.operands = .lookupSwitch) : op = .lookupSwitch := by
  cases op with
  | lookupSwitch => rfl
  | _ => cases h

namespace Instruction

theorem fits_of_mem_sweep (h : i ∈ sweep code) : i.args.Fits (i.opcode.elim .none Opcode.operands) := by
  obtain ⟨_, _, _, hread⟩ := read_of_mem_sweepFrom h
  obtain ⟨byte, _, -, hread⟩ := bind_eq_ok.mp hread
  obtain ⟨args, _, hargs, hread⟩ := bind_eq_ok.mp hread
  obtain ⟨length, _, -, hread⟩ := bind_eq_ok.mp hread
  obtain ⟨rfl, -⟩ := pure_eq_ok.mp hread
  exact Args.fits_of_read hargs

theorem starts_of_branch (h : i ∈ sweep code) (ha : i.args = .branch displacement) :
    i.starts = [address (i.next + displacement), i.next] := by
  have hfits := fits_of_mem_sweep h
  rw [ha] at hfits
  have htarget : i.branchTarget? = some (address (i.next + displacement)) := by rw [branchTarget?, ha]
  unfold starts
  split
  · rename_i ho
    rw [ho] at hfits
    cases hfits
  · rename_i ho
    rw [ho] at hfits
    cases hfits
  · rw [htarget]

theorem starts_of_switch (h : i ∈ sweep code) (ha : i.args = .switch fallback cases) :
    i.starts = (fallback :: cases).map fun d => address (i.offset + d) := by
  have hfits := fits_of_mem_sweep h
  rw [ha] at hfits
  cases ho : i.opcode with
  | none =>
    rw [ho] at hfits
    cases hfits
  | some op =>
    rw [ho] at hfits
    cases Opcode.eq_lookupSwitch hfits
    rw [starts, ho, switchTargets, ha]

theorem starts_of_label {i : Instruction} (ho : i.opcode = some .label) : i.starts = [i.next] := by
  rw [starts, ho]

end Instruction

/-- The offsets at which the blocks of a code start, said of its instructions. A branch is what has a
displacement behind its opcode, jumps included and switches not. -/
inductive BlockStart (code : Bytes) : Nat → Prop where
  | entry : BlockStart code 0
  | target (hi : i ∈ Instruction.sweep code) (ha : i.args = .branch displacement) :
    BlockStart code (address (i.next + displacement))
  | behindBranch (hi : i ∈ Instruction.sweep code) (ho : i.opcode = some op) (hs : op.operands = .s24) :
    BlockStart code i.next
  | switchTarget (hi : i ∈ Instruction.sweep code) (ha : i.args = .switch fallback cases)
    (hd : displacement ∈ fallback :: cases) : BlockStart code (address (i.offset + displacement))
  | behindLabel (hi : i ∈ Instruction.sweep code) (ho : i.opcode = some .label) : BlockStart code i.next

theorem BlockStart.of_mem_starts (hi : i ∈ Instruction.sweep code) (h : start ∈ i.starts) :
    BlockStart code start := by
  have hfits := Instruction.fits_of_mem_sweep hi
  cases ha : i.args with
  | branch displacement =>
    rw [Instruction.starts_of_branch hi ha] at h
    rcases List.mem_cons.mp h with rfl | h
    · exact .target hi ha
    · cases List.mem_singleton.mp h
      rw [ha] at hfits
      cases ho : i.opcode with
      | none =>
        rw [ho] at hfits
        cases hfits
      | some op =>
        rw [ho] at hfits
        exact .behindBranch hi ho hfits
  | switch fallback cases =>
    rw [Instruction.starts_of_switch hi ha] at h
    obtain ⟨displacement, hd, rfl⟩ := List.mem_map.mp h
    exact .switchTarget hi ha hd
  | none | one | two =>
    -- Without a displacement, only a label is left to start a block.
    have hbranch : i.branchTarget? = .none := by rw [Instruction.branchTarget?, ha]
    have hswitch : i.switchTargets = [] := by rw [Instruction.switchTargets, ha]
    unfold Instruction.starts at h
    split at h
    · rw [hswitch] at h
      cases h
    · rename_i ho
      cases List.mem_singleton.mp h
      exact .behindLabel hi ho
    · rw [hbranch] at h
      cases h

theorem mem_blockStarts_sweep : start ∈ blockStarts (Instruction.sweep code) ↔ BlockStart code start := by
  rw [mem_blockStarts]
  constructor
  · rintro (rfl | ⟨i, hi, h⟩)
    · exact .entry
    · exact .of_mem_starts hi h
  · intro h
    cases h with
    | entry => exact .inl rfl
    | @target i displacement hi ha =>
      refine .inr ⟨i, hi, ?_⟩
      rw [Instruction.starts_of_branch hi ha]
      exact List.mem_cons_self
    | @behindBranch i op hi ho hs =>
      have hfits := Instruction.fits_of_mem_sweep hi
      rw [ho, Option.elim_some, hs] at hfits
      obtain ⟨displacement, ha⟩ : ∃ displacement, i.args = .branch displacement := by
        cases ha : i.args with
        | branch displacement => exact ⟨displacement, rfl⟩
        | switch => rw [ha] at hfits; cases hfits
        | none | one | two => rw [ha] at hfits; exact absurd rfl hfits.1
      refine .inr ⟨i, hi, ?_⟩
      rw [Instruction.starts_of_branch hi ha]
      exact List.mem_cons_of_mem _ List.mem_cons_self
    | @switchTarget i fallback cases displacement hi ha hd =>
      refine .inr ⟨i, hi, ?_⟩
      rw [Instruction.starts_of_switch hi ha]
      exact List.mem_map_of_mem hd
    | @behindLabel i hi ho =>
      refine .inr ⟨i, hi, ?_⟩
      rw [Instruction.starts_of_label ho]
      exact List.mem_cons_self

/-- A step behind which a method does nothing more. -/
def Step.IsFinal (s : Step) : Prop :=
  s.action = .returnValue ∨ s.action = .returnLocal ∨ s.action = .trap

namespace Remainder

/-- A final step stands only at the end, and only before a return. -/
def EndsOnce (r : Remainder) : Prop :=
  ∀ before s rest, r.1 = before ++ s :: rest → s.IsFinal → rest = [] ∧ r.2 = .ret

theorem EndsOnce.of_none {steps : List Step} (h : ∀ s ∈ steps, ¬s.IsFinal) : EndsOnce (steps, exit) := by
  intro before s rest he hs
  refine absurd hs (h s ?_)
  change steps = _ at he
  rw [he]
  exact List.mem_append_right _ List.mem_cons_self

theorem EndsOnce.prepend {r : Remainder} (h : r.EndsOnce) (hsteps : ∀ s ∈ steps, ¬s.IsFinal) :
    (r.prepend steps).EndsOnce := by
  intro before s rest he hs
  change steps ++ r.1 = _ at he
  rcases List.append_eq_append_iff.mp he with ⟨more, rfl, hr⟩ | ⟨more, rfl, hr⟩
  · exact h more s rest hr hs
  · cases more with
    | nil => exact h [] s rest hr.symm hs
    | cons t more =>
      cases hr
      exact absurd hs (hsteps _ (List.mem_append_right _ List.mem_cons_self))

theorem endsOnce_last (s : Step) : EndsOnce ([s], .ret) := by
  intro before t rest he _
  cases before with
  | nil =>
    cases he
    exact ⟨rfl, rfl⟩
  | cons u before =>
    obtain ⟨-, he⟩ := List.cons.inj he
    exact absurd he (by simp)

end Remainder

theorem not_isFinal_of_mem_loads : ∀ s ∈ loads pending, ¬s.IsFinal := by
  intro s hs
  obtain ⟨i, -, rfl⟩ := List.mem_map.mp (List.mem_reverse.mp hs)
  rintro (h | h | h) <;> cases h

theorem Opcode.not_isFinal_action {op : Opcode} (h : op.action? = some action ∨ op.stub? = some action) :
    ¬Step.IsFinal { action, a, b } := by
  have hne : action ≠ .returnValue ∧ action ≠ .returnLocal ∧ action ≠ .trap := by
    rcases h with h | h <;> cases op <;> cases h <;> decide
  rintro (h | h | h)
  · exact hne.1 h
  · exact hne.2.1 h
  · exact hne.2.2 h

theorem Instruction.not_isFinal_of_effect {i : Instruction} (h : i.effect = .act step) : ¬step.IsFinal := by
  obtain ⟨op, -, h⟩ := operation_of_effect h (.inr ⟨step, rfl⟩)
  unfold operation at h
  split at h
  · cases h
  · split at h
    · rename_i ha
      cases h
      exact Opcode.not_isFinal_action (.inl ha)
    · rename_i ha
      cases h
      exact Opcode.not_isFinal_action (.inr ha)
    · cases h

namespace Effect

open Remainder

theorem endsOnce_lower {e : Effect} {more : List UInt32 → Remainder} (hm : ∀ pending, (more pending).EndsOnce)
    (he : ∀ step, e = .act step → ¬step.IsFinal) : (e.lower pending more).EndsOnce := by
  have hone (s : Step) (h : ¬s.IsFinal) : ∀ t ∈ [s], ¬t.IsFinal := by
    intro t ht
    rw [List.mem_singleton.mp ht]
    exact h
  have hbehind (s : Step) (h : ¬s.IsFinal) (waiting : List UInt32) : ∀ t ∈ loads waiting ++ [s], ¬t.IsFinal := by
    intro t ht
    rcases List.mem_append.mp ht with ht | ht
    · exact not_isFinal_of_mem_loads t ht
    · exact hone s h t ht
  cases e with
  | load | skip => exact hm _
  | store index =>
    cases pending with
    | nil => exact (hm _).prepend (hone _ (by simp [Step.IsFinal]))
    | cons source older =>
      simp only [lower]
      split
      · exact hm _
      · split
        · exact (hm _).prepend (hbehind _ (by simp [Step.IsFinal]) older)
        · exact (hm _).prepend (hone _ (by simp [Step.IsFinal]))
  | dup =>
    cases pending with
    | nil => exact (hm _).prepend (hone _ (by simp [Step.IsFinal]))
    | cons => exact hm _
  | pop =>
    cases pending with
    | nil => exact (hm _).prepend (hone _ (by simp [Step.IsFinal]))
    | cons => exact hm _
  | returnValue => cases pending <;> exact endsOnce_last _
  | returnVoid => exact .of_none (by simp)
  | leave exit => exact .of_none not_isFinal_of_mem_loads
  | act step => exact (hm _).prepend (hbehind _ (he step rfl) pending)
  | unknown byte => exact endsOnce_last _
  | unsupported byte => exact (endsOnce_last _).prepend not_isFinal_of_mem_loads

end Effect

theorem endsOnce_after (code : Bytes) (starts : List Nat) (offset : Nat) (l : List Instruction) (pending : List UInt32) :
    (after code starts offset l pending).EndsOnce := by
  induction l generalizing pending with
  | nil => exact (Remainder.endsOnce_last _).prepend not_isFinal_of_mem_loads
  | cons i rest ih =>
    simp only [after]
    split
    · exact .of_none not_isFinal_of_mem_loads
    · exact Effect.endsOnce_lower ih fun _ => Instruction.not_isFinal_of_effect

namespace Graph

theorem endsOnce_ofCode (hb : b ∈ (ofCode code).blocks) (he : b.exit = some exit) :
    Remainder.EndsOnce (b.steps, exit) := by
  obtain ⟨before, i, rest, -, rfl⟩ | htrap := made_of_mem_ofCode hb
  · cases he
    exact Effect.endsOnce_lower (fun _ => endsOnce_after _ _ _ _ _) fun _ => Instruction.not_isFinal_of_effect
  · rw [htrap] at he ⊢
    cases he
    exact Remainder.endsOnce_last _

theorem offset_of_block? {g : Graph} (h : g.block? offset = some b) : b.offset = offset := by
  simpa using List.find?_some h

end Graph

theorem Compiled.ofBody_off (s : Native.System) (body : Body) :
    ofBody s .off body = .ok {
      code := Threaded.ofClosed (Graph.ofCode body.code)
      backend := .threaded
      blockCount := (Graph.ofCode body.code).blocks.length
      stepCount := (Graph.ofCode body.code).stepCount } := by
  have hclosed := Graph.closed_ofCode body.code
  rw [ofBody, ofGraph, Graph.check_eq_ok.mpr hclosed, Threaded.ofGraph_eq_ok hclosed]
  rfl

/-- The graph of any bytes is closed, has its blocks at the starts of the code and nowhere else, and
leaves a method only at the end of a block. -/
theorem Graph.ofCode_is_closed_at_its_starts (code : Bytes) :
    (ofCode code).check = .ok () ∧
    (∀ offset, offset ∈ (ofCode code).offsets ↔ BlockStart code offset) ∧
    (∀ offset b, (ofCode code).block? offset = some b → b.offset = offset) ∧
    (ofCode code).offsets.Pairwise (· < ·) ∧ (ofCode code).offsets.head? = some 0 ∧
    (∀ b ∈ (ofCode code).blocks, ∃ exit, b.exit = some exit ∧
      ∀ target ∈ exit.targets, target ∈ (ofCode code).offsets) ∧
    (∀ b ∈ (ofCode code).blocks, ∀ before s rest, b.steps = before ++ s :: rest → s.IsFinal →
      rest = [] ∧ b.exit = some .ret) ∧
    ∀ (s : Native.System) (body : Body), body.code = code → ∃ compiled,
      Compiled.ofBody s .off body = .ok compiled ∧ compiled.backend = .threaded ∧
        compiled.code = Threaded.ofClosed (ofCode code) := by
  have hclosed := closed_ofCode code
  have hoffsets := offsets_ofCode code
  refine ⟨check_eq_ok.mpr hclosed, ?_, fun _ _ => offset_of_block?, ?_, ?_, hclosed, ?_, ?_⟩
  · intro offset
    rw [hoffsets]
    exact mem_blockStarts_sweep
  · rw [hoffsets]
    exact pairwise_blockStarts _
  · rw [hoffsets, blockStarts_eq_cons]
    rfl
  · intro b hb before s rest hsteps hs
    obtain ⟨exit, he, -⟩ := hclosed b hb
    obtain ⟨hrest, hexit⟩ := endsOnce_ofCode hb he before s rest hsteps hs
    exact ⟨hrest, he.trans (congrArg some hexit)⟩
  · rintro s body rfl
    exact ⟨_, Compiled.ofBody_off s body, rfl, rfl⟩

end ActionVm
