import ActionVm.Proofs.Graph.Blocks

namespace ActionVm

theorem Block.length_tails_le (bs : List Block) :
    (bs.flatMap (·.steps.tail)).length ≤ (bs.flatMap Block.steps).length := by
  induction bs with
  | nil => exact Nat.le_refl _
  | cons b rest ih =>
    simp only [List.flatMap_cons, List.length_append, List.length_tail]
    omega

namespace Walk

/-- The number of steps emitted so far, in closed blocks and in the open one. -/
def emitted (w : Walk) : Nat :=
  (w.closed.flatMap Block.steps).length + w.steps.length

/-- What the instructions lowered so far have paid for: the steps emitted, and one for every load that
waits. -/
def weight (w : Walk) : Nat :=
  w.emitted + w.pending.length

@[simp] theorem weight_emit (w : Walk) (s : Step) : (w.emit s).weight = w.weight + 1 := by
  simp only [weight, emitted, emit, List.length_cons]
  omega

@[simp] theorem weight_flush (w : Walk) : w.flush.weight = w.weight := by
  simp only [weight, emitted, flush, List.length_append, List.length_map, List.length_nil]
  omega

theorem weight_close_le (w : Walk) (exit : Exit) : (w.close exit).weight ≤ w.weight := by
  unfold close
  split
  · exact Nat.le_refl _
  · simp only [weight, emitted, List.flatMap_cons, List.length_append, List.length_reverse, List.length_nil]
    omega

theorem weight_enter_le (w : Walk) (offset : Nat) : (w.enter offset).weight ≤ w.weight := by
  unfold enter
  split
  · exact Nat.le_trans (weight_close_le w.flush (.jump offset)) (Nat.le_of_eq w.weight_flush)
  · exact Nat.le_refl _

theorem weight_of_pending {w : Walk} (h : w.pending = index :: older) :
    w.weight = { w with pending := older }.weight + 1 := by
  simp only [weight, emitted, h, List.length_cons]
  omega

theorem weight_store_le (w : Walk) (index : UInt32) : (w.store index).weight ≤ w.weight + 1 := by
  unfold store
  split
  · exact Nat.le_of_eq (weight_emit _ _)
  · rename_i source older h
    -- The stored load has paid for the copy.
    rw [weight_of_pending h]
    dsimp only
    split
    · omega
    · rw [weight_emit]
      split
      · rw [weight_flush]
        omega
      · omega

theorem weight_apply_le (w : Walk) (e : Effect) : (w.apply e).weight ≤ w.weight + 1 := by
  cases e with
  | load index => exact Nat.le_of_eq (weight_of_pending (w := { w with pending := index :: w.pending }) rfl)
  | store index => exact weight_store_le w index
  | dup =>
    simp only [apply]
    split
    · rename_i top older h
      exact Nat.le_of_eq (weight_of_pending (w := { w with pending := top :: w.pending }) rfl)
    · exact Nat.le_of_eq (weight_emit _ _)
  | pop =>
    simp only [apply]
    split
    · rename_i older h
      rw [weight_of_pending h]
      omega
    · exact Nat.le_of_eq (weight_emit _ _)
  | returnValue => exact Nat.le_trans (weight_close_le _ _) (Nat.le_of_eq (weight_emit _ _))
  | returnVoid => exact Nat.le_succ_of_le (weight_close_le w .ret)
  | skip => exact Nat.le_succ _
  | leave exit =>
    have hclose := weight_close_le w.flush exit
    rw [weight_flush] at hclose
    exact Nat.le_succ_of_le hclose
  | act step => exact Nat.le_of_eq (by simp only [apply, weight_emit, weight_flush])
  | unknown byte => exact Nat.le_trans (weight_close_le _ _) (Nat.le_of_eq (weight_emit _ _))
  | unsupported byte =>
    have hclose := weight_close_le (w.flush.emit (trapStep byte)) .ret
    rw [weight_emit, weight_flush] at hclose
    exact hclose

/-- The walk before an instruction is lowered: its block is entered if one starts there. -/
def arrive (w : Walk) (starts : List Nat) (i : Instruction) : Walk :=
  if starts.head? = some i.offset then w.enter i.offset else w

theorem weight_arrive_le (w : Walk) (starts : List Nat) (i : Instruction) : (w.arrive starts i).weight ≤ w.weight := by
  unfold arrive
  split
  · exact weight_enter_le w i.offset
  · exact Nat.le_refl _

theorem run_eq_arrive (starts : List Nat) (w : Walk) (i : Instruction) (rest : List Instruction) :
    run starts w (i :: rest) =
      let starts := starts.dropWhile (· < i.offset)
      let arrived := w.arrive starts i
      if arrived.current.isNone then run starts arrived rest
      else if i.isSupported then run starts (arrived.apply i.effect) rest
      else arrived.apply i.effect :=
  run_cons starts w i rest

/-- The walks that a run goes through, before and behind the start of a block and behind every instruction,
each with the instructions lowered so far. -/
def trail (starts : List Nat) (w : Walk) (lowered : List Instruction) :
    List Instruction → List (Walk × List Instruction)
  | [] => [(w, lowered)]
  | i :: rest =>
    let starts := starts.dropWhile (· < i.offset)
    let arrived := w.arrive starts i
    (w, lowered) :: (arrived, lowered) ::
      if arrived.current.isNone then trail starts arrived lowered rest
      else if i.isSupported then trail starts (arrived.apply i.effect) (lowered ++ [i]) rest
      else [(arrived.apply i.effect, lowered ++ [i])]

def trailOf (code : Bytes) : List (Walk × List Instruction) :=
  trail (blockStarts (Instruction.sweep code)).tail {} [] (Instruction.sweep code)

theorem run_mem_trail (starts : List Nat) (w : Walk) (lowered l : List Instruction) (n : Nat) :
    ∃ all, (run starts w (l.take n), all) ∈ trail starts w lowered l := by
  induction l generalizing starts w lowered n with
  | nil =>
    rw [List.take_nil]
    exact ⟨lowered, List.mem_cons_self⟩
  | cons i rest ih =>
    cases n with
    | zero => exact ⟨lowered, List.mem_cons_self⟩
    | succ n =>
      rw [List.take_succ_cons, run_eq_arrive]
      simp only [trail]
      split
      · obtain ⟨all, h⟩ := ih _ _ lowered n
        exact ⟨all, List.mem_cons_of_mem _ (List.mem_cons_of_mem _ h)⟩
      · split
        · obtain ⟨all, h⟩ := ih _ _ (lowered ++ [i]) n
          exact ⟨all, List.mem_cons_of_mem _ (List.mem_cons_of_mem _ h)⟩
        · exact ⟨lowered ++ [i], List.mem_cons_of_mem _ (List.mem_cons_of_mem _ List.mem_cons_self)⟩

/-- A run lowers some of its instructions, and each adds one to the weight at most. -/
theorem weight_le_of_mem_trail (hw : w.weight ≤ lowered.length) (h : (v, all) ∈ trail starts w lowered l) :
    v.weight ≤ all.length ∧ ∃ more, all = lowered ++ more ∧ more.Sublist l := by
  induction l generalizing starts w lowered with
  | nil =>
    cases List.mem_singleton.mp h
    exact ⟨hw, [], (List.append_nil _).symm, .slnil⟩
  | cons i rest ih =>
    simp only [trail] at h
    generalize starts.dropWhile (· < i.offset) = starts at h
    have harrive : (w.arrive starts i).weight ≤ lowered.length := Nat.le_trans (weight_arrive_le w starts i) hw
    have happly : ((w.arrive starts i).apply i.effect).weight ≤ (lowered ++ [i]).length := by
      rw [List.length_append, List.length_singleton]
      exact Nat.le_trans (weight_apply_le _ _) (Nat.add_le_add_right harrive 1)
    rcases List.mem_cons.mp h with h | h
    · cases h
      exact ⟨hw, [], (List.append_nil _).symm, List.nil_sublist _⟩
    rcases List.mem_cons.mp h with h | h
    · cases h
      exact ⟨harrive, [], (List.append_nil _).symm, List.nil_sublist _⟩
    split at h
    · obtain ⟨hv, more, rfl, hmore⟩ := ih harrive h
      exact ⟨hv, more, rfl, hmore.cons i⟩
    · split at h
      · obtain ⟨hv, more, rfl, hmore⟩ := ih happly h
        exact ⟨hv, i :: more, List.append_assoc _ _ _, hmore.cons_cons i⟩
      · cases List.mem_singleton.mp h
        exact ⟨happly, [i], rfl, (List.nil_sublist rest).cons_cons i⟩

/-- Of the blocks of a finished walk, the first steps apart, no more than its weight is left: the open block
gains a trap by then. -/
theorem length_tails_finish_le (w : Walk) (code : Bytes) :
    ((w.finish code).flatMap (·.steps.tail)).length ≤ w.weight := by
  have hclosed : (w.closed.reverse.flatMap (·.steps.tail)).length ≤ (w.closed.flatMap Block.steps).length := by
    rw [((List.reverse_perm w.closed).flatMap_right _).length_eq]
    exact Block.length_tails_le w.closed
  cases hw : w.current with
  | none =>
    simp only [finish, flush, hw, weight, emitted]
    omega
  | some offset =>
    simp only [finish, flush, emit, close, hw, weight, emitted, List.reverse_cons, List.flatMap_append,
      List.flatMap_singleton, List.length_append, List.length_tail, List.length_reverse, List.length_map,
      List.length_singleton]
    omega

end Walk

/-- A start adds one step at most to the blocks that were filled: the first step of its own block, or a trap. -/
theorem length_steps_fillBlocks_le (code : Bytes) (starts : List Nat) (filled : List Block) :
    ((fillBlocks code starts filled).flatMap Block.steps).length ≤
      (filled.flatMap (·.steps.tail)).length + starts.length := by
  induction starts generalizing filled with
  | nil => exact Nat.zero_le _
  | cons start starts ih =>
    cases filled with
    | nil =>
      have hrest := ih []
      simp only [fillBlocks, List.flatMap_cons, List.length_append, List.length_cons, List.length_nil]
      omega
    | cons b rest =>
      simp only [fillBlocks]
      split
      · have hrest := ih rest
        simp only [List.flatMap_cons, List.length_append, List.length_tail, List.length_cons]
        omega
      · have hrest := ih (b :: rest)
        simp only [List.flatMap_cons, List.length_append, List.length_cons, List.length_nil] at hrest ⊢
        omega

namespace Graph

theorem stepCount_ofCode_le (code : Bytes) :
    (ofCode code).stepCount ≤
      (Walk.run (blockStarts (Instruction.sweep code)).tail {} (Instruction.sweep code)).weight +
        (blockStarts (Instruction.sweep code)).length :=
  Nat.le_trans (length_steps_fillBlocks_le code _ _) (Nat.add_le_add_right (Walk.length_tails_finish_le _ code) _)

/-- The graph of a code has no more steps than the code has instructions and the graph has blocks. All along
the walk over the instructions, the steps emitted and the loads that wait are no more than the instructions
lowered so far. -/
theorem ofCode_is_linear (code : Bytes) :
    (ofCode code).stepCount ≤ (Instruction.sweep code).length + (ofCode code).blocks.length ∧
    (∀ n, ∃ lowered, (Walk.run (blockStarts (Instruction.sweep code)).tail {} ((Instruction.sweep code).take n),
      lowered) ∈ Walk.trailOf code) ∧
    ∀ w lowered, (w, lowered) ∈ Walk.trailOf code →
      lowered.Sublist (Instruction.sweep code) ∧ w.emitted + w.pending.length ≤ lowered.length := by
  have hrun := Walk.run_mem_trail (blockStarts (Instruction.sweep code)).tail {} [] (Instruction.sweep code)
  have htrail (w : Walk) (lowered : List Instruction) (h : (w, lowered) ∈ Walk.trailOf code) :
      lowered.Sublist (Instruction.sweep code) ∧ w.weight ≤ lowered.length := by
    obtain ⟨hw, more, rfl, hmore⟩ := Walk.weight_le_of_mem_trail (Nat.zero_le _) h
    exact ⟨hmore, hw⟩
  refine ⟨?_, hrun, htrail⟩
  obtain ⟨lowered, hlast⟩ := hrun (Instruction.sweep code).length
  rw [List.take_length] at hlast
  obtain ⟨hlowered, hweight⟩ := htrail _ _ hlast
  calc (ofCode code).stepCount
      ≤ (Walk.run (blockStarts (Instruction.sweep code)).tail {} (Instruction.sweep code)).weight +
          (blockStarts (Instruction.sweep code)).length := stepCount_ofCode_le code
    _ ≤ (Instruction.sweep code).length + (blockStarts (Instruction.sweep code)).length :=
        Nat.add_le_add_right (Nat.le_trans hweight hlowered.length_le) _
    _ = (Instruction.sweep code).length + (ofCode code).blocks.length := by
        rw [← offsets_ofCode, offsets, List.length_map]

-- The bound is met where waiting loads run off the end of the code.
example : (ofCode [0xd0, 0x2a, 0x2a]).stepCount = 3 + 1 :=
  rfl

end Graph

end ActionVm
