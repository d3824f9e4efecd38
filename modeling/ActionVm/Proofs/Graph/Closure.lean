import ActionVm.Proofs.Graph.Blocks

namespace ActionVm

namespace Instruction

theorem operation_of_effect {i : Instruction} (h : i.effect = e)
    (he : (∃ exit, e = .leave exit) ∨ ∃ step, e = .act step) :
    ∃ op, i.opcode = some op ∧ i.operation op = e := by
  obtain ⟨offset, next, byte, opcode, args⟩ := i
  cases opcode with
  | none =>
    subst h
    obtain ⟨_, h⟩ | ⟨_, h⟩ := he <;> cases h
  | some op =>
    refine ⟨op, rfl, ?_⟩
    cases op with
    | getLocal | getLocal0 | getLocal1 | getLocal2 | getLocal3 | setLocal | setLocal0 | setLocal1
    | setLocal2 | setLocal3 | dup | pop | returnValue | returnVoid | nop | label | debug | debugLine
    | debugFile =>
      subst h
      obtain ⟨_, h⟩ | ⟨_, h⟩ := he <;> cases h
    | _ => exact h

theorem exit?_of_effect {i : Instruction} (h : i.effect = .leave exit) :
    ∃ op, i.opcode = some op ∧ i.exit? op = some exit := by
  obtain ⟨op, ho, h⟩ := operation_of_effect h (.inl ⟨exit, rfl⟩)
  unfold operation at h
  split at h
  · rename_i hexit
    cases h
    exact ⟨op, ho, hexit⟩
  · split at h <;> cases h

theorem mem_starts_of_effect {i : Instruction} (h : i.effect = .leave exit) (ht : target ∈ exit.targets) :
    target ∈ i.starts := by
  obtain ⟨op, hop, hexit⟩ := exit?_of_effect h
  unfold exit? at hexit
  unfold starts
  split at hexit
  · rename_i hswitch
    subst hswitch
    split at hexit
    · rename_i hcases
      cases hexit
      rw [hop]
      dsimp only
      rw [hcases]
      simpa [Exit.targets, or_comm] using ht
    · cases hexit
  · rename_i hswitch
    obtain ⟨taken, hbranch, hexit⟩ := Option.bind_eq_some_iff.mp hexit
    have hlabel : op ≠ .label := by
      rintro rfl
      cases hexit
    have hstarts : ∀ t ∈ exit.targets, t ∈ [taken, i.next] := by
      split at hexit
      · cases hexit
        simp [Exit.targets]
      · obtain ⟨condition, -, rfl⟩ := Option.map_eq_some_iff.mp hexit
        simp [Exit.targets]
    split
    · rename_i ho
      exact absurd (Option.some.inj (hop.symm.trans ho)) hswitch
    · rename_i ho
      exact absurd (Option.some.inj (hop.symm.trans ho)) hlabel
    · rw [hbranch]
      exact hstarts _ ht

theorem mem_blockStarts_of_effect (hi : i ∈ known code) (h : i.effect = .leave exit) :
    ∀ target ∈ exit.targets, target ∈ blockStarts (sweep code) := fun _ ht =>
  mem_blockStarts.mpr (.inr ⟨i, (covered_isPrefix _ _ _).subset hi, mem_starts_of_effect h ht⟩)

end Instruction

theorem Effect.lower_targets {e : Effect} {more : List UInt32 → Remainder} {starts : List Nat}
    (hm : ∀ pending, ∀ target ∈ (more pending).2.targets, target ∈ starts)
    (he : ∀ exit, e = .leave exit → ∀ target ∈ exit.targets, target ∈ starts) :
    ∀ target ∈ (e.lower pending more).2.targets, target ∈ starts := by
  cases e with
  | load | skip | act => exact hm _
  | store index =>
    cases pending with
    | nil => exact hm _
    | cons source older =>
      simp only [lower]
      split
      · exact hm _
      · split <;> exact hm _
  | dup => cases pending <;> exact hm _
  | pop => cases pending <;> exact hm _
  | returnValue =>
    intro target h
    cases pending <;> cases h
  | leave exit => exact he exit rfl
  | returnVoid | unknown | unsupported =>
    intro target h
    cases h

theorem after_targets (h : ∀ i ∈ l, i ∈ Instruction.known code) :
    ∀ target ∈ (after code (blockStarts (Instruction.sweep code)) offset l pending).2.targets,
      target ∈ blockStarts (Instruction.sweep code) := by
  induction l generalizing pending with
  | nil => exact nofun
  | cons i rest ih =>
    simp only [after]
    split
    · rename_i hi
      simpa [Exit.targets] using hi
    · exact Effect.lower_targets (fun _ => ih fun j hj => h j (List.mem_cons_of_mem _ hj))
        fun _ he => Instruction.mem_blockStarts_of_effect (h i List.mem_cons_self) he

theorem Graph.closed_ofCode (code : Bytes) : (ofCode code).Closed := by
  intro b hb
  rw [offsets_ofCode]
  obtain ⟨before, i, rest, hk, rfl⟩ | htrap := made_of_mem_ofCode hb
  · have hknown : ∀ j ∈ i :: rest, j ∈ Instruction.known code := by
      intro j hj
      rw [hk]
      exact List.mem_append_right _ hj
    refine ⟨_, rfl, Effect.lower_targets (fun _ => after_targets fun j hj => ?_) fun _ he => ?_⟩
    · exact hknown j (List.mem_cons_of_mem _ hj)
    · exact Instruction.mem_blockStarts_of_effect (hknown i List.mem_cons_self) he
  · rw [htrap]
    exact ⟨.ret, rfl, nofun⟩

end ActionVm
