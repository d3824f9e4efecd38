import ActionVm.Proofs.Graph.Walk
import Mathlib.Data.List.Nodup

namespace ActionVm

namespace Graph

/-- Every block has an exit, and all targets are blocks. -/
def Closed (g : Graph) : Prop :=
  ∀ b ∈ g.blocks, ∃ exit, b.exit = some exit ∧ ∀ target ∈ exit.targets, target ∈ g.offsets

theorem nodup_offsets (g : Graph) : g.offsets.Nodup :=
  (List.pairwise_map.mpr g.ascending).imp fun h => Nat.ne_of_lt h

theorem eq_zero_cons {l : List Nat} (h : l.Pairwise (· < ·)) (h0 : 0 ∈ l) : l = 0 :: l.tail := by
  cases l with
  | nil => cases h0
  | cons n rest =>
    rcases List.mem_cons.mp h0 with rfl | hm
    · rfl
    · exact absurd ((List.pairwise_cons.mp h).1 0 hm) (Nat.not_lt_zero _)

theorem idxOf_zero {g : Graph} (h : 0 ∈ g.offsets) : g.offsets.idxOf 0 = 0 := by
  have hs : g.offsets.Pairwise (· < ·) := List.pairwise_map.mpr g.ascending
  rw [eq_zero_cons hs h, List.idxOf_cons_self]

theorem find?_offset_of_mem {bs : List Block} (hs : (bs.map Block.offset).Nodup) (h : b ∈ bs) :
    bs.find? (·.offset = b.offset) = some b := by
  induction bs with
  | nil => cases h
  | cons c rest ih =>
    rw [List.map_cons, List.nodup_cons] at hs
    rcases List.mem_cons.mp h with rfl | h
    · simp
    · have hne : c.offset ≠ b.offset := by
        intro he
        exact hs.1 (he ▸ List.mem_map_of_mem h)
      rw [List.find?_cons_of_neg (by simpa using hne)]
      exact ih hs.2 h

theorem block?_of_mem {g : Graph} (h : b ∈ g.blocks) : g.block? b.offset = some b :=
  find?_offset_of_mem g.nodup_offsets h

theorem exists_block? {g : Graph} (h : offset ∈ g.offsets) :
    ∃ b, g.block? offset = some b ∧ b ∈ g.blocks ∧ b.offset = offset := by
  obtain ⟨b, hb, rfl⟩ := List.mem_map.mp h
  exact ⟨b, block?_of_mem hb, hb, rfl⟩

theorem check_eq_ok {g : Graph} : g.check = .ok () ↔ g.Closed := by
  have hknown (target : Nat) : (!(Std.HashSet.ofList g.offsets).contains target) = true ↔
      target ∉ g.offsets := by
    simp
  unfold check Closed
  rw [forM_eq_ok]
  refine forall_congr' fun b => forall_congr' fun _ => ?_
  cases b.exit with
  | none => exact ⟨nofun, fun ⟨_, h, _⟩ => nomatch h⟩
  | some exit =>
    dsimp only
    cases hf : exit.targets.find? (!(Std.HashSet.ofList g.offsets).contains ·) with
    | some target =>
      constructor
      · intro h
        cases h
      · rintro ⟨_, he, h⟩
        cases he
        have hnot := (hknown target).mp (List.find?_some (p := fun t => !_) hf)
        exact (hnot (h _ (List.mem_of_find?_eq_some hf))).elim
    | none =>
      refine ⟨fun _ => ⟨exit, rfl, fun t ht => ?_⟩, fun _ => rfl⟩
      by_contra hnot
      exact List.find?_eq_none.mp hf t ht ((hknown t).mpr hnot)

theorem places_of_mem {g : Graph} (h : offset ∈ g.offsets) :
    g.places[offset]? = some (g.offsets.idxOf offset) := by
  have hlt := List.idxOf_lt_length_iff.mpr h
  apply Std.HashMap.getElem?_ofList_of_mem (k := offset) (by simp)
  · rw [List.pairwise_iff_getElem]
    intro i j hi hj hij
    simp only [List.length_zipIdx] at hi hj
    simp only [List.getElem_zipIdx, beq_eq_false_iff_ne, ne_eq]
    intro he
    exact absurd ((List.Nodup.getElem_inj_iff g.nodup_offsets).mp he) (Nat.ne_of_lt hij)
  · rw [List.mem_zipIdx_iff_getElem?]
    simp [List.getElem?_eq_getElem hlt]

theorem targetPlace_of_mem {g : Graph} (h : offset ∈ g.offsets) (source : Nat) :
    targetPlace g.places source offset = .ok (g.offsets.idxOf offset) := by
  rw [targetPlace, places_of_mem h]

end Graph

namespace Exit

def map (f : Nat → Nat) : Exit → Exit
  | jump target => jump (f target)
  | branch condition taken fallthrough => branch condition (f taken) (f fallthrough)
  | switch cases default => switch (cases.map f) (f default)
  | ret => ret

theorem targets_map (f : Nat → Nat) (exit : Exit) : (exit.map f).targets = exit.targets.map f := by
  cases exit <;> simp [map, targets]

theorem resolve_eq_ok {f : Nat → Except ε Nat} {p : Nat → Nat} {exit : Exit}
    (h : ∀ t ∈ exit.targets, f t = .ok (p t)) : exit.resolve f = .ok (exit.map p) := by
  cases exit with
  | jump target =>
    rw [resolve, h target (by simp [targets])]
    rfl
  | branch condition taken fallthrough =>
    rw [resolve, h taken (by simp [targets]), h fallthrough (by simp [targets])]
    rfl
  | switch cases default =>
    have hcases : cases.mapM f = .ok (cases.map p) :=
      mapM_eq_ok fun t ht => h t (List.mem_append_left _ ht)
    rw [resolve, hcases, h default (by simp [targets])]
    rfl
  | ret => rfl

theorem leave_map {calls : Calls (EStateM ε σ)} (f : Nat → Nat) (exit : Exit) (s : σ) :
    (exit.map f).leave calls s =
      match exit.leave calls s with
      | .ok next t => .ok (next.map f) t
      | .error e t => .error e t := by
  cases exit with
  | ret => rfl
  | jump target => rfl
  | branch condition taken fallthrough =>
    simp only [map, leave]
    cases h : calls.test condition s with
    | error e t => rw [bind_of_error h, bind_of_error h]
    | ok b t =>
      rw [bind_of_ok h, bind_of_ok h]
      cases b <;> rfl
  | switch cases default =>
    simp only [map, leave, List.length_map]
    cases h : calls.select (UInt32.ofNat (cases.length - 1)) s with
    | error e t => rw [bind_of_error h, bind_of_error h]
    | ok i t =>
      rw [bind_of_ok h, bind_of_ok h]
      simp only [pure_apply, Option.map_some, List.getD_eq_getElem?_getD, List.getElem?_map,
        Option.getD_map]

theorem leave_mem_targets {calls : Calls (EStateM ε σ)} {exit : Exit}
    (h : exit.leave calls s = .ok (some target) t) : target ∈ exit.targets := by
  cases exit with
  | ret => cases h
  | jump target =>
    obtain ⟨he, -⟩ := pure_eq_ok.mp h
    cases he
    exact List.mem_singleton_self _
  | branch condition taken fallthrough =>
    obtain ⟨b, u, -, h⟩ := bind_eq_ok.mp h
    obtain ⟨he, -⟩ := pure_eq_ok.mp h
    cases he
    cases b <;> simp [targets]
  | switch cases default =>
    obtain ⟨i, u, -, h⟩ := bind_eq_ok.mp h
    obtain ⟨he, -⟩ := pure_eq_ok.mp h
    cases he
    rw [List.getD_eq_getElem?_getD]
    cases hi : cases[i.toNat]? with
    | none => simp [targets]
    | some target => exact List.mem_append_left _ (List.mem_of_getElem? hi)

end Exit

namespace Threaded

def placed (g : Graph) (b : Block) : ThreadedBlock where
  steps := b.steps
  exit := (b.exit.getD .ret).map g.offsets.idxOf

theorem targets_placed {g : Graph} (h : g.Closed) (hb : b ∈ g.blocks.map (placed g)) :
    ∀ place ∈ b.exit.targets, place < g.blocks.length := by
  obtain ⟨c, hc, rfl⟩ := List.mem_map.mp hb
  obtain ⟨exit, he, ht⟩ := h c hc
  intro place hp
  rw [placed, he, Option.getD_some, Exit.targets_map] at hp
  obtain ⟨target, htarget, rfl⟩ := List.mem_map.mp hp
  simpa [Graph.offsets] using List.idxOf_lt_length_iff.mpr (ht target htarget)

theorem switch_placed {g : Graph} (hb : b ∈ g.blocks.map (placed g)) (hs : b.exit = .switch cases fallback) :
    ∃ c ∈ g.blocks, ∃ targets target, c.exit = some (.switch targets target) ∧
      cases.length = targets.length := by
  obtain ⟨c, hc, rfl⟩ := List.mem_map.mp hb
  obtain ⟨offset, steps, exit⟩ := c
  match exit with
  | some (.switch targets target) =>
    cases hs
    exact ⟨_, hc, targets, target, rfl, List.length_map _⟩
  | none | some .ret | some (.jump _) | some (.branch ..) => cases hs

def ofClosed (g : Graph) : Threaded where
  blocks := (g.blocks.map (placed g)).toArray

theorem ofGraph_eq_ok {g : Graph} (h : g.Closed) : ofGraph g = .ok (ofClosed g) := by
  have hblock : ∀ b ∈ g.blocks, block g.places b = .ok (placed g b) := by
    intro b hb
    obtain ⟨exit, he, ht⟩ := h b hb
    have hexit := Exit.resolve_eq_ok fun t hm => Graph.targetPlace_of_mem (ht t hm) b.offset
    simp only [block, he, hexit, placed]
    rfl
  rw [ofGraph, mapM_eq_ok hblock]
  rfl

/-- At a block of the graph, the threaded code makes the same turn up to the place it goes on at. -/
theorem turn_ofClosed (calls : Calls (EStateM ε σ)) {g : Graph} (h : g.Closed)
    (ho : offset ∈ g.offsets) (s : σ) :
    ∃ result, g.turn calls offset s = some result ∧
      (ofClosed g).turn calls (g.offsets.idxOf offset) s =
        some (match result with
          | .ok next t => .ok (next.map g.offsets.idxOf) t
          | .error e t => .error e t) ∧
      ∀ next t, result = .ok (some next) t → next ∈ g.offsets := by
  obtain ⟨b, hb, hmem, rfl⟩ := Graph.exists_block? ho
  obtain ⟨exit, he, ht⟩ := h b hmem
  have hplace : g.blocks[g.offsets.idxOf b.offset]? = some b := by
    have hlt := List.idxOf_lt_length_iff.mpr ho
    have hget := List.getElem_idxOf hlt
    unfold Graph.offsets at hlt hget
    rw [List.length_map] at hlt
    rw [List.getElem_map] at hget
    have hfound := Graph.block?_of_mem (List.getElem_mem hlt)
    rw [hget, hb] at hfound
    exact (List.getElem?_eq_getElem hlt).trans hfound.symm
  refine ⟨calls.block b.steps exit s, ?_, ?_, ?_⟩
  · simp only [Graph.turn, hb, he, Option.map_some]
  · simp only [turn, ofClosed, placed, List.getElem?_toArray, List.getElem?_map, hplace, Option.map_some, he,
      Option.getD_some, Calls.block]
    cases hs : b.steps.forM calls.act s with
    | error e t => rw [bind_of_error hs, bind_of_error hs]
    | ok u t => rw [bind_of_ok hs, bind_of_ok hs, Exit.leave_map]
  · intro next t hr
    obtain ⟨_, u, -, hl⟩ := bind_eq_ok.mp hr
    exact ht _ (Exit.leave_mem_targets hl)

theorem simulates_ofClosed {g : Graph} (h : g.Closed) (calls : Calls (EStateM ε σ)) :
    Simulates ((ofClosed g).turn calls)
      (fun offset s place t => offset ∈ g.offsets ∧ place = g.offsets.idxOf offset ∧ s = t)
      (· = ·) (g.turn calls) := by
  rintro offset s place t ⟨ho, rfl, rfl⟩
  obtain ⟨result, hg, ht, hnext⟩ := turn_ofClosed calls h ho s
  rw [hg]
  match result with
  | .ok (some next) u => exact .step ht (.next .refl ⟨hnext next u rfl, rfl, rfl⟩)
  | .ok none u => exact .done ht rfl
  | .error e u => exact .fail ht rfl

theorem runs_ofClosed {g : Graph} (h : g.Closed) (calls : Calls (EStateM ε σ))
    (ho : offset ∈ g.offsets) :
    Runs ((ofClosed g).turn calls) (g.offsets.idxOf offset) s r ↔ Runs (g.turn calls) offset s r := by
  constructor
  · intro hr
    obtain ⟨_, hr', rfl⟩ := (simulates_ofClosed h calls).backward ⟨ho, rfl, rfl⟩ hr
    exact hr'
  · intro hr
    obtain ⟨_, hr', rfl⟩ := (simulates_ofClosed h calls).forward ⟨ho, rfl, rfl⟩ hr
    exact hr'

end Threaded

end ActionVm
