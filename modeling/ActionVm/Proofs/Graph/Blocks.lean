import ActionVm.Proofs.Code.Sweep
import ActionVm.Proofs.Graph.Direct
import ActionVm.Proofs.Graph.Threading

namespace ActionVm

def loads (pending : List UInt32) : List Step :=
  (pending.map fun i => { action := .getLocal, a := i }).reverse

abbrev Remainder := List Step × Exit

namespace Remainder

def prepend (steps : List Step) (r : Remainder) : Remainder :=
  (steps ++ r.1, r.2)

end Remainder

namespace Effect

/-- The rest of a block from an instruction on, when loads wait and the code behind it gives `more`.
-/
def lower (pending : List UInt32) (more : List UInt32 → Remainder) : Effect → Remainder
  | load index => more (index :: pending)
  | store index =>
    match pending with
    | [] => (more []).prepend [{ action := .setLocal, a := index }]
    | source :: older =>
      if source = index then more older
      else if older.contains index then
        (more []).prepend (loads older ++ [{ action := .copyLocal, a := source, b := index }])
      else (more older).prepend [{ action := .copyLocal, a := source, b := index }]
  | dup =>
    match pending with
    | top :: _ => more (top :: pending)
    | [] => (more []).prepend [{ action := .dup }]
  | pop =>
    match pending with
    | _ :: older => more older
    | [] => (more []).prepend [{ action := .pop }]
  | returnValue =>
    match pending with
    | index :: _ => ([{ action := .returnLocal, a := index }], .ret)
    | [] => ([{ action := .returnValue }], .ret)
  | returnVoid => ([], .ret)
  | skip => more pending
  | leave exit => (loads pending, exit)
  | act step => (more []).prepend (loads pending ++ [step])
  | unknown byte => ([trapStep byte], .ret)
  | unsupported byte => (loads pending ++ [trapStep byte], .ret)

end Effect

section Shape

variable (code : Bytes) (starts : List Nat)

/-- The rest of the block at `offset` before some instructions. It ends at the next start at the
latest, and traps where the instructions end. -/
def after (offset : Nat) : List Instruction → List UInt32 → Remainder
  | [], pending => (loads pending ++ [trapStep (code.getD offset 0)], .ret)
  | i :: rest, pending =>
    if i.offset ∈ starts then (loads pending, .jump i.offset)
    else i.effect.lower pending (after offset rest)

def blockAt (i : Instruction) (rest : List Instruction) : Block :=
  let body := i.effect.lower [] (after code starts i.offset rest)
  { offset := i.offset, steps := body.1, exit := some body.2 }

def filled : List Instruction → List Block
  | [] => []
  | i :: rest =>
    if i.offset ∈ starts then blockAt code starts i rest :: filled rest else filled rest

def trapBlock (offset : Nat) : Block :=
  { offset, steps := [trapStep (code.getD offset 0)], exit := some .ret }

end Shape

theorem mem_dropWhile_lt {l : List Nat} (h : n ≤ m) : m ∈ l.dropWhile (· < n) ↔ m ∈ l := by
  induction l with
  | nil => rfl
  | cons k rest ih =>
    by_cases hk : k < n
    · rw [List.dropWhile_cons_of_pos (by simpa using hk), ih, List.mem_cons]
      have hne : m ≠ k := by omega
      simp [hne]
    · rw [List.dropWhile_cons_of_neg (by simpa using hk)]

theorem head?_dropWhile_lt {l : List Nat} (h : l.Pairwise (· < ·)) :
    (l.dropWhile (· < n)).head? = some n ↔ n ∈ l := by
  induction l with
  | nil => simp
  | cons k rest ih =>
    obtain ⟨hk, hrest⟩ := List.pairwise_cons.mp h
    by_cases hkn : k < n
    · rw [List.dropWhile_cons_of_pos (by simpa using hkn), ih hrest, List.mem_cons]
      have hne : n ≠ k := by omega
      simp [hne]
    · rw [List.dropWhile_cons_of_neg (by simpa using hkn), List.head?_cons, List.mem_cons]
      constructor
      · intro he
        exact .inl (Option.some.inj he).symm
      · rintro (rfl | hm)
        · rfl
        · exact absurd (hk n hm) hkn

namespace Walk

/-- The blocks of a walk so far. The open one is finished by what `rest` gives for its offset and
the loads that wait. -/
def blocks (w : Walk) (rest : Nat → List UInt32 → Remainder) : List Block :=
  w.closed.reverse ++ w.current.toList.map fun offset =>
    { offset, steps := w.steps.reverse ++ (rest offset w.pending).1,
      exit := some (rest offset w.pending).2 }

def Tidy (w : Walk) : Prop :=
  w.current = none → w.steps = [] ∧ w.pending = []

theorem blocks_apply {w : Walk} (h : w.current = some offset) (e : Effect)
    (rest : Nat → List UInt32 → Remainder) :
    (w.apply e).blocks rest = w.blocks fun o pending => e.lower pending (rest o) := by
  obtain ⟨closed, current, steps, pending⟩ := w
  cases h
  cases e with
  | store index =>
    cases pending with
    | nil => simp [apply, store, emit, blocks, Effect.lower, Remainder.prepend]
    | cons source older =>
      simp only [apply, store, blocks, Effect.lower]
      split
      · rfl
      · split <;> simp [flush, emit, Remainder.prepend, loads]
  | dup => cases pending <;> simp [apply, emit, blocks, Effect.lower, Remainder.prepend]
  | pop => cases pending <;> simp [apply, emit, blocks, Effect.lower, Remainder.prepend]
  | returnValue => cases pending <;> simp [apply, emit, close, blocks, Effect.lower]
  | load | returnVoid | skip | leave | act | unknown | unsupported =>
    simp [apply, flush, emit, close, blocks, Effect.lower, Remainder.prepend, loads]

theorem current_apply {w : Walk} (h : w.current = some offset) (i : Instruction)
    (hi : i.isSupported) : (w.apply i.effect).current.isSome = !i.leaves := by
  obtain ⟨closed, current, steps, pending⟩ := w
  cases h
  unfold Instruction.isSupported at hi
  unfold Instruction.leaves
  cases he : i.effect with
  | store index =>
    cases pending with
    | nil => rfl
    | cons source older =>
      simp only [apply, store]
      split
      · rfl
      · split <;> rfl
  | dup => cases pending <;> rfl
  | pop => cases pending <;> rfl
  | returnValue => cases pending <;> rfl
  | unknown => simp [he] at hi
  | unsupported => simp [he] at hi
  | load | returnVoid | skip | leave | act => rfl

theorem tidy_apply {w : Walk} (h : w.current = some offset) (e : Effect) : (w.apply e).Tidy := by
  obtain ⟨closed, current, steps, pending⟩ := w
  cases h
  cases e with
  | store index =>
    cases pending with
    | nil => exact nofun
    | cons source older =>
      simp only [apply, store]
      split
      · exact nofun
      · split <;> exact nofun
  | dup => cases pending <;> exact nofun
  | pop => cases pending <;> exact nofun
  | returnValue => cases pending <;> exact fun _ => ⟨rfl, rfl⟩
  | load | skip | act => exact nofun
  | returnVoid | leave | unknown | unsupported => exact fun _ => ⟨rfl, rfl⟩

theorem blocks_enter {w : Walk} (h : w.Tidy) (start : Nat) (rest : Nat → List UInt32 → Remainder) :
    (w.enter start).blocks rest =
      (w.blocks fun _ pending => (loads pending, .jump start)) ++
        [{ offset := start, steps := (rest start []).1, exit := some (rest start []).2 }] := by
  obtain ⟨closed, current, steps, pending⟩ := w
  cases current with
  | none =>
    obtain ⟨rfl, rfl⟩ := h rfl
    simp [enter, blocks]
  | some offset => simp [enter, flush, close, blocks, loads]

theorem finish_eq (w : Walk) (code : Bytes) (starts : List Nat) :
    w.finish code = w.blocks fun offset => after code starts offset [] := by
  obtain ⟨closed, current, steps, pending⟩ := w
  cases current <;> simp [finish, flush, emit, close, blocks, after, loads]

theorem run_cons (starts : List Nat) (w : Walk) (i : Instruction) (rest : List Instruction) :
    run starts w (i :: rest) =
      let starts := starts.dropWhile (· < i.offset)
      let w := if starts.head? = some i.offset then w.enter i.offset else w
      if w.current.isNone then run starts w rest
      else if i.isSupported then run starts (w.apply i.effect) rest
      else w.apply i.effect := by
  rw [run]
  unfold Instruction.isSupported
  cases i.effect <;> rfl

/-- The blocks that a walk fills are those of the instructions it covers. -/
theorem finish_run {code : Bytes} {all : List Nat} (hl : Instruction.Tile start l stop)
    (hs : starts.Pairwise (· < ·)) (hall : ∀ i ∈ l, i.offset ∈ starts ↔ i.offset ∈ all)
    {w : Walk} (hw : w.Tidy) :
    (run starts w l).finish code =
      (w.blocks fun offset => after code all offset (Instruction.covered all w.current.isSome l)) ++
        filled code all (Instruction.covered all w.current.isSome l) := by
  induction l generalizing start starts w with
  | nil => simp [run, Instruction.covered, filled, finish_eq w code all]
  | cons i rest ih =>
    have hi : (starts.dropWhile (· < i.offset)).head? = some i.offset ↔ i.offset ∈ all :=
      (head?_dropWhile_lt hs).trans (hall i List.mem_cons_self)
    have hs' := hs.sublist (List.dropWhile_sublist (· < i.offset))
    have hall' : ∀ j ∈ rest, j.offset ∈ starts.dropWhile (· < i.offset) ↔ j.offset ∈ all := by
      intro j hj
      rw [mem_dropWhile_lt (Nat.le_of_lt (hl.lt_offset j hj))]
      exact hall j (List.mem_cons_of_mem _ hj)
    rw [run_cons]
    by_cases hmem : i.offset ∈ all
    · -- The instruction opens a block, which ends the one before it.
      have hopen : (w.enter i.offset).current = some i.offset := rfl
      simp only [hi.mpr hmem, ↓reduceIte, hopen, Option.isNone_some, Bool.false_eq_true,
        Instruction.covered, List.contains_iff_mem.mpr hmem, Bool.or_true, Bool.true_and]
      cases hsup : i.isSupported with
      | true =>
        rw [if_pos rfl, ih hl.2.2 hs' hall' (tidy_apply hopen _), blocks_apply hopen, blocks_enter hw,
          current_apply hopen i hsup]
        simp [after, filled, hmem, blockAt]
      | false =>
        rw [if_neg (by simp), finish_eq _ code all, blocks_apply hopen, blocks_enter hw]
        simp [after, filled, hmem, blockAt]
    · simp only [hi, hmem, ↓reduceIte, Instruction.covered]
      have hnot : all.contains i.offset = false := by simpa using hmem
      cases hw' : w.current with
      | none =>
        have hcur : w.current.isSome = false := by rw [hw']; rfl
        rw [hnot, if_pos (by rfl), ih hl.2.2 hs' hall' hw, hcur]
        simp [after, filled, hmem, blocks, hw']
      | some offset =>
        cases hsup : i.isSupported with
        | true =>
          rw [if_neg (by simp), if_pos rfl, ih hl.2.2 hs' hall' (tidy_apply hw' _), blocks_apply hw',
            current_apply hw' i hsup]
          simp [after, filled, hmem]
        | false =>
          rw [if_neg (by simp), if_neg (by simp), finish_eq _ code all, blocks_apply hw']
          simp [after, filled, hmem]

end Walk

theorem mem_blockStarts {instructions : List Instruction} :
    start ∈ blockStarts instructions ↔
      start = 0 ∨ ∃ i ∈ instructions, start ∈ i.starts := by
  have hfold (l : List Nat) : start ∈ l.foldr insertOffset [0] ↔ start = 0 ∨ start ∈ l := by
    induction l with
    | nil => simp
    | cons n rest ih =>
      rw [List.foldr_cons, mem_insertOffset, ih, List.mem_cons]
      exact or_left_comm
  rw [blockStarts, hfold, List.mem_flatMap]

theorem blockStarts_eq_cons (instructions : List Instruction) :
    blockStarts instructions = 0 :: (blockStarts instructions).tail :=
  Graph.eq_zero_cons (pairwise_blockStarts instructions) (mem_blockStarts.mpr (.inl rfl))

namespace Instruction

theorem covered_isPrefix (starts : List Nat) (live : Bool) (l : List Instruction) :
    covered starts live l <+: l := by
  induction l generalizing live with
  | nil => exact List.prefix_rfl
  | cons i rest ih =>
    simp only [covered]
    split
    · exact ⟨rest, rfl⟩
    · exact (List.prefix_cons_inj i).mpr (ih _)

theorem tile_known (code : Bytes) : ∃ stop, Tile 0 (known code) stop := by
  obtain ⟨stop, h⟩ := tile_sweep code
  exact h.of_isPrefix (covered_isPrefix _ _ _)

end Instruction

theorem mem_filled (h : b ∈ filled code starts l) :
    ∃ i ∈ l, b.offset = i.offset ∧ i.offset ∈ starts := by
  induction l with
  | nil => cases h
  | cons i rest ih =>
    unfold filled at h
    split at h
    · rename_i hi
      rcases List.mem_cons.mp h with rfl | h
      · exact ⟨i, List.mem_cons_self, rfl, hi⟩
      · obtain ⟨j, hj, ho⟩ := ih h
        exact ⟨j, List.mem_cons_of_mem _ hj, ho⟩
    · obtain ⟨j, hj, ho⟩ := ih h
      exact ⟨j, List.mem_cons_of_mem _ hj, ho⟩

theorem pairwise_filled (h : Instruction.Tile start l stop) :
    (filled code starts l).Pairwise (·.offset < ·.offset) := by
  induction l generalizing start with
  | nil => exact .nil
  | cons i rest ih =>
    unfold filled
    split
    · refine List.pairwise_cons.mpr ⟨fun b hb => ?_, ih h.2.2⟩
      obtain ⟨j, hj, ho, -⟩ := mem_filled hb
      rw [ho]
      exact h.lt_offset j hj
    · exact ih h.2.2

theorem find?_filled (h : Instruction.Tile start (before ++ i :: rest) stop) (hi : i.offset ∈ starts) :
    (filled code starts (before ++ i :: rest)).find? (·.offset = i.offset) =
      some (blockAt code starts i rest) := by
  induction before generalizing start with
  | nil => simp [filled, hi, blockAt]
  | cons j before ih =>
    have hlt : j.offset ≠ i.offset := Nat.ne_of_lt (h.lt_offset i (by simp))
    rw [List.cons_append, filled]
    split
    · rw [List.find?_cons_of_neg (by simp [blockAt, hlt])]
      exact ih h.2.2
    · exact ih h.2.2

theorem find?_filled_eq_none (h : ∀ i ∈ l, i.offset ≠ start) :
    (filled code starts l).find? (·.offset = start) = none := by
  rw [List.find?_eq_none]
  intro b hb
  obtain ⟨i, hi, ho, -⟩ := mem_filled hb
  simpa [ho] using h i hi

theorem offsets_behind_match {b : Block} {bs : List Block}
    (hb : (b :: bs).Pairwise (·.offset < ·.offset))
    (hmem : ∀ c ∈ b :: bs, c.offset ∈ b.offset :: rest) : ∀ c ∈ bs, c.offset ∈ rest := by
  intro c hc
  have hlt := (List.pairwise_cons.mp hb).1 c hc
  exact (List.mem_cons.mp (hmem c (List.mem_cons_of_mem _ hc))).resolve_left (Nat.ne_of_gt hlt)

theorem offsets_behind_gap {b : Block} {bs : List Block} (hn : ∀ m ∈ rest, n < m)
    (hb : (b :: bs).Pairwise (·.offset < ·.offset))
    (hmem : ∀ c ∈ b :: bs, c.offset ∈ n :: rest) (hne : b.offset ≠ n) :
    ∀ c ∈ b :: bs, c.offset ∈ rest := by
  have hfirst : b.offset ∈ rest := (List.mem_cons.mp (hmem b List.mem_cons_self)).resolve_left hne
  intro c hc
  cases List.mem_cons.mp hc with
  | inl he => exact he ▸ hfirst
  | inr hc' =>
    have hlt := Nat.lt_trans (hn _ hfirst) ((List.pairwise_cons.mp hb).1 c hc')
    exact (List.mem_cons.mp (hmem c hc)).resolve_left (Nat.ne_of_gt hlt)

theorem find?_fillBlocks (hs : starts.Pairwise (· < ·)) (hb : bs.Pairwise (·.offset < ·.offset))
    (hmem : ∀ b ∈ bs, b.offset ∈ starts) (h : start ∈ starts) :
    (fillBlocks code starts bs).find? (·.offset = start) =
      some ((bs.find? (·.offset = start)).getD (trapBlock code start)) := by
  induction starts generalizing bs with
  | nil => cases h
  | cons n rest ih =>
    obtain ⟨hn, hrest⟩ := List.pairwise_cons.mp hs
    have hin (hne : n ≠ start) : start ∈ rest := (List.mem_cons.mp h).resolve_left hne.symm
    cases bs with
    | nil =>
      simp only [fillBlocks]
      by_cases he : n = start
      · simp [trapBlock, he]
      · rw [List.find?_cons_of_neg (by simpa using he)]
        exact ih hrest .nil (by simp) (hin he)
    | cons b bs =>
      simp only [fillBlocks]
      split
      · rename_i hbn
        subst hbn
        by_cases he : b.offset = start
        · simp [he]
        · rw [List.find?_cons_of_neg (by simpa using he), List.find?_cons_of_neg (by simpa using he)]
          exact ih hrest (List.pairwise_cons.mp hb).2 (offsets_behind_match hb hmem) (hin he)
      · rename_i hbn
        have hmem' := offsets_behind_gap hn hb hmem hbn
        by_cases he : n = start
        · -- The offsets of the blocks left are all above this start.
          have hnone : (b :: bs).find? (·.offset = start) = none := by
            rw [List.find?_eq_none]
            intro c hc
            have hlt := hn _ (hmem' c hc)
            simp only [decide_eq_true_eq]
            omega
          rw [hnone]
          simp [trapBlock, he]
        · rw [List.find?_cons_of_neg (by simpa using he)]
          exact ih hrest hb hmem' (hin he)

namespace Graph

/-- The graph of a code: a block at every start, made from the known instructions there. -/
theorem blocks_ofCode (code : Bytes) :
    (ofCode code).blocks =
      fillBlocks code (blockStarts (Instruction.sweep code))
        (filled code (blockStarts (Instruction.sweep code)) (Instruction.known code)) := by
  have hcons := blockStarts_eq_cons (Instruction.sweep code)
  have hs := pairwise_blockStarts (Instruction.sweep code)
  obtain ⟨stop, htile⟩ := Instruction.tile_sweep code
  unfold ofCode Instruction.known
  dsimp only
  generalize blockStarts (Instruction.sweep code) = starts at *
  obtain ⟨later, rfl⟩ : ∃ later, starts = 0 :: later := ⟨_, hcons⟩
  obtain ⟨hpos, hlater⟩ := List.pairwise_cons.mp hs
  rw [List.tail_cons]
  cases hl : Instruction.sweep code with
  | nil => simp [Walk.run, Walk.finish_eq _ code [], Walk.blocks, after, loads, Instruction.covered,
      filled, fillBlocks]
  | cons i rest =>
    rw [hl] at htile
    have hi : i.offset = 0 := htile.1
    have hnot : ¬(later.dropWhile (· < i.offset)).head? = some i.offset := by
      rw [head?_dropWhile_lt hlater, hi]
      exact fun hm => Nat.lt_irrefl 0 (hpos 0 hm)
    have hall : ∀ j ∈ rest, j.offset ∈ later.dropWhile (· < i.offset) ↔ j.offset ∈ 0 :: later := by
      intro j hj
      have hlt := htile.lt_offset j hj
      have hne : j.offset ≠ 0 := by omega
      rw [mem_dropWhile_lt (Nat.le_of_lt hlt)]
      simp [hne]
    have hopen : (({} : Walk)).current = some 0 := rfl
    congr 1
    rw [Walk.run_cons]
    simp only [hnot, ↓reduceIte, hopen, Option.isNone_some, Bool.false_eq_true, Instruction.covered,
      Bool.true_or, Bool.true_and]
    cases hsup : i.isSupported with
    | true =>
      rw [if_pos rfl, Walk.finish_run htile.2.2
        (hlater.sublist (List.dropWhile_sublist _)) hall (Walk.tidy_apply hopen _),
        Walk.blocks_apply hopen, Walk.current_apply hopen i hsup]
      simp [Walk.blocks, filled, blockAt, hi]
    | false =>
      rw [if_neg (by simp), Walk.finish_eq _ code (0 :: later), Walk.blocks_apply hopen]
      simp [Walk.blocks, filled, blockAt, hi]

theorem offsets_ofCode (code : Bytes) :
    (ofCode code).offsets = blockStarts (Instruction.sweep code) :=
  map_offset_fillBlocks _ _ _

theorem block?_ofCode (h : start ∈ blockStarts (Instruction.sweep code)) :
    (ofCode code).block? start =
      some (((filled code (blockStarts (Instruction.sweep code)) (Instruction.known code)).find?
        (·.offset = start)).getD (trapBlock code start)) := by
  obtain ⟨stop, htile⟩ := Instruction.tile_known code
  rw [block?, blocks_ofCode]
  refine find?_fillBlocks (pairwise_blockStarts _) (pairwise_filled htile) ?_ h
  intro b hb
  obtain ⟨i, -, ho, hi⟩ := mem_filled hb
  rw [ho]
  exact hi

theorem block?_of_known (h : Instruction.known code = before ++ i :: rest)
    (hi : i.offset ∈ blockStarts (Instruction.sweep code)) :
    (ofCode code).block? i.offset =
      some (blockAt code (blockStarts (Instruction.sweep code)) i rest) := by
  obtain ⟨stop, htile⟩ := Instruction.tile_known code
  rw [h] at htile
  rw [block?_ofCode hi, h, find?_filled htile hi]
  rfl

theorem block?_of_unknown (hs : start ∈ blockStarts (Instruction.sweep code))
    (h : ∀ i ∈ Instruction.known code, i.offset ≠ start) :
    (ofCode code).block? start = some (trapBlock code start) := by
  rw [block?_ofCode hs, find?_filled_eq_none h]
  rfl

theorem made_of_mem_ofCode (hb : b ∈ (ofCode code).blocks) :
    (∃ before i rest, Instruction.known code = before ++ i :: rest ∧
      b = blockAt code (blockStarts (Instruction.sweep code)) i rest) ∨
    b = trapBlock code b.offset := by
  have hoffset : b.offset ∈ blockStarts (Instruction.sweep code) :=
    offsets_ofCode code ▸ List.mem_map_of_mem hb
  have hfound := block?_of_mem hb
  by_cases h : ∃ i ∈ Instruction.known code, i.offset = b.offset
  · obtain ⟨i, hi, ho⟩ := h
    obtain ⟨before, rest, hk⟩ := List.append_of_mem hi
    rw [← ho] at hoffset
    rw [← ho, block?_of_known hk hoffset] at hfound
    exact .inl ⟨before, i, rest, hk, (Option.some.inj hfound).symm⟩
  · have hnone : ∀ i ∈ Instruction.known code, i.offset ≠ b.offset := fun i hi he => h ⟨i, hi, he⟩
    rw [block?_of_unknown hoffset hnone] at hfound
    exact .inr (Option.some.inj hfound).symm

end Graph

end ActionVm
