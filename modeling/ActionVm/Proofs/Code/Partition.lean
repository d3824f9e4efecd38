import ActionVm.Proofs.Code.Sweep

namespace ActionVm

namespace Read

/-- The reader fails only where the input ends. -/
def RunsOut (x : Read α) : Prop :=
  ∀ input e stop, x input = .error e stop → ∃ offset wanted, e = .endOfInput offset wanted

namespace RunsOut

theorem of_total {x : Read α} (h : ∀ input, ∃ a after, x input = .ok a after) : RunsOut x := by
  intro input e stop herror
  obtain ⟨a, after, hok⟩ := h input
  cases hok.symm.trans herror

theorem bind {x : Read α} {f : α → Read β} (hx : RunsOut x) (hf : ∀ a, RunsOut (f a)) :
    RunsOut (x >>= f) := by
  intro input e stop h
  obtain h | ⟨a, middle, -, h⟩ := bind_eq_error.mp h
  · exact hx _ _ _ h
  · exact hf a _ _ _ h

theorem bytes (count : Nat) : RunsOut (Read.bytes count) := by
  intro input e stop h
  unfold Read.bytes at h
  split at h
  · cases h
  · cases h
    exact ⟨_, _, rfl⟩

theorem law : PlainLaw fun _ x => RunsOut x where
  pure a := of_total fun _ => ⟨a, _, rfl⟩
  bind := bind
  position := of_total fun _ => ⟨_, _, rfl⟩
  bytes := bytes
  note _ _ := of_total fun _ => ⟨_, _, rfl⟩

end RunsOut

end Read

namespace Instruction

/-- The code ends before the instruction at `offset` does. -/
def CutShort (code : Bytes) (offset : Nat) : Prop :=
  ∃ position wanted, decode code offset = .error (.endOfInput position wanted)

/-- The bytes of a code where an instruction stands. -/
def bytesIn (i : Instruction) (code : Bytes) : Bytes :=
  (code.drop i.offset).take (i.next - i.offset)

/-- Whether the byte at a place belongs to an instruction. -/
def covers (i : Instruction) (place : Nat) : Bool :=
  i.offset ≤ place && place < i.next

/-- An instruction of a code: what is decoded at its offset. It depends on its own bytes alone, and on all of
them. -/
structure StandsIn (i : Instruction) (code : Bytes) : Prop where
  lt_next : i.offset < i.next
  next_le : i.next ≤ code.length
  decode_eq : decode code i.offset = .ok i
  alone : ∀ other, i.bytesIn other = i.bytesIn code → decode other i.offset = .ok i
  cutShort : ∀ place < i.next, CutShort (code.take place) i.offset

section Reading

variable {code : Bytes} {start : Nat} {i : Instruction} {after stop : Input}

theorem decode_of_ok (h : read start { rest := code.drop start } = .ok i after) : decode code start = .ok i := by
  rw [decode, h]

theorem decode_of_error (h : read start { rest := code.drop start } = .error e stop) :
    decode code start = .error e := by
  rw [decode, h]

theorem next_of_read {input : Input} (h : read start input = .ok i after) : i.next = start + after.position := by
  obtain ⟨_, _, -, h⟩ := bind_eq_ok.mp h
  obtain ⟨_, _, -, h⟩ := bind_eq_ok.mp h
  obtain ⟨length, _, hlength, h⟩ := bind_eq_ok.mp h
  obtain ⟨rfl, rfl⟩ := pure_eq_ok.mp h
  cases hlength
  rfl

theorem takes_read (h : read start { rest := code.drop start } = .ok i after) :
    Read.Takes (read start) { rest := code.drop start } (i.bytesIn code) i after ∧
      i.next = start + (i.bytesIn code).length := by
  obtain ⟨taken, htaken⟩ := (obeys Read.Consumes.law.toPlainLaw start).takes _ _ _ h
  have hnext : i.next = start + taken.length := by
    rw [next_of_read h, htaken.position, Nat.zero_add]
  have hrest : code.drop start = taken ++ after.rest := htaken.rest
  have hbytes : i.bytesIn code = taken := by
    rw [bytesIn, (read_eq_ok h).1, hnext, Nat.add_sub_cancel_left, hrest, List.take_left]
  rw [hbytes]
  exact ⟨htaken, hnext⟩

theorem drop_next (h : read start { rest := code.drop start } = .ok i after) :
    code.drop i.next = after.rest := by
  obtain ⟨htakes, hnext⟩ := takes_read h
  have hrest : code.drop start = i.bytesIn code ++ after.rest := htakes.rest
  rw [hnext, ← List.drop_drop, hrest, List.drop_left]

theorem next_le_length (hs : start ≤ code.length) (h : read start { rest := code.drop start } = .ok i after) :
    i.next ≤ code.length := by
  obtain ⟨htakes, hnext⟩ := takes_read h
  have hlength := congrArg List.length htakes.rest
  rw [List.length_drop, List.length_append] at hlength
  omega

theorem standsIn_of_read (hs : start ≤ code.length) (h : read start { rest := code.drop start } = .ok i after) :
    i.StandsIn code := by
  obtain ⟨rfl, hlt, -⟩ := read_eq_ok h
  obtain ⟨htakes, hnext⟩ := takes_read h
  refine ⟨hlt, next_le_length hs h, decode_of_ok h, ?_, ?_⟩
  · intro other hother
    have hdrop : other.drop i.offset = i.bytesIn code ++ (other.drop i.offset).drop (i.next - i.offset) := by
      rw [← hother, bytesIn, List.take_append_drop]
    have hread := htakes.follow ((other.drop i.offset).drop (i.next - i.offset))
    rw [← hdrop] at hread
    exact decode_of_ok hread
  · intro place hplace
    -- What is left of the instruction is a shorter beginning of its bytes.
    have hcut : (code.take place).drop i.offset = (i.bytesIn code).take (place - i.offset) := by
      rw [bytesIn, List.take_take, List.drop_take, Nat.min_eq_left (by omega)]
    have hne : (i.bytesIn code).take (place - i.offset) ≠ i.bytesIn code := by
      intro he
      have hlength := congrArg List.length he
      rw [List.length_take] at hlength
      omega
    obtain ⟨position, wanted, stop, hread⟩ := htakes.short _ (List.take_prefix _ _) hne
    rw [← hcut] at hread
    exact ⟨position, wanted, decode_of_error hread⟩

theorem cutShort_of_error (h : read start { rest := code.drop start } = .error e stop) :
    CutShort code start := by
  obtain ⟨position, wanted, rfl⟩ := obeys Read.RunsOut.law start _ _ _ h
  exact ⟨position, wanted, decode_of_error h⟩

end Reading

theorem standsIn_of_mem_sweepFrom {code : Bytes} (hs : start ≤ code.length)
    (hi : i ∈ sweepFrom fuel start (code.drop start)) : i.StandsIn code := by
  induction fuel generalizing start with
  | zero => cases hi
  | succ fuel ih =>
    unfold sweepFrom at hi
    split at hi
    · rename_i first after h
      rw [← drop_next h] at hi
      rcases List.mem_cons.mp hi with rfl | hi
      · exact standsIn_of_read hs h
      · exact ih (next_le_length hs h) hi
    · cases hi

/-- A sweep with enough fuel stops at the end of the code, or where the code ends too early. -/
theorem exists_tile_sweepFrom {code : Bytes} (hs : start ≤ code.length) (hfuel : code.length ≤ start + fuel) :
    ∃ stop ≤ code.length, Tile start (sweepFrom fuel start (code.drop start)) stop ∧
      (stop = code.length ∨ CutShort code stop) := by
  induction fuel generalizing start with
  | zero => exact ⟨start, hs, rfl, .inl (Nat.le_antisymm hs hfuel)⟩
  | succ fuel ih =>
    unfold sweepFrom
    split
    · rename_i i after h
      obtain ⟨hoffset, hlt, -⟩ := read_eq_ok h
      -- An instruction takes a byte at least, so the fuel lasts behind it too.
      have hfuel' : code.length ≤ i.next + fuel := by omega
      obtain ⟨stop, hstop, htile, hend⟩ := ih (next_le_length hs h) hfuel'
      rw [drop_next h] at htile
      exact ⟨stop, hstop, ⟨hoffset, hlt, htile⟩, hend⟩
    · rename_i h
      exact ⟨start, hs, rfl, .inr (cutShort_of_error h)⟩

namespace Tile

theorem add_length_le (h : Tile start l stop) : start + l.length ≤ stop := by
  induction l generalizing start with
  | nil => exact Nat.le_of_eq h
  | cons i rest ih =>
    obtain ⟨-, hlt, hrest⟩ := h
    have hle := ih hrest
    rw [List.length_cons]
    omega

/-- The bytes between the two offsets belong to one instruction each, and all others to none. -/
theorem countP_covers (h : Tile start l stop) (place : Nat) :
    l.countP (·.covers place) = if start ≤ place ∧ place < stop then 1 else 0 := by
  induction l generalizing start with
  | nil =>
    cases h
    rw [List.countP_nil, if_neg (by omega)]
  | cons i rest ih =>
    obtain ⟨rfl, hlt, hrest⟩ := h
    have hle := hrest.add_length_le
    rw [List.countP_cons, ih hrest]
    simp only [covers, Bool.and_eq_true, decide_eq_true_eq]
    split <;> split <;> split <;> omega

theorem flatMap_bytesIn (h : Tile start l stop) (code : Bytes) :
    l.flatMap (·.bytesIn code) = (code.take stop).drop start := by
  induction l generalizing start with
  | nil =>
    cases h
    rw [List.flatMap_nil, List.drop_take, Nat.sub_self, List.take_zero]
  | cons i rest ih =>
    obtain ⟨rfl, hlt, hrest⟩ := h
    have hle := hrest.add_length_le
    have hfirst : i.bytesIn code = ((code.take stop).drop i.offset).take (i.next - i.offset) := by
      rw [bytesIn, List.drop_take, List.take_take, Nat.min_eq_left (by omega)]
    have hbehind : (code.take stop).drop i.next = ((code.take stop).drop i.offset).drop (i.next - i.offset) := by
      rw [List.drop_drop, Nat.add_sub_cancel' (Nat.le_of_lt hlt)]
    rw [List.flatMap_cons, ih hrest, hfirst, hbehind, List.take_append_drop]

end Tile

/-- The sweep cuts a code into instructions. They lie end to end from the start of the code on; each is
decoded from its own bytes, whatever stands around them; and they stop where the code ends or where it
ends too early. So every byte before that place belongs to one instruction, and none behind it does. -/
theorem sweep_partitions_code (code : Bytes) :
    ∃ stop ≤ code.length, Tile 0 (sweep code) stop ∧ (stop = code.length ∨ CutShort code stop) ∧
      (∀ i ∈ sweep code, i.StandsIn code) ∧
      (∀ place, (sweep code).countP (·.covers place) = if place < stop then 1 else 0) ∧
      (sweep code).flatMap (·.bytesIn code) = code.take stop ∧ (sweep code).length ≤ stop := by
  obtain ⟨stop, hstop, htile, hend⟩ :=
    exists_tile_sweepFrom (Nat.zero_le code.length) (Nat.le_add_left code.length 0)
  change Tile 0 (sweep code) stop at htile
  refine ⟨stop, hstop, htile, hend, ?_, ?_, htile.flatMap_bytesIn code, ?_⟩
  · intro i hi
    exact standsIn_of_mem_sweepFrom (Nat.zero_le code.length) hi
  · intro place
    simpa using htile.countP_covers place
  · simpa using htile.add_length_le

-- A switch of 2 ^ 30 cases, none of which is there, ends the sweep before it.
example :
    let code : Bytes := [0x24, 5, 0x1b, 0, 0, 0, 0xff, 0xff, 0xff, 0xff, 0x03]
    (sweep code).map next = [2] ∧ decode code 2 = .error (.endOfInput 9 3) :=
  ⟨rfl, rfl⟩

end Instruction

end ActionVm
