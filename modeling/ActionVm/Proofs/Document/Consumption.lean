import ActionVm.Proofs.Bytes.Words
import ActionVm.Proofs.Document.Traversal
import ActionVm.Proofs.Program

namespace ActionVm

namespace Read

theorem bytes_eq_ok {input after : Input} :
    bytes count input = .ok taken after ↔
      input.rest = taken ++ after.rest ∧ taken.length = count ∧
        after = { input with rest := after.rest, position := input.position + count } := by
  unfold bytes
  constructor
  · intro h
    split at h
    · rename_i taken' rest hs
      cases h
      obtain ⟨hr, hlen⟩ := Bytes.split?_eq_some.mp hs
      exact ⟨hr, hlen, rfl⟩
    · cases h
  · rintro ⟨hr, hlen, ha⟩
    rw [Bytes.split?_eq_some.mpr ⟨hr, hlen⟩]
    exact congrArg (EStateM.Result.ok taken) ha.symm

theorem bytes_of_short {input : Input} (h : input.rest.length < count) :
    bytes count input = .error (.endOfInput input.position count) input := by
  have hnone : Bytes.split? count input.rest = none := by
    refine Option.eq_none_iff_forall_not_mem.mpr fun (taken, rest) hs => ?_
    obtain ⟨hr, hlen⟩ := Bytes.split?_eq_some.mp hs
    rw [hr, List.length_append, hlen] at h
    exact Nat.not_lt.mpr (Nat.le_add_right ..) h
  rw [bytes, hnone]

/-- The reader gives `a` for the bytes `taken`. It counts them, gives the same whatever follows them,
and finds the input ended when some of them are missing. -/
structure Takes (x : Read α) (input : Input) (taken : Bytes) (a : α) (after : Input) : Prop where
  rest : input.rest = taken ++ after.rest
  position : after.position = input.position + taken.length
  follow : ∀ rest, x { input with rest := taken ++ rest } = .ok a { after with rest }
  short : ∀ cut, cut <+: taken → cut ≠ taken →
    ∃ offset wanted stop, x { input with rest := cut } = .error (.endOfInput offset wanted) stop

/-- The reader takes bytes from the front of the input, and decides by these alone. Only the end of the
input is an error that more input can mend. -/
structure Consumes (x : Read α) : Prop where
  takes : ∀ input a after, x input = .ok a after → ∃ taken, Takes x input taken a after
  stays : ∀ input e stop, x input = .error e stop → (∀ offset wanted, e ≠ .endOfInput offset wanted) →
    ∀ more, ∃ stop', x { input with rest := input.rest ++ more } = .error e stop'

theorem Takes.bind {x : Read α} {f : α → Read β} (hx : Takes x input taken a middle)
    (hf : Takes (f a) middle more b after) : Takes (x >>= f) input (taken ++ more) b after where
  rest := by rw [hx.rest, hf.rest, List.append_assoc]
  position := by rw [hf.position, hx.position, List.length_append, Nat.add_assoc]
  follow rest := by
    rw [List.append_assoc, bind_of_ok (hx.follow _)]
    exact hf.follow rest
  short cut hcut hne := by
    rcases List.prefix_or_prefix_of_prefix hcut (List.prefix_append taken more) with h | ⟨cut, rfl⟩
    · by_cases he : cut = taken
      · subst he
        -- All that the first reader needs is there, and nothing for the second one.
        obtain ⟨offset, wanted, stop, h⟩ := hf.short [] List.nil_prefix fun hnil =>
          hne (by rw [← hnil, List.append_nil])
        have hfirst := hx.follow []
        rw [List.append_nil] at hfirst
        exact ⟨offset, wanted, stop, (bind_of_ok hfirst).trans h⟩
      · obtain ⟨offset, wanted, stop, h⟩ := hx.short cut h he
        exact ⟨offset, wanted, stop, bind_of_error h⟩
    · obtain ⟨offset, wanted, stop, h⟩ := hf.short cut ((List.prefix_append_right_inj taken).mp hcut)
        fun he => hne (he ▸ rfl)
      exact ⟨offset, wanted, stop, (bind_of_ok (hx.follow cut)).trans h⟩

namespace Consumes

theorem of_nothing {x : Read α} (h : ∀ input : Input, ∃ a, ∃ after : Input,
    after.position = input.position ∧ ∀ rest, x { input with rest } = .ok a { after with rest }) :
    Consumes x where
  takes input a after hok := by
    obtain ⟨b, after', hposition, hx⟩ := h input
    cases (hx input.rest).symm.trans hok
    exact ⟨[], rfl, hposition, hx, fun cut hcut hne => absurd (List.prefix_nil.mp hcut) hne⟩
  stays input e stop herror := by
    obtain ⟨b, after, -, hx⟩ := h input
    cases (hx input.rest).symm.trans herror

theorem pure (a : α) : Consumes (Pure.pure a) :=
  of_nothing fun input => ⟨a, input, rfl, fun _ => rfl⟩

theorem position : Consumes Read.position :=
  of_nothing fun input => ⟨input.position, input, rfl, fun _ => rfl⟩

theorem note (anomaly : Anomaly) : Consumes (Read.note anomaly) :=
  of_nothing fun input =>
    ⟨(), { input with anomalies := input.anomalies ++ [anomaly] }, rfl, fun _ => rfl⟩

theorem throw (e : ReadError) : Consumes (throw e : Read α) where
  takes input a after h := by cases h
  stays input e' stop h _ more := by
    cases h
    exact ⟨_, rfl⟩

theorem bind {x : Read α} {f : α → Read β} (hx : Consumes x) (hf : ∀ a, Consumes (f a)) :
    Consumes (x >>= f) where
  takes input b after h := by
    obtain ⟨a, middle, h₁, h₂⟩ := bind_eq_ok.mp h
    obtain ⟨taken, htaken⟩ := hx.takes _ _ _ h₁
    obtain ⟨more, hmore⟩ := (hf a).takes _ _ _ h₂
    exact ⟨taken ++ more, htaken.bind hmore⟩
  stays input e stop h he more := by
    obtain h | ⟨a, middle, h₁, h₂⟩ := bind_eq_error.mp h
    · obtain ⟨stop', h'⟩ := hx.stays _ _ _ h he more
      exact ⟨stop', bind_of_error h'⟩
    · obtain ⟨taken, htaken⟩ := hx.takes _ _ _ h₁
      obtain ⟨stop', h'⟩ := (hf a).stays _ _ _ h₂ he more
      refine ⟨stop', ?_⟩
      rw [htaken.rest, List.append_assoc, bind_of_ok (htaken.follow _)]
      exact h'

theorem bytes (count : Nat) : Consumes (Read.bytes count) where
  takes input taken after h := by
    obtain ⟨hr, hlen, ha⟩ := bytes_eq_ok.mp h
    refine ⟨taken, hr, ?_, fun rest => ?_, fun cut hcut hne => ?_⟩
    · rw [hlen]
      exact congrArg Input.position ha
    · rw [ha]
      exact bytes_eq_ok.mpr ⟨rfl, hlen, rfl⟩
    · have hlt : cut.length < taken.length :=
        Nat.lt_of_le_of_ne hcut.length_le fun he => hne (hcut.eq_of_length he)
      exact ⟨_, _, _, bytes_of_short (hlen ▸ hlt)⟩
  stays input e stop h he := by
    unfold Read.bytes at h
    split at h
    · cases h
    · cases h
      exact absurd rfl (he _ _)

theorem law : Law fun _ x => Consumes x where
  pure := pure
  bind := bind
  throw := throw
  position := position
  bytes := bytes
  note anomaly _ := note anomaly

theorem u8 : Consumes Read.u8 :=
  law.u8

theorem u16 : Consumes Read.u16 :=
  law.u16

theorem d64 : Consumes Read.d64 :=
  law.d64

theorem u30 : Consumes Read.u30 :=
  law.u30

theorem u32 : Consumes Read.u32 :=
  law.u32

theorem s32 : Consumes Read.s32 :=
  law.s32

theorem times (count : Nat) {entry : Read α} (h : Consumes entry) : Consumes (Read.times count entry) :=
  law.times h count

end Consumes

theorem numbered_const (entry : Read α) (index count : Nat) :
    numbered (fun _ => entry) index count = times count entry := by
  induction count generalizing index with
  | zero => rfl
  | succ count ih => rw [numbered, times, ih]

theorem length_of_times {entry : Read α} (h : times n entry input = .ok l after) : l.length = n := by
  induction n generalizing input l after with
  | zero =>
    obtain ⟨rfl, -⟩ := pure_eq_ok.mp h
    rfl
  | succ n ih =>
    obtain ⟨first, _, -, h⟩ := bind_eq_ok.mp h
    obtain ⟨more, _, hmore, h⟩ := bind_eq_ok.mp h
    obtain ⟨rfl, -⟩ := pure_eq_ok.mp h
    rw [List.length_cons, ih hmore]

theorem u8_eq_ok {input after : Input} :
    u8 input = .ok b after ↔
      input.rest = b :: after.rest ∧
        after = { input with rest := after.rest, position := input.position + 1 } := by
  unfold u8
  rw [bind_eq_ok]
  constructor
  · rintro ⟨taken, middle, h, h'⟩
    obtain ⟨rfl, rfl⟩ := pure_eq_ok.mp h'
    obtain ⟨hr, hlen, ha⟩ := bytes_eq_ok.mp h
    obtain ⟨c, rfl⟩ := List.length_eq_one_iff.mp hlen
    exact ⟨hr, ha⟩
  · rintro ⟨hr, ha⟩
    exact ⟨[b], after, bytes_eq_ok.mpr ⟨hr, rfl, ha⟩, rfl⟩

end Read

end ActionVm
