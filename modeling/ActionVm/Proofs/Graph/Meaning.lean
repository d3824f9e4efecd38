import ActionVm.Proofs.Graph.Closure
import ActionVm.Proofs.Machine.Operands

namespace ActionVm

theorem forM_append_of_ok {f : α → EStateM ε σ PUnit} {l l' : List α} (h : l.forM f s = .ok () t) :
    (l ++ l').forM f s = l'.forM f t :=
  (congrFun (List.forM_append (m := EStateM ε σ)) s).trans (bind_of_ok h)

theorem Calls.block_prepend (calls : Calls (EStateM ε σ)) {steps : List Step}
    (h : steps.forM calls.act s = .ok () t) (r : Remainder) :
    calls.block (r.prepend steps).1 (r.prepend steps).2 s = calls.block r.1 r.2 t := by
  have happ : (steps ++ r.1).forM calls.act s = r.1.forM calls.act t := forM_append_of_ok h
  simp only [block, Remainder.prepend, bind, EStateM.bind, happ]

/-- Loads that wait: the values that their locals hold, and room for them among the operands. -/
structure Waiting (a : Activation) (pending : List UInt32) (values : List Ref) : Prop where
  held : List.Forall₂ (fun i r => a.frame.locals[i.toNat]? = some r) pending values
  room : values = [] ∨ values.length + a.frame.stack.length ≤ a.frame.stackLimit

namespace Waiting

theorem none (a : Activation) : Waiting a [] [] :=
  ⟨.nil, .inl rfl⟩

theorem tail (h : Waiting a (index :: pending) (r :: values)) : Waiting a pending values := by
  obtain ⟨held, room⟩ := h
  cases held with
  | cons _ held =>
    refine ⟨held, .inr ?_⟩
    have := room.resolve_left (List.cons_ne_nil _ _)
    rw [List.length_cons] at this
    omega

theorem head (h : Waiting a (index :: pending) (r :: values)) :
    a.frame.locals[index.toNat]? = some r := by
  cases h.held with
  | cons hr _ => exact hr

theorem cons (h : Waiting a pending values) (hr : a.frame.locals[index.toNat]? = some r)
    (hroom : (a.withOperands values).frame.stack.length < a.frame.stackLimit) :
    Waiting a (index :: pending) (r :: values) := by
  refine ⟨.cons hr h.held, .inr ?_⟩
  simp only [Activation.withOperands, List.length_append] at hroom
  rw [List.length_cons]
  omega

theorem withLocal (h : Waiting a pending values) (hnot : index ∉ pending) :
    Waiting (a.withLocal index r) pending values := by
  refine ⟨?_, by simpa using h.room⟩
  have held := h.held
  clear h
  induction held with
  | nil => exact .nil
  | cons hx _ ih =>
    rw [List.mem_cons, not_or] at hnot
    exact .cons (Activation.getElem?_withLocal_of_ne hx (Ne.symm hnot.1)) (ih hnot.2)

theorem forM_loads (h : Waiting a pending values) (invoke : Invoke) :
    (loads pending).forM (FrameM.act invoke) a = .ok () (a.withOperands values) := by
  induction pending generalizing values with
  | nil =>
    cases h.held
    rfl
  | cons index pending ih =>
    cases values with
    | nil => cases h.held
    | cons r values =>
      have hroom : (a.withOperands values).frame.stack.length < a.frame.stackLimit := by
        have := h.room.resolve_left (List.cons_ne_nil _ _)
        simp only [Activation.withOperands, List.length_append]
        rw [List.length_cons] at this
        omega
      have hget : FrameM.getLocal index (a.withOperands values) = .ok r (a.withOperands values) :=
        FrameM.getLocal_of_some h.head
      have hact : FrameM.act invoke { action := .getLocal, a := index } (a.withOperands values) =
          .ok () (a.withOperands (r :: values)) := by
        refine (bind_of_ok hget).trans ?_
        rw [FrameM.push_of_room hroom, Activation.withOperands_withOperands]
        rfl
      have hloads : loads (index :: pending) =
          loads pending ++ [{ action := .getLocal, a := index }] := by
        simp [loads]
      rw [hloads, forM_append_of_ok (ih h.tail)]
      exact bind_of_ok hact

end Waiting

namespace Instruction

def ending (l : List Instruction) : Nat :=
  (l.getLast?.map next).getD 0

def lastStart (starts : List Nat) (l : List Instruction) : Nat :=
  ((l.filter (·.offset ∈ starts)).getLast?.map Instruction.offset).getD 0

theorem operation_ne_load (i : Instruction) (op : Opcode) : i.operation op ≠ .load index := by
  unfold operation
  split
  · exact nofun
  · split <;> exact nofun

theorem loaded?_of_effect {i : Instruction} (h : i.effect = .load index) : i.loaded? = some index := by
  obtain ⟨offset, next, byte, opcode, args⟩ := i
  cases opcode with
  | none => cases h
  | some op =>
    cases op with
    | getLocal | getLocal0 | getLocal1 | getLocal2 | getLocal3 =>
      cases h
      rfl
    | setLocal | setLocal0 | setLocal1 | setLocal2 | setLocal3 | dup | pop | returnValue | returnVoid
    | nop | label | debug | debugLine | debugFile => cases h
    | _ => exact (operation_ne_load _ _ h).elim

theorem Tile.lt_ending {l : List Instruction} (h : Tile start l stop) : ∀ i ∈ l, i.offset < ending l := by
  induction l generalizing start with
  | nil =>
    intro i hi
    cases hi
  | cons i rest ih =>
    obtain ⟨rfl, hn, hrest⟩ := h
    intro j hj
    cases rest with
    | nil =>
      rw [List.mem_singleton] at hj
      subst hj
      exact hn
    | cons k rest =>
      have hlast : ending (i :: k :: rest) = ending (k :: rest) := by
        simp [ending, List.getLast?_cons_cons]
      rw [hlast]
      rcases List.mem_cons.mp hj with rfl | hj
      · have hk := ih hrest k List.mem_cons_self
        have := hrest.1
        omega
      · exact ih hrest j hj

theorem turn_of_known (invoke : Invoke) (h : known code = before ++ i :: rest) (a : Activation) :
    turn invoke code i.offset a = some (i.effect.execute invoke i.next a) := by
  obtain ⟨stop, htile⟩ := tile_known code
  have hmem : i ∈ sweep code :=
    (covered_isPrefix _ _ _).subset (h ▸ List.mem_append_right before List.mem_cons_self)
  rw [h] at htile
  rw [turn, h, htile.find?_append, ← FrameM.execute_eq]
  intro fallback cases ha
  exact switch_length_of_mem_sweepFrom hmem ha

theorem turn_of_unknown {invoke : Invoke} (h : ∀ i ∈ known code, i.offset ≠ start) (a : Activation) :
    turn invoke code start a = some (FrameM.trap (code.getD start 0) a) := by
  have hnone : (known code).find? (·.offset = start) = none := by
    rw [List.find?_eq_none]
    intro i hi
    simpa using h i hi
  rw [turn, hnone]

/-- From a place on, the direct run loads only locals that were written, and its operands have room.
-/
def Safe (invoke : Invoke) (code : Bytes) (start : Nat) (a : Activation) : Prop :=
  ∀ place b, Visits (turn invoke code) start a place b →
    (∀ i ∈ known code, i.offset = place → ∀ index, i.loaded? = some index →
      index.toNat < b.frame.locals.length) ∧
    ∀ method limit c, turn invoke code place b ≠ some (.error (.fault (.overflow method limit)) c)

theorem Safe.next (h : Safe invoke code start a)
    (hs : turn invoke code start a = some (.ok (some place) b)) : Safe invoke code place b :=
  fun _ _ hv => h _ _ (.next hs hv)

theorem Safe.push (h : Safe invoke code start a)
    (hs : turn invoke code start a =
      some ((FrameM.push r >>= fun _ => pure (some place) : FrameM (Option Nat)) a)) :
    a.frame.stack.length < a.frame.stackLimit ∧
      turn invoke code start a = some (.ok (some place) (a.withOperands [r])) := by
  rcases Nat.lt_or_ge a.frame.stack.length a.frame.stackLimit with hroom | hfull
  · rw [bind_of_ok (FrameM.push_of_room hroom r)] at hs
    exact ⟨hroom, hs⟩
  · rw [bind_of_error (FrameM.push_of_full hfull r)] at hs
    exact absurd hs ((h _ _ .refl).2 _ _ _)

end Instruction

/-- How the runs of a graph and of its code end. They leave the same activation, where the code may
have loaded more operands, and stop for the same reason. Behind its last instruction the code traps;
the graph then names the byte at the start of its open block. -/
inductive Agree (code : Bytes) :
    EStateM.Result Stop Activation Unit → EStateM.Result Stop Activation Unit → Prop
  | done (more : List Ref) : Agree code (.ok () a) (.ok () (a.withOperands more))
  | stop (more : List Ref) : Agree code (.error e a) (.error e (a.withOperands more))
  | ending :
      Agree code
        (FrameM.trap (code.getD (Instruction.lastStart (blockStarts (Instruction.sweep code))
          (Instruction.known code)) 0) a)
        (FrameM.trap (code.getD (Instruction.ending (Instruction.known code)) 0) a)

/-- The runs of a graph and of its code meet at the starts of blocks. -/
structure Meet (invoke : Invoke) (code : Bytes) (offset : Nat) (a : Activation) (start : Nat)
    (b : Activation) : Prop where
  place : start = offset
  state : b = a
  isStart : offset ∈ blockStarts (Instruction.sweep code)
  safe : Instruction.Safe invoke code offset a

abbrev Follows (invoke : Invoke) (code : Bytes) :=
  Turn.Follows (Instruction.turn invoke code) (Meet invoke code) (Agree code)

abbrev Leads (invoke : Invoke) (code : Bytes) :=
  Turn.Leads (Instruction.turn invoke code) (Meet invoke code) (Agree code)

/-- What is left of a block does what the code does from `next` on, whichever loads wait. -/
def Tracks (invoke : Invoke) (code : Bytes) (next : Nat) (more : List UInt32 → Remainder) : Prop :=
  ∀ pending values a, Waiting a pending values →
    Instruction.Safe invoke code next (a.withOperands values) →
    Leads invoke code (some ((FrameM.calls invoke).block (more pending).1 (more pending).2 a)) next
      (a.withOperands values)

namespace Tracks

section

variable (hm : Tracks invoke code next more) (hw : Waiting a pending values)
  (hd : Instruction.Safe invoke code start (a.withOperands values))

include hm

theorem follows {steps : List Step}
    (hs : Instruction.turn invoke code start d = some (.ok (some next) (b.withOperands values)))
    (hd : Instruction.Safe invoke code start d) (hw : Waiting b pending values)
    (hsteps : steps.forM (FrameM.act invoke) a = .ok () b) :
    Follows invoke code
      (some ((FrameM.calls invoke).block ((more pending).prepend steps).1
        ((more pending).prepend steps).2 a)) start d := by
  rw [Calls.block_prepend (FrameM.calls invoke) hsteps]
  exact .step hs (hm _ _ _ hw (hd.next hs))

theorem continues
    (hs : Instruction.turn invoke code start d = some (.ok (some next) (a.withOperands values)))
    (hd : Instruction.Safe invoke code start d) (hw : Waiting a pending values) :
    Follows invoke code
      (some ((FrameM.calls invoke).block (more pending).1 (more pending).2 a)) start d :=
  .step hs (hm _ _ _ hw (hd.next hs))

include hw hd

theorem act {step : Step}
    (hs : Instruction.turn invoke code start (a.withOperands values) =
      some ((FrameM.act invoke step >>= fun _ => pure (some next) : FrameM (Option Nat))
        (a.withOperands values))) :
    Follows invoke code
      (some ((FrameM.calls invoke).block ((Effect.act step).lower pending more).1
        ((Effect.act step).lower pending more).2 a)) start (a.withOperands values) := by
  have hloads := hw.forM_loads invoke
  cases hact : FrameM.act invoke step (a.withOperands values) with
  | ok u b =>
    rw [bind_of_ok hact, ← b.withOperands_nil] at hs
    exact hm.follows hs hd (.none b) ((forM_append_of_ok hloads).trans (bind_of_ok hact))
  | error e b =>
    rw [bind_of_error hact] at hs
    have hsteps : ((loads pending ++ [step]) ++ (more []).1).forM (FrameM.act invoke) a = .error e b := by
      rw [List.append_assoc, forM_append_of_ok hloads]
      exact bind_of_error hact
    have hblock : (FrameM.calls invoke).block ((Effect.act step).lower pending more).1
        ((Effect.act step).lower pending more).2 a = .error e b := bind_of_error hsteps
    rw [hblock]
    exact .fail hs (.stop [])

theorem load (hs : Instruction.turn invoke code start (a.withOperands values) =
      some ((Effect.load index).execute invoke next (a.withOperands values)))
    (hin : index.toNat < a.frame.locals.length) :
    Follows invoke code
      (some ((FrameM.calls invoke).block ((Effect.load index).lower pending more).1
        ((Effect.load index).lower pending more).2 a)) start (a.withOperands values) := by
  have hr : a.frame.locals[index.toNat]? = some a.frame.locals[index.toNat] :=
    List.getElem?_eq_getElem hin
  have hget : FrameM.getLocal index (a.withOperands values) =
      .ok a.frame.locals[index.toNat] (a.withOperands values) := FrameM.getLocal_of_some hr
  rw [Effect.execute, bind_of_ok hget] at hs
  obtain ⟨hroom, hs⟩ := hd.push hs
  rw [Activation.withOperands_withOperands] at hs
  exact hm.continues hs hd (hw.cons hr hroom)

theorem store (hs : Instruction.turn invoke code start (a.withOperands values) =
      some ((Effect.store index).execute invoke next (a.withOperands values))) :
    Follows invoke code
      (some ((FrameM.calls invoke).block ((Effect.store index).lower pending more).1
        ((Effect.store index).lower pending more).2 a)) start (a.withOperands values) := by
  match pending, values, hw with
  | [], [], hw => exact hm.act hw hd (hs.trans (by simp only [Effect.execute, FrameM.act, bind_assoc]))
  | source :: older, r :: values, hw =>
    have hset (b : Activation) : FrameM.setLocal index r b = .ok () (b.withLocal index r) :=
      FrameM.setLocal_apply index r b
    have hcopy (b : Activation) (hb : b.frame.locals = a.frame.locals) :
        [({ action := .copyLocal, a := source, b := index } : Step)].forM (FrameM.act invoke) b =
          .ok () (b.withLocal index r) := by
      have hget : FrameM.getLocal source b = .ok r b := FrameM.getLocal_of_some (hb ▸ hw.head)
      exact bind_of_ok ((bind_of_ok hget).trans (hset b))
    rw [Effect.execute, bind_of_ok (FrameM.pop_withOperands a r values), bind_of_ok (hset _),
      Activation.withLocal_withOperands] at hs
    simp only [Effect.lower]
    split
    · rename_i hsame
      subst hsame
      rw [Activation.withLocal_self hw.head] at hs
      exact hm.continues hs hd hw.tail
    · split
      · rw [← Activation.withLocal_withOperands, ← Activation.withOperands_nil (Activation.withLocal _ _ _)] at hs
        exact hm.follows hs hd (.none _) ((forM_append_of_ok (hw.tail.forM_loads invoke)).trans (hcopy _ rfl))
      · rename_i hnot
        exact hm.follows hs hd (hw.tail.withLocal (by simpa using hnot)) (hcopy a rfl)

theorem dup (hs : Instruction.turn invoke code start (a.withOperands values) =
      some (Effect.dup.execute invoke next (a.withOperands values))) :
    Follows invoke code
      (some ((FrameM.calls invoke).block (Effect.dup.lower pending more).1
        (Effect.dup.lower pending more).2 a)) start (a.withOperands values) := by
  match pending, values, hw with
  | [], [], hw => exact hm.act hw hd (hs.trans (by simp only [Effect.execute, FrameM.act, bind_assoc]))
  | top :: older, r :: values, hw =>
    rw [Effect.execute, bind_of_ok (FrameM.peek_withOperands a r values)] at hs
    obtain ⟨hroom, hs⟩ := hd.push hs
    rw [Activation.withOperands_withOperands] at hs
    exact hm.continues hs hd (hw.cons hw.head hroom)

theorem pop (hs : Instruction.turn invoke code start (a.withOperands values) =
      some (Effect.pop.execute invoke next (a.withOperands values))) :
    Follows invoke code
      (some ((FrameM.calls invoke).block (Effect.pop.lower pending more).1
        (Effect.pop.lower pending more).2 a)) start (a.withOperands values) := by
  match pending, values, hw with
  | [], [], hw =>
    exact hm.act hw hd (hs.trans (by simp only [Effect.execute, FrameM.act, bind_assoc, pure_bind]))
  | top :: older, r :: values, hw =>
    rw [Effect.execute, bind_of_ok (FrameM.pop_withOperands a r values)] at hs
    exact hm.continues hs hd hw.tail

end

end Tracks

namespace Follows

section

variable (hw : Waiting a pending values)

include hw

theorem returnValue (hs : Instruction.turn invoke code start (a.withOperands values) =
      some (Effect.returnValue.execute invoke next (a.withOperands values))) :
    Follows invoke code
      (some ((FrameM.calls invoke).block (Effect.returnValue.lower pending more).1
        (Effect.returnValue.lower pending more).2 a)) start (a.withOperands values) := by
  match pending, values, hw with
  | [], [], _ =>
    rw [Effect.execute, Activation.withOperands_nil] at hs
    cases hpop : FrameM.pop a with
    | error e b =>
      rw [bind_of_error hpop] at hs
      have hblock : (FrameM.calls invoke).block [{ action := .returnValue }] .ret a = .error e b :=
        bind_of_error (bind_of_error (bind_of_error hpop))
      simp only [Effect.lower, hblock]
      exact .fail hs (.stop [])
    | ok r b =>
      rw [bind_of_ok hpop] at hs
      have hact : FrameM.act invoke { action := .returnValue } a = FrameM.setResult r b := bind_of_ok hpop
      have hblock : (FrameM.calls invoke).block [{ action := .returnValue }] .ret a =
          (FrameM.setResult r >>= fun _ => pure none : FrameM (Option Nat)) b :=
        bind_of_ok (bind_of_ok hact)
      simp only [Effect.lower, hblock]
      exact .done hs (.done [])
  | index :: older, r :: values, hw =>
    rw [Effect.execute, bind_of_ok (FrameM.pop_withOperands a r values)] at hs
    have hact : FrameM.act invoke { action := .returnLocal, a := index } a = FrameM.setResult r a :=
      bind_of_ok (FrameM.getLocal_of_some hw.head)
    have hblock : (FrameM.calls invoke).block [{ action := .returnLocal, a := index }] .ret a =
        (FrameM.setResult r >>= fun _ => pure none : FrameM (Option Nat)) a :=
      bind_of_ok (bind_of_ok hact)
    simp only [Effect.lower, hblock]
    exact .done hs (.done values)

theorem leave (hd : Instruction.Safe invoke code start (a.withOperands values))
    (hs : Instruction.turn invoke code start (a.withOperands values) =
      some ((Effect.leave exit).execute invoke next (a.withOperands values)))
    (ht : ∀ target ∈ exit.targets, target ∈ blockStarts (Instruction.sweep code)) :
    Follows invoke code
      (some ((FrameM.calls invoke).block ((Effect.leave exit).lower pending more).1
        ((Effect.leave exit).lower pending more).2 a)) start (a.withOperands values) := by
  have hblock : (FrameM.calls invoke).block (loads pending) exit a =
      exit.leave (FrameM.calls invoke) (a.withOperands values) := bind_of_ok (hw.forM_loads invoke)
  simp only [Effect.lower, hblock]
  rw [Effect.execute] at hs
  cases hl : exit.leave (FrameM.calls invoke) (a.withOperands values) with
  | error e b =>
    rw [hl] at hs
    exact .fail hs (.stop [])
  | ok target b =>
    rw [hl] at hs
    cases target with
    | none => exact .done hs (.done [])
    | some target => exact .step hs (.next .refl ⟨rfl, rfl, ht _ (Exit.leave_mem_targets hl), hd.next hs⟩)

theorem block_trap (byte : UInt8) :
    (FrameM.calls invoke).block (loads pending ++ [trapStep byte]) .ret a =
      FrameM.trap byte (a.withOperands values) := by
  have hsteps : (loads pending ++ [trapStep byte]).forM (FrameM.act invoke) a =
      [trapStep byte].forM (FrameM.act invoke) (a.withOperands values) :=
    forM_append_of_ok (hw.forM_loads invoke)
  exact bind_of_error (hsteps.trans rfl)

end

end Follows

theorem Tracks.instruction (hk : Instruction.known code = before ++ i :: rest)
    (hm : Tracks invoke code i.next more) (hw : Waiting a pending values)
    (hd : Instruction.Safe invoke code i.offset (a.withOperands values)) :
    Follows invoke code
      (some ((FrameM.calls invoke).block (i.effect.lower pending more).1
        (i.effect.lower pending more).2 a)) i.offset (a.withOperands values) := by
  have hi : i ∈ Instruction.known code := hk ▸ List.mem_append_right _ List.mem_cons_self
  have hs := Instruction.turn_of_known invoke hk (a.withOperands values)
  cases he : i.effect with
  | load index =>
    rw [he] at hs
    have hin := (hd _ _ .refl).1 i hi rfl index (Instruction.loaded?_of_effect he)
    exact hm.load hw hd hs hin
  | store index =>
    rw [he] at hs
    exact hm.store hw hd hs
  | dup =>
    rw [he] at hs
    exact hm.dup hw hd hs
  | pop =>
    rw [he] at hs
    exact hm.pop hw hd hs
  | returnValue =>
    rw [he] at hs
    exact .returnValue hw hs
  | returnVoid =>
    rw [he] at hs
    exact .done hs (.done values)
  | skip =>
    rw [he] at hs
    exact hm.continues hs hd hw
  | leave exit =>
    rw [he] at hs
    exact .leave hw hd hs (Instruction.mem_blockStarts_of_effect hi he)
  | act step =>
    rw [he] at hs
    exact hm.act hw hd hs
  | unknown byte =>
    rw [he] at hs
    exact .fail hs (.stop values)
  | unsupported byte =>
    rw [he] at hs
    simp only [Effect.lower, Follows.block_trap hw]
    exact .fail hs (.stop [])

/-- The rest of a block is followed. The induction is on the known instructions behind it. -/
theorem tracks_after (hk : Instruction.known code = before ++ l) (hl : Instruction.Tile next l stop)
    (hend : l = [] → next = Instruction.ending (Instruction.known code))
    (ho : offset = Instruction.lastStart (blockStarts (Instruction.sweep code)) before) :
    Tracks invoke code next (after code (blockStarts (Instruction.sweep code)) offset l) := by
  induction l generalizing before next with
  | nil =>
    intro pending values a hw hd
    obtain rfl := hend rfl
    rw [List.append_nil] at hk
    obtain ⟨_, htile⟩ := Instruction.tile_known code
    have hnone : ∀ i ∈ Instruction.known code, i.offset ≠ Instruction.ending (Instruction.known code) :=
      fun i hi => Nat.ne_of_lt (htile.lt_ending i hi)
    simp only [after, Follows.block_trap hw, ho, ← hk]
    exact .fail .refl (Instruction.turn_of_unknown hnone _) .ending
  | cons i rest ih =>
    intro pending values a hw hd
    obtain ⟨rfl, -, hrest⟩ := hl
    simp only [after]
    split
    · rename_i hstart
      -- The next block starts here: the loads that wait are made, and then the two runs meet.
      have hblock : (FrameM.calls invoke).block (loads pending) (.jump i.offset) a =
          .ok (some i.offset) (a.withOperands values) := bind_of_ok (hw.forM_loads invoke)
      rw [hblock]
      exact .next .refl ⟨rfl, rfl, hstart, hd⟩
    · rename_i hstart
      have hrest' : rest = [] → i.next = Instruction.ending (Instruction.known code) := by
        rintro rfl
        simp [hk, Instruction.ending]
      have hlast : offset = Instruction.lastStart (blockStarts (Instruction.sweep code))
          (before ++ [i]) := by
        simpa [Instruction.lastStart, List.filter_append, hstart] using ho
      exact (Tracks.instruction hk (ih (by simpa using hk) hrest hrest' hlast) hw hd).leads

theorem simulates_ofCode (invoke : Invoke) (code : Bytes) :
    Simulates (Instruction.turn invoke code) (Meet invoke code) (Agree code)
      ((Graph.ofCode code).turn (FrameM.calls invoke)) := by
  rintro offset a start b ⟨rfl, rfl, hstart, hsafe⟩
  by_cases h : ∃ i ∈ Instruction.known code, i.offset = start
  · obtain ⟨i, hi, rfl⟩ := h
    obtain ⟨before, rest, hk⟩ := List.append_of_mem hi
    obtain ⟨stop, htile⟩ := Instruction.tile_known code
    rw [hk] at htile
    have hrest' : rest = [] → i.next = Instruction.ending (Instruction.known code) := by
      rintro rfl
      simp [hk, Instruction.ending]
    have hlast : i.offset = Instruction.lastStart (blockStarts (Instruction.sweep code))
        (before ++ [i]) := by
      simp [Instruction.lastStart, List.filter_append, hstart]
    rw [Graph.turn, Graph.block?_of_known hk hstart]
    exact Tracks.instruction hk (tracks_after (by simpa using hk) htile.of_append.2.2 hrest' hlast)
      (.none b) hsafe
  · have hnone : ∀ i ∈ Instruction.known code, i.offset ≠ start := fun i hi he => h ⟨i, hi, he⟩
    rw [Graph.turn, Graph.block?_of_unknown hstart hnone]
    exact .fail (Instruction.turn_of_unknown hnone b) (.stop [])

/-- Lowering keeps the meaning of code, for any meaning of calls to other methods. Where the direct
run ends, has room for its operands and loads only locals that were written, the graph's run ends
alike, and so does the run of its threaded code. -/
theorem lowering_keeps_meaning {invoke : Invoke} {code : Bytes} {a : Activation}
    {r : EStateM.Result Stop Activation Unit} (hrun : Runs (Instruction.turn invoke code) 0 a r)
    (hroom : ∀ method limit b, r ≠ .error (.fault (.overflow method limit)) b)
    (hloads : ∀ place b, Visits (Instruction.turn invoke code) 0 a place b →
      ∀ i ∈ Instruction.known code, i.offset = place → ∀ index, i.loaded? = some index →
        index.toNat < b.frame.locals.length) :
    ∃ r' t, Runs ((Graph.ofCode code).turn (FrameM.calls invoke)) 0 a r' ∧
      Threaded.ofGraph (Graph.ofCode code) = .ok t ∧
      (∃ n, ∀ fuel ≥ n, FrameM.runFrom invoke t fuel 0 a = r') ∧
      Agree code r' r := by
  have hsafe : Instruction.Safe invoke code 0 a := fun place b hv =>
    ⟨hloads place b hv, fun method limit c hs => hroom _ _ _ ((hrun.after_visits hv).eq_of_fail hs)⟩
  have hstart : 0 ∈ blockStarts (Instruction.sweep code) := mem_blockStarts.mpr (.inl rfl)
  obtain ⟨r', hr', hagree⟩ := (simulates_ofCode invoke code).backward ⟨rfl, rfl, hstart, hsafe⟩ hrun
  have hclosed := Graph.closed_ofCode code
  have hentry : 0 ∈ (Graph.ofCode code).offsets := Graph.offsets_ofCode code ▸ hstart
  have hthreaded := (Threaded.runs_ofClosed hclosed _ hentry).mpr hr'
  rw [Graph.idxOf_zero hentry] at hthreaded
  exact ⟨r', _, hr', Threaded.ofGraph_eq_ok hclosed, FrameM.runFrom_of_runs hthreaded, hagree⟩

def Activation.pair (first second : Nat) (result : Option Ref) : Activation where
  machine := { document := {}, config := {}, store := {}, global := ⟨0⟩ }
  frame := { method := 0, stackLimit := 2, locals := [⟨first⟩, ⟨second⟩], localLimit := 2, result }

/-- A load that waits is made before its local is overwritten. -/
theorem lowering_keeps_overwritten_load :
    Runs (Instruction.turn MachineM.invoke [0xd1, 0xd0, 0xd5, 0x48]) 0 (.pair 3 4 none)
      (.ok () (.pair 3 3 (some ⟨4⟩))) ∧
    ∃ r' t, Runs ((Graph.ofCode [0xd1, 0xd0, 0xd5, 0x48]).turn (FrameM.calls MachineM.invoke)) 0
        (.pair 3 4 none) r' ∧
      Threaded.ofGraph (Graph.ofCode [0xd1, 0xd0, 0xd5, 0x48]) = .ok t ∧
      (∃ n, ∀ fuel ≥ n, FrameM.runFrom MachineM.invoke t fuel 0 (.pair 3 4 none) = r') ∧
      Agree [0xd1, 0xd0, 0xd5, 0x48] r' (.ok () (.pair 3 3 (some ⟨4⟩))) := by
  let code : Bytes := [0xd1, 0xd0, 0xd5, 0x48]
  let step := Instruction.turn MachineM.invoke code
  have h0 : step 0 (.pair 3 4 none) =
      some (.ok (some 1) ((Activation.pair 3 4 none).withOperands [⟨4⟩])) := rfl
  have h1 : step 1 ((Activation.pair 3 4 none).withOperands [⟨4⟩]) =
      some (.ok (some 2) ((Activation.pair 3 4 none).withOperands [⟨3⟩, ⟨4⟩])) := rfl
  have h2 : step 2 ((Activation.pair 3 4 none).withOperands [⟨3⟩, ⟨4⟩]) =
      some (.ok (some 3) ((Activation.pair 3 3 none).withOperands [⟨4⟩])) := rfl
  have h3 : step 3 ((Activation.pair 3 3 none).withOperands [⟨4⟩]) =
      some (.ok none (.pair 3 3 (some ⟨4⟩))) := rfl
  have hrun : Runs step 0 (.pair 3 4 none) (.ok () (.pair 3 3 (some ⟨4⟩))) :=
    .next h0 (.next h1 (.next h2 (.done h3)))
  refine ⟨hrun, lowering_keeps_meaning hrun nofun ?_⟩
  intro place b hv i hi _ index hindex
  have hall : (Instruction.known code).all (·.loaded?.all (·.toNat < 2)) = true := rfl
  have hlt : index.toNat < 2 := by simpa [hindex] using List.all_eq_true.mp hall i hi
  have hlength : b.frame.locals.length = 2 := by
    rcases hv.eq_or_after h0 with ⟨-, rfl⟩ | hv
    · rfl
    rcases hv.eq_or_after h1 with ⟨-, rfl⟩ | hv
    · rfl
    rcases hv.eq_or_after h2 with ⟨-, rfl⟩ | hv
    · rfl
    obtain ⟨-, rfl⟩ := hv.eq_of_done h3
    rfl
  omega

end ActionVm
