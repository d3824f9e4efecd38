import ActionVm.Proofs.Native.Execution

namespace ActionVm.Native

section

variable (address : Callee → UInt64) (bs : List ThreadedBlock)

def codeBytes : Bytes :=
  Item.patchwork.assemble (Item.displacement (blockStart address bs)) 0 (codeItems address bs)

theorem standing_code : Standing (codeBytes address bs) (blockStart address bs) 0 (codeItems address bs) :=
  ⟨Nat.zero_le _, [], (List.append_nil _).symm⟩

theorem standing_block (h : bs[place]? = some b) :
    ∃ rest, Standing (codeBytes address bs) (blockStart address bs) (blockStart address bs place)
      (blockItems address b ++ rest) := by
  obtain ⟨hlt, rfl⟩ := List.getElem?_eq_some_iff.mp h
  have hitems : codeItems address bs = (entryItems ++ (bs.take place).flatMap (blockItems address)) ++
      (blockItems address bs[place] ++ (bs.drop (place + 1)).flatMap (blockItems address)) := by
    rw [codeItems, List.append_assoc, ← List.flatMap_cons, ← List.flatMap_append, ← List.drop_eq_getElem_cons hlt,
      List.take_append_drop]
  have hall := standing_code address bs
  rw [hitems] at hall
  have hblock := hall.append
  rw [Nat.zero_add, extent_append] at hblock
  exact ⟨_, hblock⟩

theorem blockStart_le (place : Nat) : blockStart address bs place ≤ (codeBytes address bs).length := by
  have hsplit : extent Item.patchwork.size (bs.flatMap (blockItems address)) =
      extent Item.patchwork.size ((bs.take place).flatMap (blockItems address)) +
        extent Item.patchwork.size ((bs.drop place).flatMap (blockItems address)) := by
    rw [← extent_append, ← List.flatMap_append, List.take_append_drop]
  rw [codeBytes, Item.length_assemble, codeItems, extent_append, hsplit, blockStart]
  omega

end

/-- The processor stands at the start of the block that a walk by place has reached. -/
structure Reached (address : Callee → UInt64) (bs : List ThreadedBlock) (frame : UInt64) (saved : List UInt64)
    (place : Nat) (s : σ) (start : Nat) (p : Process σ) : Prop where
  isBlock : place < bs.length
  start : start = blockStart address bs place
  world : p.world = s
  holds : Holds frame saved p

/-- How code ends that was entered with a word in `rbx` and a return address on a stack: it returns
there, with `rbx` and the stack restored, or a call stops it. -/
inductive Ends (rbx back : UInt64) (stack : List UInt64) :
    EStateM.Result ε σ Unit → EStateM.Result ε (Process σ) Unit → Prop
  | returned {q : Process σ} (hworld : q.world = s) (hrbx : q.regs .rbx = rbx) (hstack : q.stack = stack)
      (hback : q.returned = some back) : Ends rbx back stack (.ok () s) (.ok () q)
  | stopped {q : Process σ} (hworld : q.world = s) : Ends rbx back stack (.error e s) (.error e q)

section

variable {host : Host ε σ} {bs : List ThreadedBlock} {frame rbx back : UInt64} {stack : List UInt64}

abbrev Follows (host : Host ε σ) (bs : List ThreadedBlock) (frame rbx back : UInt64) (stack : List UInt64) :=
  Turn.Follows (π := Nat) (host.turn (codeBytes host.address bs))
    (Reached host.address bs frame (rbx :: back :: stack)) (Ends rbx back stack)

theorem Performs.follows {x : EStateM ε σ α} {f : α → EStateM ε σ (Option Nat)} {p : Process σ}
    (hx : Performs host (codeBytes host.address bs) frame (rbx :: back :: stack) pre start stop x post)
    (hp : Holds frame (rbx :: back :: stack) p) (hpre : pre p)
    (hf : ∀ a q, Holds frame (rbx :: back :: stack) q → post a q →
      Follows host bs frame rbx back stack (some (f a q.world)) stop q) :
    Follows host bs frame rbx back stack (some ((x >>= f) p.world)) start p := by
  have hx := hx p hp hpre
  cases hr : x p.world with
  | error e world =>
    rw [hr] at hx
    obtain ⟨place, q, u, hv, hs, hu⟩ := hx
    rw [bind_of_error hr]
    exact .of_visits hv (.fail hs (.stopped hu))
  | ok a world =>
    rw [hr] at hx
    obtain ⟨q, hv, hq, rfl, hpost⟩ := hx
    rw [bind_of_ok hr]
    exact .of_visits hv (hf a q hq hpost)

variable (hcode : (codeBytes host.address bs).length < 2 ^ 31)

include hcode

theorem follows_flag
    (h : Standing (codeBytes host.address bs) (blockStart host.address bs) start
      (.instr (.testR8 Emission.result Emission.result) :: .jump .ifNotEqual taken ::
        .jump .always fallthrough :: rest))
    (ht : taken < bs.length) (hf : fallthrough < bs.length) {q : Process σ}
    (hq : Holds frame (rbx :: back :: stack) q) (hrax : q.regs .rax = withLow8 b v) :
    Follows host bs frame rbx back stack
      (some (.ok (some (if b then taken else fallthrough)) q.world)) start q := by
  let q' : Process σ := { q with equal := !b }
  have hin := blockStart_le host.address bs
  have hflag : host.turn (codeBytes host.address bs) start q = some (.ok (some (start + 2)) q') := by
    rw [host.turn_instr h q, Host.execute]
    simp only [Emission.result, hrax, toUInt8_withLow8]
    rfl
  have hjne := host.turn_jump h.tail hcode (hin taken) q'
  have hjmp := host.turn_jump h.tail.tail hcode (hin fallthrough) q'
  cases b with
  | true => exact .step hflag (.next (.one hjne) ⟨ht, rfl, rfl, hq.frame, hq.stack⟩)
  | false => exact .step hflag (.next ((Visits.one hjne).tail hjmp) ⟨hf, rfl, rfl, hq.frame, hq.stack⟩)

theorem follows_cases
    (h : Standing (codeBytes host.address bs) (blockStart host.address bs) start
      (caseItems cases.zipIdx ++ .jump .always fallback :: rest))
    (ht : ∀ place ∈ cases ++ [fallback], place < bs.length) (hs : cases.length < 2 ^ 32) {q : Process σ}
    (hq : Holds frame (rbx :: back :: stack) q) (hrax : q.regs .rax = withLow32 i v) :
    Follows host bs frame rbx back stack (some (.ok (some (cases.getD i.toNat fallback)) q.world)) start q := by
  obtain ⟨u, stop, hv, hstep, hregs, hstack, hworld⟩ := visits_cases host hcode h
    (fun place _ => blockStart_le host.address bs place) (by omega) (Nat.zero_le (q.regs .rax).toUInt32.toNat)
  rw [hrax, toUInt32_withLow32, Nat.sub_zero] at hstep
  have hmem : cases.getD i.toNat fallback < bs.length := by
    apply ht
    rw [List.getD_eq_getElem?_getD]
    cases hi : cases[i.toNat]? with
    | none => simp
    | some place => exact List.mem_append_left _ (List.mem_of_getElem? hi)
  refine .of_visits hv (.step hstep (.next .refl ⟨hmem, rfl, hworld, ?_, ?_⟩))
  · rw [hregs]
    exact hq.frame
  · rw [hstack]
    exact hq.stack

variable (ha : ∀ a b, host.address a = host.address b → a = b)

include ha

theorem follows_exit
    (h : Standing (codeBytes host.address bs) (blockStart host.address bs) start
      (exitItems host.address exit ++ rest))
    (ht : ∀ place ∈ exit.targets, place < bs.length)
    (hs : ∀ cases fallback, exit = .switch cases fallback → cases.length < 2 ^ 32)
    {p : Process σ} (hp : Holds frame (rbx :: back :: stack) p) :
    Follows host bs frame rbx back stack (some (exit.leave (host.calls frame) p.world)) start p := by
  cases exit with
  | ret =>
    have hpop := host.turn_instr h p
    have hret := host.turn_instr h.tail ({ p with stack := back :: stack }.set .rbx rbx)
    simp only [Host.execute, hp.stack] at hpop
    exact .step hpop (.done .refl hret (.returned rfl rfl rfl rfl))
  | jump place =>
    have hjump := host.turn_jump h hcode (blockStart_le host.address bs place) p
    exact .step hjump (.next .refl ⟨ht place (List.mem_singleton_self _), rfl, rfl, hp⟩)
  | branch condition taken fallthrough =>
    rw [exitItems, List.append_assoc] at h
    refine Performs.follows (Performs.test ha h) hp trivial ?_
    rintro b q hq ⟨v, hrax⟩
    exact follows_flag hcode h.append (ht taken (by simp [Exit.targets]))
      (ht fallthrough (by simp [Exit.targets]))
      hq hrax
  | switch cases fallback =>
    rw [exitItems, List.append_assoc, List.append_assoc] at h
    refine Performs.follows (Performs.select ha h) hp trivial ?_
    rintro i q hq ⟨v, hrax⟩
    have hcases := h.append
    rw [List.singleton_append] at hcases
    exact follows_cases hcode hcases ht (hs cases fallback rfl) hq hrax

theorem follows_block
    (h : Standing (codeBytes host.address bs) (blockStart host.address bs) start
      (blockItems host.address b ++ rest))
    (ht : ∀ place ∈ b.exit.targets, place < bs.length)
    (hs : ∀ cases fallback, b.exit = .switch cases fallback → cases.length < 2 ^ 32)
    {p : Process σ} (hp : Holds frame (rbx :: back :: stack) p) :
    Follows host bs frame rbx back stack (some ((host.calls frame).block b.steps b.exit p.world)) start p := by
  rw [blockItems, List.append_assoc] at h
  refine Performs.follows (Performs.steps ha h) hp trivial ?_
  intro _ q hq _
  exact follows_exit hcode ha h.append ht hs hq

/-- The processor follows threaded code from block to block. -/
theorem simulates_code {t : Threaded} (hbs : t.blocks.toList = bs)
    (ht : ∀ b ∈ bs, ∀ place ∈ b.exit.targets, place < bs.length)
    (hs : ∀ b ∈ bs, ∀ cases fallback, b.exit = .switch cases fallback → cases.length < 2 ^ 32) :
    Simulates (host.turn (codeBytes host.address bs)) (Reached host.address bs frame (rbx :: back :: stack))
      (Ends rbx back stack) (t.turn (host.calls frame)) := by
  rintro place s start p ⟨hlt, rfl, rfl, hp⟩
  have hb : bs[place]? = some bs[place] := List.getElem?_eq_getElem hlt
  have hmem : bs[place] ∈ bs := List.getElem_mem hlt
  obtain ⟨rest, h⟩ := standing_block host.address bs hb
  have hplace : t.blocks[place]? = some bs[place] := by
    rw [← Array.getElem?_toList, hbs, hb]
  rw [Threaded.turn, hplace]
  exact follows_block hcode ha h (ht _ hmem) (hs _ hmem) hp

end

theorem visits_entry (host : Host ε σ) (bs : List ThreadedBlock) (p : Process σ) :
    Visits (host.turn (codeBytes host.address bs)) 0 p (blockStart host.address bs 0)
      ({ p with stack := p.regs .rbx :: p.stack }.set .rbx (p.regs .rdi)) := by
  have h := standing_code host.address bs
  have hstart : blockStart host.address bs 0 = 0 + 1 + 3 := by
    rw [blockStart, List.take_zero]
    rfl
  rw [hstart]
  exact (host.visits_instr h rfl).trans (host.visits_instr h.tail rfl)

/-- The two back ends agree with the graph, whatever calls mean. The threaded code is built, and its
runs are the walks over the graph's blocks, which end only by a return. The machine code is emitted.
Entered on a frame by a call, it makes on that frame the calls of the threaded code, returns where
that returns, and restores `rbx` and the stack. Calls may do anything to any state, so also write
themselves down and give up after some number: the same calls are made in the same order, in runs
without an end too. -/
theorem backends_agree {g : Graph} {address : Callee → UInt64} (hcheck : g.check = .ok ())
    (hentry : 0 ∈ g.offsets)
    (hswitch : ∀ b ∈ g.blocks, ∀ cases fallback, b.exit = some (.switch cases fallback) →
      cases.length < 2 ^ 32)
    (haddress : ∀ a b, address a = address b → a = b)
    (hsize : ∀ code, emit address g = .ok code → code.bytes.length < 2 ^ 31) :
    ∃ t code, Threaded.ofGraph g = .ok t ∧ emit address g = .ok code ∧
      (∀ (ε σ : Type) (calls : Calls (EStateM ε σ)) s r,
        Runs (t.turn calls) 0 s r ↔ Runs (g.turn calls) 0 s r) ∧
      (∀ invoke a r, Runs (g.turn (FrameM.calls invoke)) 0 a r →
        ∃ n, ∀ fuel ≥ n, FrameM.runFrom invoke t fuel 0 a = r) ∧
      (∀ invoke a r fuel, FrameM.runFrom invoke t fuel 0 a = r → (∀ b, r ≠ .error .outOfFuel b) →
        Runs (g.turn (FrameM.calls invoke)) 0 a r) ∧
      ∀ (ε σ : Type) (host : Host ε σ) (p : Process σ) back stack,
        host.address = address → p.stack = back :: stack →
          (∀ r, Runs (t.turn (host.calls (p.regs .rdi))) 0 p.world r →
            ∃ r', Runs (host.turn code.bytes) 0 p r' ∧ Ends (p.regs .rbx) back stack r r') ∧
          ∀ r', Runs (host.turn code.bytes) 0 p r' →
            ∃ r, Runs (t.turn (host.calls (p.regs .rdi))) 0 p.world r ∧ Ends (p.regs .rbx) back stack r r' := by
  have hclosed := Graph.check_eq_ok.mp hcheck
  have hthreaded (ε σ : Type) (calls : Calls (EStateM ε σ)) (s : σ) (r : EStateM.Result ε σ Unit) :
      Runs ((Threaded.ofClosed g).turn calls) 0 s r ↔ Runs (g.turn calls) 0 s r := by
    have hruns := Threaded.runs_ofClosed hclosed calls (s := s) (r := r) hentry
    rwa [Graph.idxOf_zero hentry] at hruns
  obtain ⟨calls, hemit⟩ := emit_eq_ok hclosed address
  refine ⟨_, _, Threaded.ofGraph_eq_ok hclosed, hemit, hthreaded, ?_, ?_, ?_⟩
  · intro invoke a r hr
    exact FrameM.runFrom_of_runs ((hthreaded _ _ _ _ _).mpr hr)
  · intro invoke a r fuel hr hfuel
    exact (hthreaded _ _ _ _ _).mp (FrameM.runs_of_runFrom hr hfuel)
  · rintro ε σ host p back stack rfl hstack
    let bs := g.blocks.map (Threaded.placed g)
    have hlength : bs.length = g.blocks.length := List.length_map _
    have hsim : Simulates (host.turn (codeBytes host.address bs))
        (Reached host.address bs (p.regs .rdi) (p.regs .rbx :: back :: stack)) (Ends (p.regs .rbx) back stack)
        ((Threaded.ofClosed g).turn (host.calls (p.regs .rdi))) := by
      refine simulates_code (hsize _ hemit) haddress rfl ?_ ?_
      · intro b hb place hp
        exact hlength ▸ Threaded.targets_placed hclosed hb place hp
      · intro b hb cases fallback hs
        obtain ⟨c, hc, targets, target, hexit, hlen⟩ := Threaded.switch_placed hb hs
        exact hlen ▸ hswitch c hc targets target hexit
    have hv := visits_entry host bs p
    have hfirst : 0 < bs.length := by
      have hpos := List.length_pos_of_mem hentry
      rwa [Graph.offsets, List.length_map, ← hlength] at hpos
    have hreached : Reached host.address bs (p.regs .rdi) (p.regs .rbx :: back :: stack) 0 p.world
        (blockStart host.address bs 0) ({ p with stack := p.regs .rbx :: p.stack }.set .rbx (p.regs .rdi)) :=
      ⟨hfirst, rfl, rfl, rfl, congrArg (p.regs .rbx :: ·) hstack⟩
    constructor
    · intro r hr
      obtain ⟨r', hr', hends⟩ := hsim.forward hreached hr
      exact ⟨r', .of_visits hv hr', hends⟩
    · intro r' hr'
      exact hsim.backward hreached (hr'.after_visits hv)

inductive Call where
  | act (s : Step)
  | test (c : Condition)
  | select (last : UInt32)

def Calls.written (frame : UInt64) : Calls (EStateM Empty (List (UInt64 × Call))) where
  act s := modify (· ++ [(frame, .act s)])
  test c := modifyGet fun log => (true, log ++ [(frame, .test c)])
  select last := modifyGet fun log => (0, log ++ [(frame, .select last)])

def Callee.inRow (callee : Callee) : UInt64 :=
  UInt64.ofNat (all.idxOf callee)

theorem Callee.inRow_injective (a b : Callee) (h : a.inRow = b.inRow) : a = b := by
  have hlt (c : Callee) : all.idxOf c < 2 ^ 64 := by
    have hc := List.idxOf_lt_length_iff.mpr c.mem_all
    have hlength : all.length < 2 ^ 64 := by decide
    omega
  have hnat := congrArg UInt64.toNat h
  rw [inRow, inRow, UInt64.toNat_ofNat_of_lt' (hlt a), UInt64.toNat_ofNat_of_lt' (hlt b)] at hnat
  exact (List.idxOf_inj a.mem_all).mp hnat

def branchGraph : Graph where
  blocks := [
    { offset := 0, steps := [{ action := .pushTrue }], exit := some (.branch .isTrue 7 3) },
    { offset := 3, exit := some (.switch [0, 3] 7) },
    { offset := 7, steps := [{ action := .getLocal, a := 1 }], exit := some .ret }]
  ascending := by decide

def writingHost : Host Empty (List (UInt64 × Call)) where
  address := Callee.inRow
  calls := Calls.written
  scratch _ := (fun _ => 99, false)

def callingProcess : Process (List (UInt64 × Call)) where
  regs r := if r = .rdi then 8 else 5
  equal := false
  stack := [17, 23]
  world := []

/-- The code of the branch makes three calls on the frame and returns. -/
theorem branch_code_makes_its_calls :
    ∃ code q, emit Callee.inRow branchGraph = .ok code ∧
      Runs (writingHost.turn code.bytes) 0 callingProcess (.ok () q) ∧
      q.world = [(8, .act { action := .pushTrue }), (8, .test .isTrue),
        (8, .act { action := .getLocal, a := 1 })] ∧
      q.regs .rbx = 5 ∧ q.stack = [23] ∧ q.returned = some 17 := by
  have hclosed : branchGraph.Closed := by
    simp [Graph.Closed, branchGraph, Graph.offsets, Exit.targets]
  have hsize : ∀ code, emit Callee.inRow branchGraph = .ok code → code.bytes.length < 2 ^ 31 := by
    obtain ⟨calls, hemit⟩ := emit_eq_ok hclosed Callee.inRow
    rw [hemit]
    rintro _ ⟨⟩
    rw [Item.length_assemble]
    decide
  obtain ⟨t, code, -, hcode, hthreaded, -, -, hnative⟩ :=
    backends_agree (Graph.check_eq_ok.mpr hclosed) (by decide) (by simp [branchGraph])
      Callee.inRow_injective hsize
  have hfirst : branchGraph.turn (Calls.written 8) 0 [] =
      some (.ok (some 7) [(8, .act { action := .pushTrue }), (8, .test .isTrue)]) := rfl
  have hlast : branchGraph.turn (Calls.written 8) 7 [(8, .act { action := .pushTrue }), (8, .test .isTrue)] =
      some (.ok none [(8, .act { action := .pushTrue }), (8, .test .isTrue),
        (8, .act { action := .getLocal, a := 1 })]) := rfl
  have hrun := (hthreaded _ _ _ _ _).mpr (.next hfirst (.done hlast))
  obtain ⟨r', hr', hends⟩ := (hnative _ _ writingHost callingProcess 17 [23] rfl rfl).1 _ hrun
  cases hends with
  | returned hworld hrbx hstack hback => exact ⟨code, _, hcode, hr', hworld, hrbx, hstack, hback⟩

end ActionVm.Native
