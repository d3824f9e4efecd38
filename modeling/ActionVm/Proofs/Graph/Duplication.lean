import ActionVm.Proofs.Graph.Meaning

namespace ActionVm

section

variable {f : α → EStateM ε σ Unit} {l : List α}

theorem forM_cons_of_ok (h : f x s = .ok () t) : (x :: l).forM f s = l.forM f t :=
  bind_of_ok h

theorem forM_cons_of_error (h : f x s = .error e t) : (x :: l).forM f s = .error e t :=
  bind_of_error h

theorem forM_singleton (f : α → EStateM ε σ Unit) (x : α) (s : σ) : [x].forM f s = f x s := by
  cases h : f x s with
  | ok u t => exact forM_cons_of_ok h
  | error e t => exact forM_cons_of_error h

end

theorem Calls.block_prepend_of_error (calls : Calls (EStateM ε σ)) {steps : List Step}
    (h : steps.forM calls.act s = .error e t) (rest : Remainder) :
    calls.block (rest.prepend steps).1 (rest.prepend steps).2 s = .error e t := by
  have hall : (steps ++ rest.1).forM calls.act s = .error e t :=
    (congrFun (List.forM_append (m := EStateM ε σ)) s).trans (bind_of_error h)
  exact bind_of_error hall

namespace Graph

/-- A run of a graph that starts with the rest of a block. -/
inductive Finishes (calls : Calls (EStateM ε σ)) (g : Graph) (rest : Remainder) (s : σ) :
    EStateM.Result ε σ Unit → Prop where
  | done (h : calls.block rest.1 rest.2 s = .ok none t) : Finishes calls g rest s (.ok () t)
  | fail (h : calls.block rest.1 rest.2 s = .error e t) : Finishes calls g rest s (.error e t)
  | next (h : calls.block rest.1 rest.2 s = .ok (some offset) t) (hr : Runs (g.turn calls) offset t r) :
    Finishes calls g rest s r

section

variable (calls : Calls (EStateM ε σ)) {g : Graph} {rest : Remainder}

theorem finishes_congr (h : calls.block rest.1 rest.2 s = calls.block rest'.1 rest'.2 t) :
    Finishes calls g rest s r ↔ Finishes calls g rest' t r := by
  constructor
  · intro hf
    cases hf with
    | done h' => exact .done (h.symm.trans h')
    | fail h' => exact .fail (h.symm.trans h')
    | next h' hr => exact .next (h.symm.trans h') hr
  · intro hf
    cases hf with
    | done h' => exact .done (h.trans h')
    | fail h' => exact .fail (h.trans h')
    | next h' hr => exact .next (h.trans h') hr

theorem finishes_prepend {steps : List Step} (h : steps.forM calls.act s = .ok () t) :
    Finishes calls g (rest.prepend steps) s r ↔ Finishes calls g rest t r :=
  finishes_congr calls (calls.block_prepend h rest)

theorem finishes_prepend_congr {steps : List Step}
    (h : ∀ t, Finishes calls g rest t r ↔ Finishes calls g rest' t r) (s : σ) :
    Finishes calls g (rest.prepend steps) s r ↔ Finishes calls g (rest'.prepend steps) s r := by
  cases hsteps : steps.forM calls.act s with
  | ok u t => rw [finishes_prepend calls hsteps, finishes_prepend calls hsteps, h]
  | error e t =>
    apply finishes_congr
    rw [calls.block_prepend_of_error hsteps, calls.block_prepend_of_error hsteps]

theorem finishes_steps_congr {steps steps' : List Step} (h : steps.forM calls.act s = steps'.forM calls.act s) :
    Finishes calls g (rest.prepend steps) s r ↔ Finishes calls g (rest.prepend steps') s r := by
  apply finishes_congr
  cases hsteps : steps.forM calls.act s with
  | ok u t => rw [calls.block_prepend hsteps, calls.block_prepend (h.symm.trans hsteps)]
  | error e t => rw [calls.block_prepend_of_error hsteps, calls.block_prepend_of_error (h.symm.trans hsteps)]

theorem finishes_jump (offset : Nat) (s : σ) :
    Finishes calls g ([], .jump offset) s r ↔ Runs (g.turn calls) offset s r := by
  have hblock : calls.block [] (.jump offset) s = .ok (some offset) s := rfl
  constructor
  · intro hf
    cases hf with
    | done h => cases hblock.symm.trans h
    | fail h => cases hblock.symm.trans h
    | next h hr => cases hblock.symm.trans h; exact hr
  · exact .next hblock

theorem runs_iff_finishes (hb : g.block? b.offset = some b) (he : b.exit = some exit) :
    Runs (g.turn calls) b.offset s r ↔ Finishes calls g (b.steps, exit) s r := by
  have hturn (t : σ) : g.turn calls b.offset t = some (calls.block b.steps exit t) := by
    rw [turn, hb]
    dsimp only
    rw [he]
    rfl
  constructor
  · intro h
    cases h with
    | done h => exact .done (Option.some.inj ((hturn s).symm.trans h))
    | fail h => exact .fail (Option.some.inj ((hturn s).symm.trans h))
    | next h hr => exact .next (Option.some.inj ((hturn s).symm.trans h)) hr
  · intro h
    cases h with
    | done h => exact .done ((hturn s).trans (congrArg some h))
    | fail h => exact .fail ((hturn s).trans (congrArg some h))
    | next h hr => exact .next ((hturn s).trans (congrArg some h)) hr

end

end Graph

namespace Step

abbrev load (index : UInt32) : Step :=
  { action := .getLocal, a := index }

def loadDup (index : UInt32) : List Step :=
  [load index, { action := .dup }]

end Step

@[simp] theorem loads_cons (index : UInt32) (pending : List UInt32) :
    loads (index :: pending) = loads pending ++ [Step.load index] := by
  simp [loads]

namespace Remainder

@[simp] theorem prepend_prepend (r : Remainder) (steps more : List Step) :
    (r.prepend more).prepend steps = r.prepend (steps ++ more) := by
  simp [prepend]

end Remainder

namespace Effect

def passes : Effect → Bool
  | returnValue | returnVoid | leave _ | unknown _ | unsupported _ => false
  | load _ | store _ | dup | pop | skip | act _ => true

def needsOperands : Effect → Bool
  | leave _ | act _ | unsupported _ => true
  | _ => false

theorem lower_of_passes {e : Effect} (h : e.passes = true) (pending : List UInt32) :
    ∃ steps waiting, ∀ more, e.lower pending more = (more waiting).prepend steps := by
  cases e with
  | load index => exact ⟨[], index :: pending, fun _ => rfl⟩
  | store index =>
    cases pending with
    | nil => exact ⟨_, [], fun _ => rfl⟩
    | cons source older =>
      simp only [lower]
      split
      · exact ⟨[], older, fun _ => rfl⟩
      · split
        · exact ⟨_, [], fun _ => rfl⟩
        · exact ⟨_, older, fun _ => rfl⟩
  | dup =>
    cases pending with
    | nil => exact ⟨_, [], fun _ => rfl⟩
    | cons top older => exact ⟨[], top :: top :: older, fun _ => rfl⟩
  | pop =>
    cases pending with
    | nil => exact ⟨_, [], fun _ => rfl⟩
    | cons top older => exact ⟨[], older, fun _ => rfl⟩
  | skip => exact ⟨[], pending, fun _ => rfl⟩
  | act step => exact ⟨_, [], fun _ => rfl⟩
  | returnValue | returnVoid | leave | unknown | unsupported => cases h

theorem lower_of_needsOperands {e : Effect} (h : e.needsOperands = true) (pending : List UInt32)
    (more : List UInt32 → Remainder) : e.lower pending more = (e.lower [] more).prepend (loads pending) := by
  cases e with
  | leave | act | unsupported => simp [lower, loads, Remainder.prepend]
  | load | store | dup | pop | returnValue | returnVoid | skip | unknown => cases h

end Effect

namespace Instruction

abbrev StartsBlock (i : Instruction) (code : Bytes) : Prop :=
  i.offset ∈ blockStarts (sweep code)

theorem lastStart_append (starts : List Nat) (before : List Instruction) (i : Instruction) :
    lastStart starts (before ++ [i]) = if i.offset ∈ starts then i.offset else lastStart starts before := by
  by_cases h : i.offset ∈ starts <;> simp [lastStart, List.filter_append, h]

theorem lastStart_append_of_inner {starts : List Nat} {lead : List Instruction} (h : ∀ i ∈ lead, i.offset ∉ starts)
    (before : List Instruction) : lastStart starts (before ++ lead) = lastStart starts before := by
  have hnone : lead.filter (·.offset ∈ starts) = [] := by simpa using h
  simp [lastStart, List.filter_append, hnone]

theorem effect_of_loaded? {i : Instruction} (h : i.loaded? = some index) : i.effect = .load index := by
  obtain ⟨offset, next, byte, opcode, args⟩ := i
  cases opcode with
  | none => cases h
  | some op =>
    cases op with
    | getLocal | getLocal0 | getLocal1 | getLocal2 | getLocal3 =>
      cases h
      rfl
    | _ => cases h

def rest (code : Bytes) (before : List Instruction) (i : Instruction) (behind : List Instruction) : Remainder :=
  let starts := blockStarts (sweep code)
  i.effect.lower [] (after code starts (lastStart starts (before ++ [i])) behind)

end Instruction

/-- A block goes through instructions: it makes some steps, and then some loads wait. -/
theorem after_append (code : Bytes) {lead : List Instruction} (hinner : ∀ i ∈ lead, i.offset ∉ starts)
    (hpasses : ∀ i ∈ lead, i.effect.passes = true) (offset : Nat) (pending : List UInt32) :
    ∃ steps waiting, ∀ l, after code starts offset (lead ++ l) pending =
      (after code starts offset l waiting).prepend steps := by
  induction lead generalizing pending with
  | nil => exact ⟨[], pending, fun _ => rfl⟩
  | cons i lead ih =>
    rw [List.forall_mem_cons] at hinner hpasses
    obtain ⟨first, waiting, hfirst⟩ := Effect.lower_of_passes hpasses.1 pending
    obtain ⟨steps, waiting', hsteps⟩ := ih hinner.2 hpasses.2 waiting
    refine ⟨first ++ steps, waiting', fun l => ?_⟩
    rw [List.cons_append, after, if_neg hinner.1, hfirst, hsteps, Remainder.prepend_prepend]

section Arrival

variable {code : Bytes} {before behind : List Instruction} {i : Instruction} {invoke : Invoke}

theorem prefix_after (hi : i.offset ∈ starts ∨ i.effect.needsOperands = true) (offset : Nat) (pending : List UInt32) :
    loads pending <+: (after code starts offset (i :: behind) pending).1 := by
  unfold after
  split
  · exact List.prefix_rfl
  · rename_i hstart
    rw [Effect.lower_of_needsOperands (hi.resolve_left hstart)]
    exact List.prefix_append _ _

variable (hk : Instruction.known code = before ++ i :: behind)

include hk

theorem runs_iff_rest (hi : i.StartsBlock code) :
    Runs ((Graph.ofCode code).turn (FrameM.calls invoke)) i.offset a r ↔
      (Graph.ofCode code).Finishes (FrameM.calls invoke) (Instruction.rest code before i behind) a r := by
  have hrest : Instruction.rest code before i behind =
      i.effect.lower [] (after code (blockStarts (Instruction.sweep code)) i.offset behind) := by
    rw [Instruction.rest, Instruction.lastStart_append, if_pos hi]
  rw [hrest]
  exact Graph.runs_iff_finishes _ (b := blockAt code _ i behind) (Graph.block?_of_known hk hi) rfl

/-- The loads that wait are made first, before an instruction that needs them or starts a block. -/
theorem finishes_after (invoke : Invoke) (hi : i.StartsBlock code ∨ i.effect.needsOperands = true)
    (pending : List UInt32) (a : Activation) :
    (Graph.ofCode code).Finishes (FrameM.calls invoke) (after code (blockStarts (Instruction.sweep code))
        (Instruction.lastStart (blockStarts (Instruction.sweep code)) before) (i :: behind) pending) a r ↔
      (Graph.ofCode code).Finishes (FrameM.calls invoke)
        ((Instruction.rest code before i behind).prepend (loads pending)) a r := by
  rw [after]
  split
  · rename_i hstart
    have hjump : ((loads pending, .jump i.offset) : Remainder) =
        Remainder.prepend (loads pending) ([], .jump i.offset) := by
      simp [Remainder.prepend]
    rw [hjump]
    apply Graph.finishes_prepend_congr
    intro b
    exact (Graph.finishes_jump _ i.offset b).trans (runs_iff_rest hk hstart)
  · rename_i hstart
    rw [Effect.lower_of_needsOperands (hi.resolve_left hstart), Instruction.rest, Instruction.lastStart_append,
      if_neg hstart]

end Arrival

namespace FrameM

section

variable {a : Activation} {index : UInt32} {invoke : Invoke}

theorem forM_load_load (h : a.frame.locals[index.toNat]? = some r) :
    [Step.load index, Step.load index].forM (act invoke) a =
      (Step.loadDup index).forM (act invoke) a := by
  have hload : act invoke (.load index) a = push r a := bind_of_ok (getLocal_of_some h)
  rcases Nat.lt_or_ge a.frame.stack.length a.frame.stackLimit with hroom | hfull
  · have hfirst := hload.trans (push_of_room hroom r)
    have hagain : act invoke (.load index) (a.withOperands [r]) = push r (a.withOperands [r]) :=
      bind_of_ok (getLocal_of_some h)
    have hdup : act invoke { action := .dup } (a.withOperands [r]) = push r (a.withOperands [r]) :=
      bind_of_ok (peek_withOperands a r [])
    rw [Step.loadDup, forM_cons_of_ok hfirst, forM_cons_of_ok hfirst, forM_singleton, forM_singleton, hagain, hdup]
  · have hfirst := hload.trans (push_of_full hfull r)
    rw [Step.loadDup, forM_cons_of_error hfirst, forM_cons_of_error hfirst]

theorem getLocal_completes (index : UInt32) (a : Activation) :
    ∃ r b, getLocal index a = .ok r b ∧ b.frame = a.frame := by
  cases h : a.frame.locals[index.toNat]? with
  | some r => exact ⟨r, a, getLocal_of_some h, rfl⟩
  | none => exact ⟨a.next, a.withNew .undefined, getLocal_of_none h, rfl⟩

theorem forM_load_dup {x : Ref} {b c : Activation} (hget : getLocal index a = .ok x b) (hframe : b.frame = a.frame)
    (h : (Step.loadDup index).forM (act invoke) a = .ok () c) :
    a.frame.stack.length + 1 < a.frame.stackLimit ∧ c = b.withOperands [x, x] := by
  obtain ⟨_, d, hload, hdup⟩ := bind_eq_ok.mp h
  obtain ⟨-, rfl⟩ := push_eq_ok ((bind_of_ok hget).symm.trans hload)
  rw [forM_singleton] at hdup
  obtain ⟨hroom, rfl⟩ := push_eq_ok ((bind_of_ok (peek_withOperands b x [])).symm.trans hdup)
  refine ⟨?_, Activation.withOperands_withOperands b [x] [x]⟩
  rw [← hframe]
  exact hroom

theorem forM_load_load_of_none (invoke : Invoke) (h : a.frame.locals[index.toNat]? = none)
    (hroom : a.frame.stack.length + 1 < a.frame.stackLimit) :
    [Step.load index, Step.load index].forM (act invoke) a =
      .ok () (((a.withNew .undefined).withNew .undefined).withOperands [(a.withNew .undefined).next, a.next]) := by
  let b := (a.withNew .undefined).withOperands [a.next]
  have hfirst : act invoke (.load index) a = .ok () b := by
    refine (bind_of_ok (getLocal_of_none h)).trans ?_
    exact push_of_room (a := a.withNew .undefined) (Nat.lt_of_succ_lt hroom) a.next
  have hsecond : act invoke (.load index) b =
      .ok () ((b.withNew .undefined).withOperands [b.next]) := by
    refine (bind_of_ok (getLocal_of_none (a := b) h)).trans ?_
    exact push_of_room (a := b.withNew .undefined) hroom b.next
  rw [forM_cons_of_ok hfirst, forM_singleton, hsecond]
  rfl

end

end FrameM

/-- Within a block, a local is loaded and the load is duplicated. The instruction behind needs it among the
operands, or starts a block. -/
structure Duplicates (code : Bytes) (before : List Instruction) (first : Instruction) (lead : List Instruction)
    (dup user : Instruction) (behind : List Instruction) (index : UInt32) : Prop where
  known : Instruction.known code = before ++ first :: (lead ++ dup :: user :: behind)
  start : first.StartsBlock code
  inner : ∀ i ∈ lead, ¬i.StartsBlock code
  passes : ∀ i ∈ first :: lead, i.effect.passes = true
  load : (first :: lead).getLast?.bind Instruction.loaded? = some index
  isDup : dup.opcode = some .dup
  needed : user.StartsBlock code ∨ user.effect.needsOperands = true

namespace Duplicates

/-- What the block does for the load and the `dup`. A `dup` at the start of a block is made as such. -/
def copies (code : Bytes) (dup : Instruction) (index : UInt32) : List Step :=
  [Step.load index,
    if dup.StartsBlock code then { action := .dup }
    else Step.load index]

theorem forM_copies {invoke : Invoke} {a : Activation}
    (hkept : dup.StartsBlock code ∨ index.toNat < a.frame.locals.length) :
    (copies code dup index).forM (FrameM.act invoke) a =
      (Step.loadDup index).forM (FrameM.act invoke) a := by
  unfold copies
  split
  · rfl
  · rename_i hstart
    exact FrameM.forM_load_load (List.getElem?_eq_getElem (hkept.resolve_left hstart))

section

variable (h : Duplicates code before first lead dup user behind index)

include h

theorem effect_dup : dup.effect = .dup := by
  rw [Instruction.effect, h.isDup]

theorem lastStart_lead :
    Instruction.lastStart (blockStarts (Instruction.sweep code)) (before ++ first :: lead) = first.offset := by
  rw [List.append_cons, Instruction.lastStart_append_of_inner h.inner, Instruction.lastStart_append, if_pos h.start]

theorem known_dup : Instruction.known code = (before ++ first :: lead) ++ dup :: user :: behind := by
  simp [h.known]

theorem known_user : Instruction.known code = (before ++ first :: lead ++ [dup]) ++ user :: behind := by
  simp [h.known]

theorem rest_first : ∃ steps waiting, Instruction.rest code before first (lead ++ dup :: user :: behind) =
    (after code (blockStarts (Instruction.sweep code)) first.offset (dup :: user :: behind)
      (index :: waiting)).prepend steps := by
  have hload := h.load
  have hpasses := h.passes
  have hinner := h.inner
  rw [Instruction.rest, Instruction.lastStart_append, if_pos h.start]
  rcases List.eq_nil_or_concat lead with rfl | ⟨lead, last, rfl⟩
  · have heffect : first.effect = .load index := Instruction.effect_of_loaded? hload
    rw [heffect]
    exact ⟨[], [], rfl⟩
  · have heffect : last.effect = .load index := by
      apply Instruction.effect_of_loaded?
      simpa [List.getLast?_cons] using hload
    obtain ⟨steps, waiting, hsteps⟩ := Effect.lower_of_passes (hpasses first List.mem_cons_self) []
    have hinner' : ∀ i ∈ lead, ¬i.StartsBlock code := fun i hi => hinner i (by simp [hi])
    have hpasses' : ∀ i ∈ lead, i.effect.passes = true := fun i hi => hpasses i (by simp [hi])
    obtain ⟨steps', waiting', hsteps'⟩ := after_append code hinner' hpasses' first.offset waiting
    refine ⟨steps ++ steps', waiting', ?_⟩
    rw [hsteps, List.concat_append, hsteps', after, if_neg (hinner last (by simp)), heffect,
      Remainder.prepend_prepend]
    rfl

theorem finishes_copies {invoke : Invoke} (waiting : List UInt32) (a : Activation) :
    (Graph.ofCode code).Finishes (FrameM.calls invoke) (after code (blockStarts (Instruction.sweep code)) first.offset
        (dup :: user :: behind) (index :: waiting)) a r ↔
      (Graph.ofCode code).Finishes (FrameM.calls invoke)
        ((Instruction.rest code (before ++ first :: lead ++ [dup]) user behind).prepend
          (loads waiting ++ copies code dup index)) a r := by
  have huser := finishes_after (r := r) h.known_user invoke h.needed
  by_cases hstart : dup.StartsBlock code
  · have hdup := finishes_after (r := r) h.known_dup invoke (.inl hstart) (index :: waiting) a
    have hrest : Instruction.rest code (before ++ first :: lead) dup (user :: behind) =
        (after code (blockStarts (Instruction.sweep code))
          (Instruction.lastStart (blockStarts (Instruction.sweep code)) (before ++ first :: lead ++ [dup]))
          (user :: behind) []).prepend [{ action := .dup }] := by
      rw [Instruction.rest, h.effect_dup]
      rfl
    have hcopies : loads (index :: waiting) ++ [{ action := .dup }] = loads waiting ++ copies code dup index := by
      simp [copies, hstart]
    rw [h.lastStart_lead, hrest, Remainder.prepend_prepend, hcopies] at hdup
    exact hdup.trans (Graph.finishes_prepend_congr _ (huser []) a)
  · have hcopies : loads (index :: index :: waiting) = loads waiting ++ copies code dup index := by
      simp [copies, hstart]
    have hpast := huser (index :: index :: waiting) a
    rw [Instruction.lastStart_append, if_neg hstart, h.lastStart_lead, hcopies] at hpast
    rw [after, if_neg hstart, h.effect_dup]
    exact hpast

theorem prefix_after_dup (waiting : List UInt32) :
    loads (index :: waiting) <+: (after code (blockStarts (Instruction.sweep code)) first.offset
      (dup :: user :: behind) (index :: waiting)).1 := by
  by_cases hstart : dup.StartsBlock code
  · exact prefix_after (.inl hstart) first.offset (index :: waiting)
  · rw [after, if_neg hstart, h.effect_dup]
    have hloads : loads (index :: waiting) <+: loads (index :: index :: waiting) := by
      rw [loads_cons index (index :: waiting)]
      exact List.prefix_append _ _
    exact hloads.trans (prefix_after h.needed first.offset (index :: index :: waiting))

/-- The block makes the load and its copy behind some steps, and then goes on at the user. -/
theorem runs_iff_copies : ∃ b steps, (Graph.ofCode code).block? first.offset = some b ∧
    steps ++ [Step.load index] <+: b.steps ∧
    ∀ invoke a₀ a r, steps.forM (FrameM.act invoke) a₀ = .ok () a →
      (Runs ((Graph.ofCode code).turn (FrameM.calls invoke)) first.offset a₀ r ↔
        (Graph.ofCode code).Finishes (FrameM.calls invoke)
          ((Instruction.rest code (before ++ first :: lead ++ [dup]) user behind).prepend
            (copies code dup index)) a r) := by
  obtain ⟨steps, waiting, hrest⟩ := h.rest_first
  refine ⟨_, steps ++ loads waiting, Graph.block?_of_known h.known h.start, ?_, ?_⟩
  · have hbody := congrArg Prod.fst hrest
    rw [Instruction.rest, Instruction.lastStart_append, if_pos h.start] at hbody
    rw [blockAt, hbody, List.append_assoc, ← loads_cons]
    exact (List.prefix_append_right_inj steps).mpr (h.prefix_after_dup waiting)
  · intro invoke a₀ a r hsteps
    rw [runs_iff_rest h.known h.start, hrest, Graph.finishes_prepend_congr _ (h.finishes_copies waiting),
      Remainder.prepend_prepend, ← List.append_assoc, ← Remainder.prepend_prepend,
      Graph.finishes_prepend (FrameM.calls invoke) hsteps]

end

end Duplicates

/-- A local that is loaded and duplicated is the same object twice for the instruction behind, which needs it
among the operands, exactly if the local was written or the `dup` starts a block. The run of the graph is then
the one that loads the local onto the stack and duplicates it there. -/
theorem Graph.dup_keeps_identity (h : Duplicates code before first lead dup user behind index) :
    ∃ b steps, (ofCode code).block? first.offset = some b ∧
      steps ++ [Step.load index] <+: b.steps ∧
      ∀ invoke a₀ a, steps.forM (FrameM.act invoke) a₀ = .ok () a →
        (dup.StartsBlock code ∨ index.toNat < a.frame.locals.length →
          ∀ r, Runs ((ofCode code).turn (FrameM.calls invoke)) first.offset a₀ r ↔
            (ofCode code).Finishes (FrameM.calls invoke)
              ((Instruction.rest code (before ++ first :: lead ++ [dup]) user behind).prepend
                (Step.loadDup index)) a r) ∧
        ∀ c, (Step.loadDup index).forM (FrameM.act invoke) a = .ok () c →
          ∃ c' x y, c'.frame.stack = y :: x :: a.frame.stack ∧
            (y = x ↔ dup.StartsBlock code ∨ index.toNat < a.frame.locals.length) ∧
            (y = x → c' = c) ∧
            ∀ r, Runs ((ofCode code).turn (FrameM.calls invoke)) first.offset a₀ r ↔
              (ofCode code).Finishes (FrameM.calls invoke)
                (Instruction.rest code (before ++ first :: lead ++ [dup]) user behind) c' r := by
  obtain ⟨b, steps, hb, hload, hruns⟩ := h.runs_iff_copies
  refine ⟨b, steps, hb, hload, ?_⟩
  intro invoke a₀ a hsteps
  constructor
  · intro hkept r
    rw [hruns invoke a₀ a r hsteps, finishes_steps_congr (FrameM.calls invoke) (Duplicates.forM_copies hkept)]
  · intro c hc
    obtain ⟨x, d, hget, hframe⟩ := FrameM.getLocal_completes index a
    obtain ⟨hroom, hcopy⟩ := FrameM.forM_load_dup hget hframe hc
    by_cases hkept : dup.StartsBlock code ∨ index.toNat < a.frame.locals.length
    · refine ⟨c, x, x, ?_, iff_of_true rfl hkept, fun _ => rfl, ?_⟩
      · rw [hcopy, ← hframe]
        rfl
      · intro r
        have hcopies := (Duplicates.forM_copies hkept).trans hc
        rw [hruns invoke a₀ a r hsteps, finishes_prepend (FrameM.calls invoke) hcopies]
    · obtain ⟨hstart, hwritten⟩ := not_or.mp hkept
      have hnone : a.frame.locals[index.toNat]? = none := List.getElem?_eq_none (Nat.le_of_not_lt hwritten)
      have hcopies := FrameM.forM_load_load_of_none invoke hnone hroom
      have hne := a.next_withNew_ne .undefined
      refine ⟨((a.withNew .undefined).withNew .undefined).withOperands [(a.withNew .undefined).next, a.next],
        a.next, (a.withNew .undefined).next, rfl, iff_of_false hne hkept, fun he => (hne he).elim, ?_⟩
      intro r
      rw [hruns invoke a₀ a r hsteps, Duplicates.copies, if_neg hstart,
        finishes_prepend (FrameM.calls invoke) hcopies]

def Instruction.plain (offset : Nat) (op : Opcode) : Instruction :=
  { offset, next := offset + 1, byte := op.byte, opcode := some op, args := .none }

def doubling : Bytes :=
  [0xd1, 0xd0, 0x2a, 0xa0, 0x48]

theorem Graph.doubling_keeps_identity :
    ∃ b steps, (ofCode doubling).block? 0 = some b ∧ steps ++ [Step.load 0] <+: b.steps ∧
      ∀ invoke a₀ a c, steps.forM (FrameM.act invoke) a₀ = .ok () a → 0 < a.frame.locals.length →
        (Step.loadDup 0).forM (FrameM.act invoke) a = .ok () c →
        ∃ x, c.frame.stack = x :: x :: a.frame.stack ∧
          ∀ r, Runs ((ofCode doubling).turn (FrameM.calls invoke)) 0 a₀ r ↔
            (ofCode doubling).Finishes (FrameM.calls invoke)
              ([{ action := .add }, { action := .returnValue }], .ret) c r := by
  have hd : Duplicates doubling [] (.plain 0 .getLocal1) [.plain 1 .getLocal0] (.plain 2 .dup) (.plain 3 .add)
      [.plain 4 .returnValue] 0 := by
    constructor <;> decide
  obtain ⟨b, steps, hb, hload, hkeeps⟩ := dup_keeps_identity hd
  refine ⟨b, steps, hb, hload, ?_⟩
  intro invoke a₀ a c hsteps hwritten hc
  obtain ⟨c', x, y, hstack, hiff, hsame, hruns⟩ := (hkeeps invoke a₀ a hsteps).2 c hc
  obtain rfl := hiff.mpr (.inr hwritten)
  obtain rfl := hsame rfl
  exact ⟨y, hstack, hruns⟩

def Activation.withoutLocals : Activation where
  machine :=
    { document := { pool := { strings := ["x"], multinames := [.qname 0 1 false] } }
      config := {}
      global := ⟨0⟩
      store := { objects := #[{}] } }
  frame := { method := 0, stackLimit := 4, locals := [], localLimit := 4 }

def FrameM.returned (invoke : Invoke) (steps : List Step) (a : Activation) : Option Value :=
  match steps.forM (act invoke) a with
  | .ok _ b => b.frame.result.map b.machine.store.value
  | .error .. => none

/-- What is stored through the copy of a local that was never written does not reach the original. -/
theorem Graph.dup_splits_unwritten_local :
    ((ofCode [0xd3, 0x2a, 0x24, 0x07, 0x61, 0x01, 0x66, 0x01, 0x48]).block? 0).bind (fun b =>
        FrameM.returned (fun _ this _ => pure this) b.steps .withoutLocals) = some .undefined ∧
    FrameM.returned (fun _ this _ => pure this)
        [{ action := .getLocal, a := 3 }, { action := .dup }, { action := .pushByte, a := 7 },
          { action := .setProperty, a := 1 }, { action := .getProperty, a := 1 }, { action := .returnValue }]
        .withoutLocals = some (.integer 7) := by
  decide +kernel

end ActionVm
