import ActionVm.Proofs.Bytes.Patchwork
import ActionVm.Proofs.Graph.Threading
import ActionVm.Proofs.Native.Processor

namespace ActionVm.Native

/-- An instruction, or a jump to the block at a place. -/
inductive Item where
  | instr (i : Instr)
  | jump (j : Jump) (place : Nat)

namespace Item

def place? : Item → Option Nat
  | instr _ => none
  | jump _ place => some place

def patchwork : Patchwork Item Nat where
  head
    | instr i => i.encode
    | jump j _ => j.opcode
  reference? := place?
  width := 4

/-- The distance to a block from behind the field, where each block starts at its target. -/
def displacement (target : Nat → Nat) (field place : Nat) : Bytes :=
  Bytes.ofInt32 ((target place : Int) - (field + 4))

@[simp] theorem size_instr (i : Instr) : patchwork.size (instr i) = i.encode.length :=
  rfl

@[simp] theorem size_jump (j : Jump) (place : Nat) : patchwork.size (jump j place) = j.opcode.length + 4 :=
  rfl

@[simp] theorem blank_instr (i : Instr) : patchwork.blank (instr i) = i.encode :=
  List.append_nil _

@[simp] theorem blank_jump (j : Jump) (place : Nat) :
    patchwork.blank (jump j place) = j.opcode ++ Bytes.ofUInt32 0 :=
  rfl

@[simp] theorem bytes_instr (fill : Nat → Nat → Bytes) (start : Nat) (i : Instr) :
    patchwork.bytes fill start (instr i) = i.encode :=
  List.append_nil _

@[simp] theorem bytes_jump (fill : Nat → Nat → Bytes) (start : Nat) (j : Jump) (place : Nat) :
    patchwork.bytes fill start (jump j place) = j.opcode ++ fill (start + j.opcode.length) place :=
  rfl

theorem length_displacement (target : Nat → Nat) (field place : Nat) : (displacement target field place).length = 4 :=
  Bytes.length_littleEndian ..

theorem length_assemble (target : Nat → Nat) (start : Nat) (items : List Item) :
    (patchwork.assemble (displacement target) start items).length = extent patchwork.size items :=
  patchwork.length_assemble (length_displacement target) start items

end Item

section Items

variable (address : Callee → UInt64)

def callItems (callee : Callee) : List Item :=
  [.instr (.movRI64 .rax (address callee)), .instr (.callR .rax)]

def stepItems (s : Step) : List Item :=
  [.instr (.movRR .rdi .rbx), .instr (.movRI32 .rsi s.a), .instr (.movRI32 .rdx s.b)] ++
    callItems address (.action s.action)

def caseItems (cases : List (Nat × Nat)) : List Item :=
  cases.flatMap fun (place, i) => [.instr (.cmpRI32 .rax (UInt32.ofNat i)), .jump .ifEqual place]

def exitItems : Exit → List Item
  | .ret => [.instr (.pop .rbx), .instr .ret]
  | .jump place => [.jump .always place]
  | .branch condition taken fallthrough =>
    [.instr (.movRR .rdi .rbx)] ++ callItems address (.condition condition) ++
      [.instr (.testR8 Emission.result Emission.result), .jump .ifNotEqual taken, .jump .always fallthrough]
  | .switch cases default =>
    [.instr (.movRR .rdi .rbx), .instr (.movRI32 .rsi (UInt32.ofNat (cases.length - 1)))] ++
      callItems address .lookupSwitch ++ caseItems cases.zipIdx ++ [.jump .always default]

def blockItems (b : ThreadedBlock) : List Item :=
  b.steps.flatMap (stepItems address) ++ exitItems address b.exit

def entryItems : List Item :=
  [.instr (.push .rbx), .instr (.movRR .rbx .rdi)]

def blockStart (bs : List ThreadedBlock) (place : Nat) : Nat :=
  extent Item.patchwork.size entryItems + extent Item.patchwork.size ((bs.take place).flatMap (blockItems address))

end Items

theorem mem_targets_of_exitItems {address : Callee → UInt64} {exit : Exit} {item : Item}
    (h : item ∈ exitItems address exit) (hp : item.place? = some place) : place ∈ exit.targets := by
  cases exit with
  | ret =>
    simp only [exitItems, List.mem_cons, List.not_mem_nil, or_false] at h
    rcases h with rfl | rfl <;> cases hp
  | jump target =>
    rw [exitItems, List.mem_singleton] at h
    subst h
    cases hp
    exact List.mem_singleton_self _
  | branch condition taken fallthrough =>
    simp only [exitItems, callItems, List.mem_append, List.mem_cons, List.not_mem_nil, or_false] at h
    rcases h with (rfl | rfl | rfl) | rfl | rfl | rfl <;> cases hp <;> simp [Exit.targets]
  | switch cases default =>
    simp only [exitItems, callItems, caseItems, List.mem_append, List.mem_cons, List.not_mem_nil, or_false,
      List.mem_flatMap] at h
    rcases h with (((rfl | rfl) | rfl | rfl) | ⟨c, hc, rfl | rfl⟩) | rfl
    all_goals cases hp
    · exact List.mem_append_left _ (List.fst_mem_of_mem_zipIdx hc)
    · exact List.mem_append_right _ (List.mem_singleton_self _)

theorem mem_targets_of_blockItems {address : Callee → UInt64} {b : ThreadedBlock} {item : Item}
    (h : item ∈ blockItems address b) (hp : item.place? = some place) : place ∈ b.exit.targets := by
  rcases List.mem_append.mp h with h | h
  · obtain ⟨s, -, hs⟩ := List.mem_flatMap.mp h
    simp only [stepItems, callItems, List.mem_append, List.mem_cons, List.not_mem_nil, or_false] at hs
    rcases hs with (rfl | rfl | rfl) | rfl | rfl <;> cases hp
  · exact mem_targets_of_exitItems h hp

/-- The code of a buffer that holds items, when every place that they jump to is bound. -/
theorem Buffer.finish_of_items {b : Buffer} {items : List Item} {target : Nat → Nat}
    (hcode : b.code.toList = items.flatMap Item.patchwork.blank)
    (hfixups : b.fixups.toList = Item.patchwork.fields 0 items)
    (hbound : ∀ item ∈ items, ∀ place, item.place? = some place → b.target? place = some (target place)) :
    b.finish = .ok (Item.patchwork.assemble (Item.displacement target) 0 items) := by
  have hfix : ∀ item ∈ items, ∀ place, item.place? = some place → ∀ code field,
      b.fix code field place = .ok (Bytes.patch code field (Item.displacement target field place)) := by
    intro item hi place hp code field
    rw [fix, hbound item hi place hp]
    rfl
  have hblank : b.code.toList = [] ++ items.flatMap Item.patchwork.blank ++ [] := by simpa using hcode
  obtain ⟨done, hdone, hlist⟩ := Item.patchwork.foldlM_patch (Item.length_displacement target)
    (fun code (field, label) => b.fix code field label) hfix hblank
  rw [List.length_nil] at hdone
  rw [List.nil_append, List.append_nil] at hlist
  rw [finish, ← Array.foldlM_toList, hfixups, hdone]
  exact congrArg Except.ok hlist

namespace Emission

/-- One emission is another with items behind it. -/
structure Appends (e : Emission) (items : List Item) (e' : Emission) : Prop where
  code : e'.buffer.code.toList = e.buffer.code.toList ++ items.flatMap Item.patchwork.blank
  fixups : e'.buffer.fixups.toList = e.buffer.fixups.toList ++ Item.patchwork.fields e.buffer.code.size items
  labels : e'.buffer.labels = e.buffer.labels

namespace Appends

theorem refl (e : Emission) : Appends e [] e :=
  ⟨(List.append_nil _).symm, (List.append_nil _).symm, rfl⟩

theorem size (h : Appends e items e') :
    e'.buffer.code.size = e.buffer.code.size + extent Item.patchwork.size items := by
  rw [← Array.length_toList, h.code, List.length_append, Patchwork.length_flatMap_blank, Array.length_toList]

theorem trans (h : Appends e items e') (h' : Appends e' more e'') : Appends e (items ++ more) e'' := by
  refine ⟨?_, ?_, h'.labels.trans h.labels⟩
  · rw [h'.code, h.code, List.flatMap_append, List.append_assoc]
  · rw [h'.fixups, h.fixups, h.size, Patchwork.fields_append, List.append_assoc]

theorem instr (e : Emission) (i : Instr) : Appends e [.instr i] (e.instr i) := by
  refine ⟨?_, (List.append_nil _).symm, rfl⟩
  simp [Emission.instr, Buffer.emit]

theorem jump (e : Emission) (j : Jump) (place : Nat) : Appends e [.jump j place] (e.jump j place) := by
  have hsize : (e.buffer.code ++ j.opcode).size = e.buffer.code.size + j.opcode.length := by
    simp [← Array.length_toList]
  refine ⟨?_, ?_, rfl⟩
  · simp [Emission.jump, Buffer.emit, Buffer.rel32]
  · simp only [Emission.jump, Buffer.emit, Buffer.rel32, Array.toList_push, hsize]
    rfl

theorem call (address : Callee → UInt64) (e : Emission) (callee : Callee) :
    Appends e (callItems address callee) (e.call address callee) :=
  have h := (instr e (.movRI64 .rax (address callee))).trans (instr _ (.callR .rax))
  ⟨h.code, h.fixups, h.labels⟩

theorem step (address : Callee → UInt64) (e : Emission) (s : Step) :
    Appends e (stepItems address s) (e.step address s) :=
  (((instr e _).trans (instr _ _)).trans (instr _ _)).trans (call address _ _)

theorem steps (address : Callee → UInt64) (e : Emission) (l : List Step) :
    Appends e (l.flatMap (stepItems address)) (l.foldl (Emission.step address) e) := by
  induction l generalizing e with
  | nil => exact refl e
  | cons s rest ih =>
    rw [List.flatMap_cons, List.foldl_cons]
    exact (step address e s).trans (ih _)

theorem cases {f : Nat → Nat} {l : List (Nat × Nat)}
    (h : ∀ c ∈ l, targetPlace places source c.1 = .ok (f c.1)) (e : Emission) :
    ∃ e', Emission.cases places source e l = .ok e' ∧
      Appends e (caseItems (l.map (Prod.map f id))) e' := by
  induction l generalizing e with
  | nil => exact ⟨e, rfl, refl e⟩
  | cons c rest ih =>
    obtain ⟨target, i⟩ := c
    have hc := h _ List.mem_cons_self
    obtain ⟨e', he, happ⟩ := ih (fun c hm => h c (List.mem_cons_of_mem _ hm))
      ((e.instr (.cmpRI32 .rax (UInt32.ofNat i))).jump .ifEqual (f target))
    refine ⟨e', ?_, ((instr e _).trans (jump _ _ _)).trans happ⟩
    simp only [Emission.cases, hc]
    exact he

theorem exit {f : Nat → Nat} {exit : Exit}
    (h : ∀ target ∈ exit.targets, targetPlace places source target = .ok (f target))
    (address : Callee → UInt64) (e : Emission) :
    ∃ e', Emission.exit address places source e exit = .ok e' ∧
      Appends e (exitItems address (exit.map f)) e' := by
  cases exit with
  | ret => exact ⟨_, rfl, (instr e _).trans (instr _ _)⟩
  | jump target =>
    simp only [Emission.exit, h target (by simp [Exit.targets])]
    exact ⟨_, rfl, jump e _ _⟩
  | branch condition taken fallthrough =>
    simp only [Emission.exit, h taken (by simp [Exit.targets]), h fallthrough (by simp [Exit.targets])]
    exact ⟨_, rfl, ((instr e _).trans (call address _ _)).trans
      ((instr _ _).trans ((jump _ _ _).trans (jump _ _ _)))⟩
  | switch targets default =>
    obtain ⟨e', he, happ⟩ := cases (l := targets.zipIdx)
      (fun c hc => h c.1 (by simp [Exit.targets, List.fst_mem_of_mem_zipIdx hc]))
      (((e.instr (.movRR .rdi frame)).instr (.movRI32 .rsi (UInt32.ofNat (targets.length - 1)))).call
        address .lookupSwitch)
    refine ⟨e'.jump .always (f default), ?_, ?_⟩
    · simp only [Emission.exit, he, h default (by simp [Exit.targets])]
      rfl
    · have hitems := ((((instr e _).trans (instr _ _)).trans (call address _ _)).trans happ).trans
        (jump e' .always (f default))
      simpa [exitItems, Exit.map, List.zipIdx_map, frame] using hitems

end Appends

theorem target?_bind {b : Buffer} (hl : label < b.labels.size) (place : Nat) :
    (b.bind label).target? place = if place = label then some b.code.size else b.target? place := by
  unfold Buffer.bind Buffer.target?
  dsimp only
  rw [Array.getElem?_setIfInBounds]
  by_cases h : label = place
  · rw [if_pos h, if_pos hl, if_pos h.symm]
    rfl
  · rw [if_neg h, if_neg (Ne.symm h)]

theorem block_eq_ok {g : Graph} (h : g.Closed) (hb : b ∈ g.blocks) (address : Callee → UInt64)
    (e : Emission) (place : Nat) :
    ∃ e', e.block address g.places b place = .ok e' ∧
      Appends { e with buffer := e.buffer.bind place } (blockItems address (Threaded.placed g b)) e' := by
  obtain ⟨exit, he, ht⟩ := h b hb
  obtain ⟨e', hexit, happ⟩ := Appends.exit (f := g.offsets.idxOf)
    (fun target hm => Graph.targetPlace_of_mem (ht target hm) b.offset) address
    (b.steps.foldl (step address) { e with buffer := e.buffer.bind place })
  refine ⟨e', ?_, ?_⟩
  · simp only [block, he]
    exact hexit
  · rw [Threaded.placed, he]
    exact (Appends.steps address _ _).trans happ

structure Places (address : Callee → UInt64) (place : Nat) (e : Emission) (bs : List ThreadedBlock)
    (e' : Emission) : Prop where
  code : e'.buffer.code.toList =
    e.buffer.code.toList ++ (bs.flatMap (blockItems address)).flatMap Item.patchwork.blank
  fixups : e'.buffer.fixups.toList =
    e.buffer.fixups.toList ++ Item.patchwork.fields e.buffer.code.size (bs.flatMap (blockItems address))
  before : ∀ p < place, e'.buffer.target? p = e.buffer.target? p
  bound : ∀ p < bs.length, e'.buffer.target? (place + p) =
    some (e.buffer.code.size + extent Item.patchwork.size ((bs.take p).flatMap (blockItems address)))

theorem Places.cons {address : Callee → UInt64} {e : Emission} (hl : place < e.buffer.labels.size)
    (h : Appends { e with buffer := e.buffer.bind place } (blockItems address b) e')
    (hs : Places address (place + 1) e' bs e'') : Places address place e (b :: bs) e'' := by
  have hsize : e'.buffer.code.size = e.buffer.code.size + extent Item.patchwork.size (blockItems address b) := h.size
  have htarget (p : Nat) : e'.buffer.target? p =
      if p = place then some e.buffer.code.size else e.buffer.target? p := by
    rw [← target?_bind hl, Buffer.target?, h.labels]
    rfl
  refine ⟨?_, ?_, ?_, ?_⟩
  · rw [hs.code, h.code, List.flatMap_cons, List.flatMap_append, List.append_assoc]
    rfl
  · rw [hs.fixups, h.fixups, hsize, List.flatMap_cons, Patchwork.fields_append, List.append_assoc]
    rfl
  · intro p hp
    rw [hs.before p (by omega), htarget, if_neg (by omega)]
  · intro p hp
    cases p with
    | zero => rw [Nat.add_zero, hs.before place (by omega), htarget, if_pos rfl]; rfl
    | succ p =>
      rw [show place + (p + 1) = place + 1 + p by omega, hs.bound p (by simpa using hp), hsize,
        List.take_succ_cons, List.flatMap_cons, extent_append, Nat.add_assoc]

theorem foldlM_block {g : Graph} (h : g.Closed) (address : Callee → UInt64) {bs : List Block}
    (hb : ∀ b ∈ bs, b ∈ g.blocks) {e : Emission} (hl : place + bs.length ≤ e.buffer.labels.size) :
    ∃ e', (bs.zipIdx place).foldlM (fun e (b, place) => e.block address g.places b place) e = .ok e' ∧
      Places address place e (bs.map (Threaded.placed g)) e' := by
  induction bs generalizing place e with
  | nil => exact ⟨e, rfl, (List.append_nil _).symm, (List.append_nil _).symm, fun _ _ => rfl, nofun⟩
  | cons b rest ih =>
    rw [List.length_cons] at hl
    obtain ⟨e', he, happ⟩ := block_eq_ok h (hb b List.mem_cons_self) address e place
    have hl' : place + 1 + rest.length ≤ e'.buffer.labels.size := by
      rw [happ.labels]
      simp only [Buffer.bind, Array.size_setIfInBounds]
      omega
    obtain ⟨e'', hrest, hplaces⟩ := ih (fun c hc => hb c (List.mem_cons_of_mem _ hc)) hl'
    refine ⟨e'', ?_, .cons (by omega) happ hplaces⟩
    simp only [List.zipIdx_cons, List.foldlM_cons, he]
    exact hrest

end Emission

def codeItems (address : Callee → UInt64) (bs : List ThreadedBlock) : List Item :=
  entryItems ++ bs.flatMap (blockItems address)

/-- The code of a closed graph is that of its blocks, behind the entry. -/
theorem emit_eq_ok {g : Graph} (h : g.Closed) (address : Callee → UInt64) :
    ∃ calls, emit address g = .ok
      { bytes := Item.patchwork.assemble (Item.displacement (blockStart address (g.blocks.map (Threaded.placed g)))) 0
          (codeItems address (g.blocks.map (Threaded.placed g))), calls } := by
  have hentry : Emission.Appends { buffer := { labels := Array.replicate g.blocks.length none } } entryItems
      (Emission.start g) := (Emission.Appends.instr _ _).trans (Emission.Appends.instr _ _)
  have hlabels : 0 + g.blocks.length ≤ (Emission.start g).buffer.labels.size := by
    rw [hentry.labels]
    simp
  obtain ⟨e, he, hplaces⟩ := Emission.foldlM_block h address (fun _ hb => hb) hlabels
  generalize hbs : g.blocks.map (Threaded.placed g) = bs at hplaces
  have hcode : e.buffer.code.toList = (codeItems address bs).flatMap Item.patchwork.blank := by
    rw [hplaces.code, hentry.code, codeItems, List.flatMap_append]
    simp
  have hsize : (Emission.start g).buffer.code.size = extent Item.patchwork.size entryItems := by
    rw [hentry.size]
    simp
  have hfixups : e.buffer.fixups.toList = Item.patchwork.fields 0 (codeItems address bs) := by
    rw [hplaces.fixups, hentry.fixups, hsize, codeItems, Patchwork.fields_append]
    simp
  have hbound : ∀ item ∈ codeItems address bs, ∀ place, item.place? = some place →
      e.buffer.target? place = some (blockStart address bs place) := by
    intro item hi place hp
    have hlt : place < bs.length := by
      rcases List.mem_append.mp hi with hi | hi
      · simp only [entryItems, List.mem_cons, List.not_mem_nil, or_false] at hi
        rcases hi with rfl | rfl <;> cases hp
      · obtain ⟨b, hb, hi⟩ := List.mem_flatMap.mp hi
        rw [← hbs] at hb ⊢
        simpa using Threaded.targets_placed h hb place (mem_targets_of_blockItems hi hp)
    have hb := hplaces.bound place hlt
    rwa [Nat.zero_add, hsize] at hb
  refine ⟨e.calls.toList, ?_⟩
  rw [emit, Emission.blocks, he]
  simp only [Buffer.finish_of_items hcode hfixups hbound]

end ActionVm.Native
