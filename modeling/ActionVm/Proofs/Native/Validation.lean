import ActionVm.Proofs.Native.Layout

namespace ActionVm

def errorOf : Except ε α → Option ε
  | .ok _ => none
  | .error e => some e

theorem errorOf_eq_some {x : Except ε α} : errorOf x = some e ↔ x = .error e := by
  cases x <;> simp [errorOf]

theorem exists_of_errorOf_eq_none {x : Except ε α} (h : errorOf x = none) : ∃ a, x = .ok a := by
  cases x with
  | ok a => exact ⟨a, rfl⟩
  | error e => cases h

theorem errorOf_bind {x : Except ε α} {f : α → Except ε β} {rest : Option ε}
    (h : ∀ a, errorOf (f a) = rest) : errorOf (x >>= f) = (errorOf x).or rest := by
  cases x with
  | ok a => exact h a
  | error e => rfl

theorem errorOf_bind_pure (x : Except ε α) (f : α → β) : errorOf (x >>= fun a => pure (f a)) = errorOf x := by
  cases x <;> rfl

/-- A walk that carries a state along ends in the first error, if the errors do not depend on the state. -/
theorem errorOf_foldlM {f : σ → α → Except ε σ} (fault? : α → Option ε) (h : ∀ s x, errorOf (f s x) = fault? x)
    (l : List α) (s : σ) : errorOf (l.foldlM f s) = l.findSome? fault? := by
  induction l generalizing s with
  | nil => rfl
  | cons x rest ih =>
    rw [List.foldlM_cons, errorOf_bind ih, h, List.findSome?_cons]
    cases fault? x <;> rfl

theorem errorOf_forM (f : α → Except ε Unit) (l : List α) :
    errorOf (l.forM f) = l.findSome? fun x => errorOf (f x) := by
  induction l with
  | nil => rfl
  | cons x rest ih =>
    change errorOf (f x >>= fun _ => rest.forM f) = _
    rw [errorOf_bind fun _ => ih, List.findSome?_cons]
    cases errorOf (f x) <;> rfl

theorem errorOf_mapM (f : α → Except ε β) (l : List α) :
    errorOf (l.mapM f) = l.findSome? fun x => errorOf (f x) := by
  induction l with
  | nil => rfl
  | cons x rest ih =>
    have hrest (y : β) : errorOf (rest.mapM f >>= fun ys => pure (y :: ys)) =
        rest.findSome? fun x => errorOf (f x) := by
      rw [errorOf_bind_pure, ih]
    rw [List.mapM_cons, errorOf_bind hrest, List.findSome?_cons]
    cases errorOf (f x) <;> rfl

namespace Exit

theorem errorOf_resolve (f : Nat → Except ε Nat) (exit : Exit) :
    errorOf (exit.resolve f) = exit.targets.findSome? fun target => errorOf (f target) := by
  cases exit with
  | ret => rfl
  | jump target =>
    rw [resolve, errorOf_bind_pure, targets, List.findSome?_singleton]
  | branch condition taken fallthrough =>
    rw [resolve, errorOf_bind fun _ => errorOf_bind_pure _ _]
    cases h : errorOf (f taken) <;> simp [targets, h]
  | switch cases default =>
    rw [resolve, errorOf_bind fun _ => errorOf_bind_pure _ _, errorOf_mapM, targets, List.findSome?_append,
      List.findSome?_singleton]

end Exit

namespace Block

def fault? (known : List Nat) (b : Block) : Option GraphError :=
  match b.exit with
  | none => some (.missingTerminator b.offset)
  | some exit => exit.targets.findSome? fun target =>
      if target ∈ known then none else some (.unknownBlock b.offset target)

/-- A block's first fault is that it has no exit, or the first target that is not known. -/
inductive FirstFault (known : List Nat) (b : Block) : GraphError → Prop where
  | missingTerminator (hexit : b.exit = none) : FirstFault known b (.missingTerminator b.offset)
  | unknownBlock {leave : Exit} {target : Nat} {earlier later : List Nat} (hexit : b.exit = some leave)
    (htargets : leave.targets = earlier ++ target :: later) (hearlier : ∀ t ∈ earlier, t ∈ known)
    (hunknown : target ∉ known) : FirstFault known b (.unknownBlock b.offset target)

theorem fault?_eq_some {known : List Nat} {b : Block} (h : b.fault? known = some e) : b.FirstFault known e := by
  unfold fault? at h
  split at h
  · rename_i hexit
    cases h
    exact .missingTerminator hexit
  · rename_i exit hexit
    obtain ⟨earlier, target, later, htargets, htarget, hearlier⟩ := List.findSome?_eq_some_iff.mp h
    split at htarget
    · cases htarget
    · rename_i hunknown
      cases htarget
      apply FirstFault.unknownBlock hexit htargets ?_ hunknown
      intro t ht
      by_contra hnot
      exact absurd (hearlier t ht) (by simp [hnot])

theorem fault?_eq_none {known : List Nat} {b : Block} :
    b.fault? known = none ↔ ∃ leave, b.exit = some leave ∧ ∀ target ∈ leave.targets, target ∈ known := by
  unfold fault?
  cases b.exit <;> simp

end Block

namespace Graph

def fault? (g : Graph) : Option GraphError :=
  g.blocks.findSome? (Block.fault? g.offsets)

/-- A graph's first fault is the first one of a block, and the blocks at smaller offsets have none. -/
def FirstFault (g : Graph) (e : GraphError) : Prop :=
  ∃ b ∈ g.blocks, b.FirstFault g.offsets e ∧ ∀ c ∈ g.blocks, c.offset < b.offset →
    ∃ leave, c.exit = some leave ∧ ∀ target ∈ leave.targets, target ∈ g.offsets

theorem errorOf_targetPlace (g : Graph) (source target : Nat) :
    errorOf (targetPlace g.places source target) =
      if target ∈ g.offsets then none else some (.unknownBlock source target) := by
  split
  · rename_i h
    rw [targetPlace_of_mem h]
    rfl
  · rename_i h
    have hnone : g.places[target]? = none := by
      apply Std.HashMap.getElem?_ofList_of_contains_eq_false
      simpa using h
    rw [targetPlace, hnone]
    rfl

theorem errorOf_check (g : Graph) : errorOf g.check = g.fault? := by
  rw [check, errorOf_forM, fault?]
  congr 1
  funext b
  unfold Block.fault?
  cases b.exit with
  | none => rfl
  | some exit =>
    dsimp only
    induction exit.targets with
    | nil => rfl
    | cons target rest ih =>
      by_cases h : target ∈ g.offsets
      · rw [List.find?_cons_of_neg (by simpa using h), List.findSome?_cons, if_pos h]
        exact ih
      · rw [List.find?_cons_of_pos (by simpa using h), List.findSome?_cons, if_neg h]
        rfl

theorem firstFault_of_fault? {g : Graph} (h : g.fault? = some e) : g.FirstFault e := by
  obtain ⟨before, b, behind, hblocks, hfault, hbefore⟩ := List.findSome?_eq_some_iff.mp h
  have hascending := g.ascending
  rw [hblocks] at hascending
  refine ⟨b, by simp [hblocks], Block.fault?_eq_some hfault, ?_⟩
  intro c hc hlt
  rw [hblocks] at hc
  rcases List.mem_append.mp hc with hc | hc
  · exact Block.fault?_eq_none.mp (hbefore c hc)
  · rcases List.mem_cons.mp hc with rfl | hc
    · exact absurd hlt (Nat.lt_irrefl _)
    · have hgt := List.rel_of_pairwise_cons (List.pairwise_append.mp hascending).2.1 hc
      exact absurd hlt (Nat.lt_asymm hgt)

theorem closed_of_fault?_eq_none {g : Graph} (h : g.fault? = none) : g.Closed := by
  rw [← errorOf_check] at h
  obtain ⟨_, hcheck⟩ := exists_of_errorOf_eq_none h
  exact check_eq_ok.mp hcheck

end Graph

theorem Threaded.errorOf_ofGraph (g : Graph) : errorOf (ofGraph g) = g.fault? := by
  rw [ofGraph, errorOf_bind_pure, errorOf_mapM, Graph.fault?]
  congr 1
  funext b
  unfold block Block.fault?
  cases b.exit with
  | none => rfl
  | some exit =>
    dsimp only
    rw [errorOf_bind_pure, Exit.errorOf_resolve]
    simp only [Graph.errorOf_targetPlace]

namespace Native

namespace Emission

theorem errorOf_cases (places : Std.HashMap Nat Nat) (source : Nat) (e : Emission) (l : List (Nat × Nat)) :
    errorOf (cases places source e l) =
      (l.map Prod.fst).findSome? fun target => errorOf (targetPlace places source target) := by
  induction l generalizing e with
  | nil => rfl
  | cons c rest ih =>
    obtain ⟨target, i⟩ := c
    rw [cases, errorOf_bind fun label => ih _, List.map_cons, List.findSome?_cons]
    cases errorOf (targetPlace places source target) <;> rfl

theorem errorOf_exit (address : Callee → UInt64) (places : Std.HashMap Nat Nat) (source : Nat) (e : Emission)
    (leave : Exit) :
    errorOf (e.exit address places source leave) =
      leave.targets.findSome? fun target => errorOf (targetPlace places source target) := by
  cases leave with
  | ret => rfl
  | jump target =>
    rw [exit, errorOf_bind_pure, Exit.targets, List.findSome?_singleton]
  | branch condition taken fallthrough =>
    rw [exit, errorOf_bind fun label => errorOf_bind_pure _ _]
    cases h : errorOf (targetPlace places source taken) <;> simp [Exit.targets, h]
  | switch targets default =>
    rw [exit, errorOf_bind fun e => errorOf_bind_pure _ _, errorOf_cases, List.zipIdx_map_fst, Exit.targets,
      List.findSome?_append, List.findSome?_singleton]

theorem errorOf_block (address : Callee → UInt64) (g : Graph) (e : Emission) (b : Block) (place : Nat) :
    errorOf (e.block address g.places b place) = b.fault? g.offsets := by
  unfold block Block.fault?
  cases b.exit with
  | none => rfl
  | some leave =>
    dsimp only
    rw [errorOf_exit]
    simp only [Graph.errorOf_targetPlace]

theorem errorOf_blocks (address : Callee → UInt64) (g : Graph) : errorOf (blocks address g) = g.fault? := by
  have hblock (e : Emission) (c : Block × Nat) :
      errorOf (e.block address g.places c.1 c.2) = c.1.fault? g.offsets := errorOf_block address g e c.1 c.2
  rw [blocks, errorOf_foldlM _ hblock, Graph.fault?]
  conv_rhs => rw [← List.zipIdx_map_fst 0 g.blocks, List.findSome?_map]
  rfl

end Emission

end Native

/-- The three walks over a graph agree. Either the graph is closed, its check passes and it has threaded and
machine code, or all three report its first fault. In particular, no label is left unbound. -/
theorem validators_agree (g : Graph) (address : Native.Callee → UInt64) :
    (g.Closed ∧ g.check = .ok () ∧ (∃ code, Threaded.ofGraph g = .ok code) ∧
      ∃ code, Native.emit address g = .ok code) ∨
    ∃ e, g.FirstFault e ∧ g.check = .error e ∧ Threaded.ofGraph g = .error e ∧
      Native.emit address g = .error (.graph e) := by
  cases hfault : g.fault? with
  | none =>
    have hclosed := Graph.closed_of_fault?_eq_none hfault
    obtain ⟨calls, hemit⟩ := Native.emit_eq_ok hclosed address
    left
    exact ⟨hclosed, Graph.check_eq_ok.mpr hclosed, ⟨_, Threaded.ofGraph_eq_ok hclosed⟩, ⟨_, hemit⟩⟩
  | some e =>
    have hcheck := errorOf_eq_some.mp (g.errorOf_check.trans hfault)
    have hthreaded := errorOf_eq_some.mp ((Threaded.errorOf_ofGraph g).trans hfault)
    have hblocks := errorOf_eq_some.mp ((Native.Emission.errorOf_blocks address g).trans hfault)
    right
    exact ⟨e, Graph.firstFault_of_fault? hfault, hcheck, hthreaded, by rw [Native.emit, hblocks]⟩

end ActionVm
