import ActionVm.Proofs.Machine.Operands
import ActionVm.Proofs.Machine.Policy

namespace ActionVm

theorem Frame.mem_references {f : Frame} {r : Ref} :
    r ∈ f.references ↔ r ∈ f.stack ∨ r ∈ f.locals ∨ r ∈ f.scopes ∨ f.result = some r := by
  simp [references]

/-- A machine under the policy with a frame that has good references only. -/
structure Policy.Fair (p : Policy) (a : Activation) : Prop where
  machine : p.holds a.machine
  frame : ∀ r ∈ a.frame.references, p.good r

namespace FrameM

variable {p : Policy} {i j : Invoke}

theorem obeys_frame : Obeys A p.Fair (fun f => ∀ r ∈ f.references, p.good r) frame :=
  .bind .get fun _ ha => .pure ha.frame

theorem obeys_modifyFrame {f : Frame → Frame}
    (h : ∀ frame r, r ∈ (f frame).references → r ∈ frame.references ∨ p.good r) :
    Obeys A p.Fair (fun _ => True) (modifyFrame f) := by
  apply Concur.modify
  intro a ha
  refine ⟨ha.machine, fun r hr => ?_⟩
  rcases h a.frame r hr with hr | hr
  · exact ha.frame r hr
  · exact hr

theorem obeys_fail {α : Type} {Q : α → Prop} (f : UInt32 → Fault) : Obeys A p.Fair Q (fail f : FrameM α) :=
  .bind obeys_frame fun _ _ => .throw _

theorem concur_callOut {x y : MachineM α} (h : Concur A p.holds Q x y) (refs : List Ref) :
    Concur A p.Fair Q (callOut refs x) (callOut refs y) := by
  intro a ha
  have hc := MachineM.concur_holding h (a.frame.references ++ refs) a.machine ha.machine
  simp only [ConcurAt, callOut] at hc ⊢
  generalize MachineM.holding (a.frame.references ++ refs) x a.machine = first at hc ⊢
  generalize MachineM.holding (a.frame.references ++ refs) y a.machine = second at hc ⊢
  cases hc with
  | ok hr hm => exact .ok hr ⟨hm, ha.frame⟩
  | error hm => exact .error ⟨hm, ha.frame⟩
  | alarm he hm => exact .alarm he ⟨hm, ha.frame⟩

theorem obeysAt_onStore {act : StoreM α} (ha : p.Fair a)
    (h : ConcurAt (fun _ => False) (p.store a.machine) Q a.machine.store act act) :
    ConcurAt A p.Fair Q a (onStore act) (onStore act) := by
  have hc : ConcurAt A p.holds Q a.machine (MachineM.onStore act) (MachineM.onStore act) := MachineM.obeysAt_onStore h
  simp only [ConcurAt, onStore] at hc ⊢
  cases hact : MachineM.onStore act a.machine with
  | ok r m =>
    rw [hact] at hc
    cases hc with
    | ok hr hm => exact .ok hr ⟨hm, ha.frame⟩
  | error e m =>
    rw [hact] at hc
    cases hc with
    | error hm => exact .error ⟨hm, ha.frame⟩
    | alarm he hm => exact .alarm he ⟨hm, ha.frame⟩

theorem obeys_onStore {act : StoreM α} (h : ∀ m, Obeys (fun _ => False) (p.store m) Q act) :
    Obeys A p.Fair Q (onStore act) :=
  fun a ha => obeysAt_onStore ha (h a.machine a.machine.store ha.machine)

theorem obeys_fresh {v : Value} (h : p.Admits v) : Obeys A p.Fair p.good (fresh v) :=
  obeys_onStore (StoreM.obeys_alloc h)

theorem obeys_simple {v : Value} (h : v.IsSimple) : Obeys A p.Fair p.good (fresh v) :=
  obeys_onStore (StoreM.obeys_allocSimple h)

theorem obeys_value (r : Ref) : Obeys A p.Fair (p.Reads r) (value r) :=
  .bind .get fun _ ha => .pure (p.reads r ha.machine)

theorem obeys_textOf (r : Ref) : Obeys A p.Fair (fun _ => True) (textOf r) := by
  refine .bind .get fun a _ => ?_
  cases a.machine.store.text? r with
  | some text => exact .done _
  | none => exact .throw _

theorem obeys_pool : Obeys A p.Fair (fun _ => True) pool :=
  .bind .get fun _ _ => .done _

theorem obeys_global : Obeys A p.Fair p.good global :=
  .bind .get fun _ ha => .pure (p.good_global ha.machine)

theorem obeys_push (h : p.good r) : Obeys A p.Fair (fun _ => True) (push r) := by
  refine .bind obeys_frame fun f _ => ?_
  split
  · exact obeys_fail _
  · apply obeys_modifyFrame
    intro frame r' hr
    rcases List.mem_cons.mp hr with rfl | hr
    · exact .inr h
    · exact .inl hr

theorem obeys_pushFresh {v : Value} (h : p.Admits v) : Obeys A p.Fair (fun _ => True) (pushFresh v) :=
  .bind (obeys_fresh h) fun _ hr => obeys_push hr

theorem obeys_pushSimple {v : Value} (h : v.IsSimple) : Obeys A p.Fair (fun _ => True) (pushFresh v) :=
  obeys_pushFresh (h.admits _)

theorem obeys_pop : Obeys A p.Fair p.good pop := by
  intro a ha
  obtain ⟨machine, ⟨method, stack, stackLimit, locals, localLimit, scopes, result⟩⟩ := a
  cases stack with
  | nil => exact .error ha
  | cons r rest =>
    exact .ok (ha.frame r List.mem_cons_self) ⟨ha.machine, fun r' hr => ha.frame r' (List.mem_cons_of_mem _ hr)⟩

theorem obeys_peek : Obeys A p.Fair p.good peek := by
  refine .bind obeys_frame fun f hf => ?_
  split
  · exact obeys_fail _
  · rename_i r rest hs
    exact .pure (hf r (Frame.mem_references.mpr (.inl (hs ▸ List.mem_cons_self))))

theorem obeys_popOnto {above : List Ref} (h : ∀ r ∈ above, p.good r) (n : Nat) :
    Obeys A p.Fair (fun refs => ∀ r ∈ refs, p.good r) (popOnto above n) := by
  induction n generalizing above with
  | zero => exact .pure h
  | succ n ih => exact .bind obeys_pop fun r hr => ih (List.forall_mem_cons.mpr ⟨hr, h⟩)

theorem obeys_popN (n : Nat) : Obeys A p.Fair (fun refs => ∀ r ∈ refs, p.good r) (popN n) :=
  .bind (.within _ fun _ _ => trivial) fun n _ => obeys_popOnto (List.forall_mem_nil _) n

theorem obeys_popPair : Obeys A p.Fair (fun pair => p.good pair.1 ∧ p.good pair.2) popPair :=
  .bind obeys_pop fun _ hr => .bind obeys_pop fun _ hl => .pure ⟨hl, hr⟩

theorem obeys_getLocal (index : UInt32) : Obeys A p.Fair p.good (getLocal index) := by
  refine .bind obeys_frame fun f hf => ?_
  split
  · rename_i r hr
    exact .pure (hf r (Frame.mem_references.mpr (.inr (.inl (List.mem_of_getElem? hr)))))
  · exact obeys_simple ⟨rfl, rfl⟩

theorem obeys_setLocal (index : UInt32) (h : p.good r) : Obeys A p.Fair (fun _ => True) (setLocal index r) := by
  refine .bind obeys_frame fun f _ => ?_
  dsimp only
  split
  · exact .done _
  · refine .bind (obeys_onStore (StoreM.obeys_freshUndefined _)) fun filling hf => ?_
    apply obeys_modifyFrame
    intro frame r' hr
    simp only [Frame.mem_references] at hr ⊢
    rcases hr with hr | hr | hr
    · exact .inl (.inl hr)
    · rcases List.mem_or_eq_of_mem_set hr with hr | rfl
      · rcases List.mem_append.mp hr with hr | hr
        · exact .inl (.inr (.inl hr))
        · exact .inr (hf r' hr)
      · exact .inr h
    · exact .inl (.inr (.inr hr))

theorem obeys_nameText (index : UInt32) : Obeys A p.Fair (fun _ => True) (nameText index) := by
  refine .bind obeys_pool fun pool _ => ?_
  split
  · exact .bind obeys_pop fun _ _ => .done _
  · exact .bind obeys_pop fun r _ => .bind (obeys_textOf r) fun _ _ => .bind obeys_pop fun _ _ => .done _
  · exact .bind obeys_pop fun r _ => obeys_textOf r
  · exact .done _

theorem obeys_combine {f : Value → Value → Value} (h : ∀ v w, (f v w).IsSimple) :
    Obeys A p.Fair (fun _ => True) (combine f) := by
  refine .bind obeys_popPair fun pair _ => ?_
  exact .bind (obeys_value pair.1) fun _ _ => .bind (obeys_value pair.2) fun _ _ => obeys_pushSimple (h _ _)

theorem good_of_scope {f : Frame} (hf : ∀ r ∈ f.references, p.good r) (h : r ∈ f.scopes) : p.good r :=
  hf r (Frame.mem_references.mpr (.inr (.inr (.inl h))))

theorem obeys_findScope? (name : String) : Obeys A p.Fair (fun found => ∀ r ∈ found, p.good r) (findScope? name) := by
  refine .bind .get fun a _ => .bind obeys_frame fun f hf => .pure fun r hr => ?_
  exact good_of_scope hf (List.mem_of_find?_eq_some hr)

theorem obeys_swap : Obeys A p.Fair (fun _ => True) swap :=
  .bind obeys_pop fun _ ht => .bind obeys_pop fun _ hb => .bind (obeys_push ht) fun _ _ => obeys_push hb

theorem obeys_incLocal (index : UInt32) : Obeys A p.Fair (fun _ => True) (incLocal index) := by
  refine .bind (obeys_getLocal index) fun r _ => .bind (obeys_value r) fun v _ => ?_
  split
  · exact .bind (obeys_simple ⟨rfl, rfl⟩) fun _ hr => obeys_setLocal index hr
  · exact .done _

theorem concur_getProperty (hi : p.Invokes A i j) (index : UInt32) :
    Concur A p.Fair (fun _ => True) (getProperty i index) (getProperty j index) := by
  refine .bind (obeys_nameText index) fun name _ => .bind obeys_pop fun obj hobj => .bind .get fun a _ => ?_
  split
  · rename_i getter _
    exact .bind (concur_callOut (MachineM.concur_callFunction hi getter hobj (List.forall_mem_nil _)) _) fun _ hr =>
      obeys_push hr
  · refine .bind (obeys_onStore (StoreM.obeys_property? obj name)) fun found _ => ?_
    cases found with
    | none => exact obeys_pushSimple ⟨rfl, rfl⟩
    | some r => exact .bind (concur_callOut (MachineM.concur_resolve hi obj name r) _) fun _ hr => obeys_push hr

theorem concur_setProperty (hi : p.Invokes A i j) (index : UInt32) :
    Concur A p.Fair (fun _ => True) (setProperty i index) (setProperty j index) := by
  refine .bind obeys_pop fun new hnew => .bind (obeys_nameText index) fun name _ => ?_
  refine .bind obeys_pop fun obj hobj => .bind .get fun a _ => ?_
  split
  · rename_i setter _
    have hargs : ∀ r ∈ [new], p.good r := by simpa using hnew
    exact .bind (concur_callOut (MachineM.concur_callFunction hi setter hobj hargs) _) fun _ _ => .done _
  · exact obeys_onStore (StoreM.obeys_setProperty obj name hnew)

theorem obeys_initProperty (index : UInt32) : Obeys A p.Fair (fun _ => True) (initProperty index) :=
  .bind obeys_pop fun _ hnew => .bind (obeys_nameText index) fun name _ => .bind obeys_pop fun obj _ =>
    obeys_onStore (StoreM.obeys_setProperty obj name hnew)

theorem obeys_deleteProperty (index : UInt32) : Obeys A p.Fair (fun _ => True) (deleteProperty index) :=
  .bind (obeys_nameText index) fun name _ => .bind obeys_pop fun obj _ =>
    .bind (obeys_onStore (StoreM.obeys_removeProperty obj name)) fun _ _ => obeys_pushSimple ⟨rfl, rfl⟩

def slotRead? (id : UInt32) (a : Activation) : Option Ref :=
  match a.frame.stack with
  | [] => none
  | obj :: _ =>
    match StoreM.slot? obj id a.machine.store with
    | .ok found _ => found
    | .error .. => none

theorem obeysAt_getSlot {id : UInt32} (ha : p.Fair a) (h : ∀ r, slotRead? id a = some r → p.good r) :
    ConcurAt A p.Fair (fun _ => True) a (getSlot id) (getSlot id) := by
  obtain ⟨machine, ⟨method, stack, stackLimit, locals, localLimit, scopes, result⟩⟩ := a
  cases stack with
  | nil => exact .error ha
  | cons obj rest =>
    have hrest : p.Fair ⟨machine, ⟨method, rest, stackLimit, locals, localLimit, scopes, result⟩⟩ :=
      ⟨ha.machine, fun r hr => ha.frame r (List.mem_cons_of_mem _ hr)⟩
    have hslot : ConcurAt (fun _ => False) (p.store machine) (fun found => ∀ r ∈ found, p.good r) machine.store
        (StoreM.slot? obj id) (StoreM.slot? obj id) := by
      have hc := StoreM.obeys_slot? (A := fun _ => False) obj id machine machine.store ha.machine
      unfold ConcurAt at hc ⊢
      cases hread : StoreM.slot? obj id machine.store with
      | ok found s =>
        rw [hread] at hc
        cases hc with
        | ok _ hs => exact .ok (fun r hr => h r (by simpa only [slotRead?, hread] using Option.mem_def.mp hr)) hs
      | error e s =>
        rw [hread] at hc
        cases hc with
        | error hs => exact .error hs
        | alarm he => exact he.elim
    have hpop : pop ⟨machine, ⟨method, obj :: rest, stackLimit, locals, localLimit, scopes, result⟩⟩ =
        .ok obj ⟨machine, ⟨method, rest, stackLimit, locals, localLimit, scopes, result⟩⟩ := rfl
    rw [ConcurAt, getSlot, bind_of_ok hpop]
    refine ConcurAt.bind (obeysAt_onStore hrest hslot) fun found hf => ?_
    cases found with
    | none => exact obeys_pushSimple ⟨rfl, rfl⟩
    | some r => exact obeys_push (hf r rfl)

theorem obeys_setSlot (id : UInt32) : Obeys A p.Fair (fun _ => True) (setSlot id) :=
  .bind obeys_pop fun _ hnew => .bind obeys_pop fun obj _ => obeys_onStore (StoreM.obeys_setSlot obj id hnew)

theorem obeys_findProperty (index : UInt32) : Obeys A p.Fair (fun _ => True) (findProperty index) := by
  refine .bind (obeys_nameText index) fun name _ => .bind (obeys_findScope? name) fun found hf => ?_
  cases found with
  | none => exact .bind obeys_global fun _ hg => obeys_push hg
  | some scope => exact obeys_push (hf scope rfl)

theorem obeys_findPropStrict (index : UInt32) : Obeys A p.Fair (fun _ => True) (findPropStrict index) := by
  refine .bind (obeys_nameText index) fun name _ => .bind (obeys_findScope? name) fun found hf => ?_
  cases found with
  | none =>
    refine .bind obeys_global fun _ hg => .bind .get fun _ _ => ?_
    split
    · exact obeys_push hg
    · exact obeys_pushSimple ⟨rfl, rfl⟩
  | some scope => exact obeys_push (hf scope rfl)

theorem obeys_capture (f : Ref) (h : p.good this) (m : Machine) :
    Obeys A (p.store m) (fun _ => True) (capture f this) := by
  intro s hs
  have hvalue : StoreM.value f s = .ok (s.value f) s := rfl
  rw [ConcurAt, capture, bind_of_ok hvalue]
  cases hv : s.value f with
  | function callable old =>
    have halters := Object.Alters.withReceiver (s.get f) fun r (hr : some this = some r) => Option.some.inj hr ▸ h
    rw [show (s.get f).value = .function callable old from hv] at halters
    exact .ok trivial (p.change hs (.update f _ halters))
  | _ => exact .ok trivial hs

theorem concur_getLex (hi : p.Invokes A i j) (index : UInt32) :
    Concur A p.Fair (fun _ => True) (getLex i index) (getLex j index) := by
  refine .bind (obeys_nameText index) fun name _ => .bind (obeys_findScope? name) fun found hf => ?_
  cases found with
  | some scope =>
    have hlast (r : Ref) : Concur A p.Fair (fun _ => True)
        (do
          onStore (capture r (← receiver))
          push (← callOut [scope] (MachineM.resolve i scope name r)))
        (do
          onStore (capture r (← receiver))
          push (← callOut [scope] (MachineM.resolve j scope name r))) := by
      refine .bind (obeys_getLocal 0) fun this hthis => ?_
      refine .bind (obeys_onStore (obeys_capture r hthis)) fun _ _ => ?_
      exact .bind (concur_callOut (MachineM.concur_resolve hi scope name r) _) fun _ hr => obeys_push hr
    refine .bind (obeys_onStore (StoreM.obeys_property? scope name)) fun found _ => ?_
    cases found with
    | some r => exact .bind (.done r) fun r _ => hlast r
    | none => exact .bind (obeys_simple ⟨rfl, rfl⟩) fun r _ => hlast r
  | none =>
    refine .bind obeys_global fun g _ => .bind (obeys_onStore (StoreM.obeys_property? g name)) fun found _ => ?_
    cases found with
    | some r => exact .bind (concur_callOut (MachineM.concur_resolve hi g name r) _) fun _ hr => obeys_push hr
    | none => exact obeys_pushSimple ⟨rfl, rfl⟩

/-- What is called need not be good, but its receiver is. -/
def FairTarget (p : Policy) (found : Option Target) : Prop :=
  ∀ t ∈ found, p.good t.this

theorem FairTarget.none : FairTarget p none :=
  nofun

theorem FairTarget.some {t : Target} (h : p.good t.this) : FairTarget p (some t) := by
  rintro _ ⟨⟩
  exact h

theorem concur_callFound (hi : p.Invokes A i j) (argc : UInt32) {find : List Ref → FrameM (Option Target)}
    (h : ∀ args, (∀ r ∈ args, p.good r) → Obeys A p.Fair (FairTarget p) (find args)) :
    Concur A p.Fair p.good (callFound i argc find) (callFound j argc find) := by
  refine .bind (obeys_popN _) fun args hargs => .bind (h args hargs) fun found hf => ?_
  cases found with
  | none => exact obeys_simple ⟨rfl, rfl⟩
  | some t => exact concur_callOut (MachineM.concur_callFunction hi t.f (hf t rfl) hargs) t.refs

theorem obeys_findNamed (index : UInt32) (args : List Ref) : Obeys A p.Fair (FairTarget p) (findNamed index args) := by
  refine .bind (obeys_nameText index) fun name _ => .bind obeys_pop fun obj hobj => ?_
  refine .bind (obeys_onStore (StoreM.obeys_property? obj name)) fun found _ => ?_
  cases found with
  | none => exact .pure .none
  | some callee =>
    refine .bind (obeys_value callee) fun v hv => ?_
    cases v with
    | function callable receiver => exact .pure (.some hobj)
    | undefined | deferred => exact .pure .none
    | null | boolean | integer | number | text | array | object =>
      refine .bind (obeys_onStore (StoreM.obeys_property? callee "call")) fun found _ => ?_
      cases found with
      | none => exact .pure .none
      | some f => exact .pure (.some (hv.good rfl))

theorem obeys_findSuper (index : UInt32) (args : List Ref) : Obeys A p.Fair (FairTarget p) (findSuper index args) := by
  refine .bind (obeys_nameText index) fun name _ => .bind obeys_pop fun obj hobj => .bind .get fun a _ => ?_
  dsimp only
  split
  · exact .pure .none
  · rename_i prototype _
    refine .bind (obeys_onStore (StoreM.obeys_property? prototype name)) fun found _ => ?_
    cases found with
    | none => exact .pure .none
    | some f =>
      refine .bind (obeys_value f) fun v _ => ?_
      split
      · exact .pure (.some hobj)
      · exact .pure .none

theorem obeys_findValue (args : List Ref) : Obeys A p.Fair (FairTarget p) (findValue args) :=
  .bind obeys_pop fun _ hthis => .bind obeys_pop fun _ _ => .pure (.some hthis)

theorem concur_instantiate (hi : p.Invokes A i j) (hf : p.good f) (h : ∀ r ∈ args, p.good r) :
    Concur A p.Fair p.good (instantiate i f args) (instantiate j f args) := by
  refine .bind (obeys_value f) fun v _ => ?_
  split
  · refine .bind (obeys_simple ⟨rfl, rfl⟩) fun built hbuilt => ?_
    exact .bind (concur_callOut (MachineM.concur_callFunction hi f hbuilt h) _) fun _ _ => .pure hbuilt
  · exact obeys_onStore (StoreM.obeys_copy hf)

theorem concur_construct (hi : p.Invokes A i j) (argc : UInt32) :
    Concur A p.Fair (fun _ => True) (construct i argc) (construct j argc) :=
  .bind (obeys_popN _) fun _ hargs => .bind obeys_pop fun _ hf =>
    .bind (concur_instantiate hi hf hargs) fun _ hr => obeys_push hr

theorem concur_instantiateNamed (hi : p.Invokes A i j) (obj : Ref) (name : String) (h : ∀ r ∈ args, p.good r) :
    Concur A p.Fair p.good (instantiateNamed i obj name args) (instantiateNamed j obj name args) := by
  refine .bind (obeys_onStore (StoreM.obeys_property? obj name)) fun found _ => ?_
  cases found with
  | none => exact obeys_simple ⟨rfl, rfl⟩
  | some r =>
    refine .bind (concur_callOut (MachineM.concur_resolve hi obj name r) _) fun _ _ => ?_
    refine .bind (obeys_simple ⟨rfl, rfl⟩) fun base hbase => ?_
    exact concur_callOut (hi (.construction name) base args hbase h) _

theorem concur_constructProp (hi : p.Invokes A i j) (index argc : UInt32) :
    Concur A p.Fair (fun _ => True) (constructProp i index argc) (constructProp j index argc) :=
  .bind (obeys_popN _) fun _ hargs => .bind (obeys_nameText index) fun name _ => .bind obeys_pop fun obj _ =>
    .bind (concur_instantiateNamed hi obj name hargs) fun _ hr => obeys_push hr

theorem obeys_setPairs (obj : Ref) (n : Nat) : Obeys A p.Fair (fun _ => True) (setPairs obj n) := by
  induction n with
  | zero => exact .done _
  | succ n ih =>
    refine .bind obeys_pop fun new hnew => .bind obeys_pop fun r _ => .bind (obeys_textOf r) fun name _ => ?_
    exact .bind (obeys_onStore (StoreM.obeys_setProperty obj name hnew)) fun _ _ => ih

theorem obeys_newObject (count : UInt32) : Obeys A p.Fair (fun _ => True) (newObject count) :=
  .bind (obeys_simple ⟨rfl, rfl⟩) fun obj hobj => .bind (obeys_setPairs obj _) fun _ _ => obeys_push hobj

theorem obeys_newActivation : Obeys A p.Fair (fun _ => True) newActivation := by
  refine .bind (obeys_simple ⟨rfl, rfl⟩) fun built hbuilt => .bind .get fun a _ => .bind obeys_frame fun f _ => ?_
  split
  · rename_i body _
    have hbuild : Obeys A p.holds (fun _ => True) (MachineM.buildTraits built body.traits none) :=
      MachineM.obeys_buildTraits built body.traits nofun
    exact .bind (concur_callOut hbuild _) fun _ _ => obeys_push hbuilt
  · exact obeys_push hbuilt

theorem concur_newClass (hi : p.Invokes A i j) (index : UInt32) :
    Concur A p.Fair (fun _ => True) (newClass i index) (newClass j index) :=
  .bind obeys_pop fun _ hbase => .bind (concur_callOut (MachineM.concur_newClass hi hbase index) _) fun _ hr =>
    obeys_push hr

theorem obeys_hasNext (objLocal indexLocal : UInt32) : Obeys A p.Fair (fun _ => True) (hasNext objLocal indexLocal) := by
  refine .bind (obeys_getLocal objLocal) fun obj _ => .bind (obeys_getLocal indexLocal) fun index _ => ?_
  refine .bind (obeys_value index) fun v _ => .bind .get fun a _ => ?_
  dsimp only
  split
  · refine .bind (obeys_simple ⟨rfl, rfl⟩) fun r hr => .bind (obeys_setLocal indexLocal hr) fun _ _ => ?_
    exact obeys_pushSimple ⟨rfl, rfl⟩
  · refine .bind (obeys_simple ⟨rfl, rfl⟩) fun r hr => .bind (obeys_setLocal objLocal hr) fun _ _ => ?_
    refine .bind (obeys_simple ⟨rfl, rfl⟩) fun r hr => .bind (obeys_setLocal indexLocal hr) fun _ _ => ?_
    exact obeys_pushSimple ⟨rfl, rfl⟩

theorem obeys_nextName : Obeys A p.Fair (fun _ => True) nextName := by
  refine .bind obeys_popPair fun pair _ => .bind (obeys_value pair.2) fun v _ => .bind .get fun a _ => ?_
  dsimp only
  split
  · exact obeys_pushSimple ⟨rfl, rfl⟩
  · exact obeys_pushSimple ⟨rfl, rfl⟩

theorem obeys_setResult (h : p.good r) : Obeys A p.Fair (fun _ => True) (setResult r) := by
  apply obeys_modifyFrame
  intro frame r' hr
  simp only [Frame.mem_references, Option.some.injEq] at hr ⊢
  rcases hr with hr | hr | hr | rfl
  · exact .inl (.inl hr)
  · exact .inl (.inr (.inl hr))
  · exact .inl (.inr (.inr (.inl hr)))
  · exact .inr h

theorem isSimple_sum (v w : Value) : (sum v w).IsSimple := by
  unfold sum
  split
  · rename_i u hu
    unfold Value.add at hu
    split at hu
    · cases hu
      exact ⟨rfl, rfl⟩
    · cases hu
      exact Value.isSimple_ofInt _
    · split at hu
      · cases hu
        exact ⟨rfl, rfl⟩
      · cases hu
  · exact ⟨rfl, rfl⟩

theorem isSimple_subtract (v w : Value) : (v.subtract w).IsSimple := by
  unfold Value.subtract
  split
  · exact Value.isSimple_ofInt _
  · exact ⟨rfl, rfl⟩

theorem isSimple_multiply (v w : Value) : (v.multiply w).IsSimple := by
  unfold Value.multiply
  split
  · exact Value.isSimple_ofInt _
  · exact ⟨rfl, rfl⟩

theorem obeys_pushScope (h : p.good r) :
    Obeys A p.Fair (fun _ => True) (modifyFrame fun f => { f with scopes := r :: f.scopes }) := by
  apply obeys_modifyFrame
  intro frame r' hr
  simp only [Frame.mem_references, List.mem_cons] at hr ⊢
  rcases hr with hr | hr | (rfl | hr) | hr
  · exact .inl (.inl hr)
  · exact .inl (.inr (.inl hr))
  · exact .inr h
  · exact .inl (.inr (.inr (.inl hr)))
  · exact .inl (.inr (.inr (.inr hr)))

theorem obeys_popScope : Obeys A p.Fair (fun _ => True) (modifyFrame fun f => { f with scopes := f.scopes.drop 1 }) := by
  apply obeys_modifyFrame
  intro frame r hr
  simp only [Frame.mem_references] at hr ⊢
  rcases hr with hr | hr | hr | hr
  · exact .inl (.inl hr)
  · exact .inl (.inr (.inl hr))
  · exact .inl (.inr (.inr (.inl (List.mem_of_mem_drop hr))))
  · exact .inl (.inr (.inr (.inr hr)))

theorem good_outermost {f : Frame} (hf : ∀ r ∈ f.references, p.good r) (hg : p.good g) :
    p.good (f.scopes.getLast?.getD g) := by
  cases hl : f.scopes.getLast? with
  | none => exact hg
  | some r => exact good_of_scope hf (List.mem_of_getLast? hl)

theorem obeys_getScopeObject (index : UInt32) :
    Obeys A p.Fair (fun _ => True) (do
      match (← frame).scopes.reverse[index.toNat]? with
      | some r => push r
      | none => pushFresh .undefined) := by
  refine .bind obeys_frame fun f hf => ?_
  split
  · rename_i r hr
    exact obeys_push (good_of_scope hf (List.mem_reverse.mp (List.mem_of_getElem? hr)))
  · exact obeys_pushSimple ⟨rfl, rfl⟩

/-- Actions that read no slot keep to a policy, and do the same whichever way their calls are run. -/
theorem concur_act (hi : p.Invokes A i j) (s : Step) (hs : s.action ≠ .getSlot) :
    Concur A p.Fair (fun _ => True) (act i s) (act j s) := by
  obtain ⟨action, x, y⟩ := s
  cases action with
  | getSlot => exact absurd rfl hs
  | getLocal => exact .bind (obeys_getLocal x) fun _ hr => obeys_push hr
  | setLocal => exact .bind obeys_pop fun _ hr => obeys_setLocal x hr
  | copyLocal => exact .bind (obeys_getLocal x) fun _ hr => obeys_setLocal y hr
  | kill => exact .bind (obeys_simple ⟨rfl, rfl⟩) fun _ hr => obeys_setLocal x hr
  | pop | throw => exact .bind obeys_pop fun _ _ => .done _
  | dup => exact .bind obeys_peek fun _ hr => obeys_push hr
  | swap => exact obeys_swap
  | pushNull | pushUndefined | pushTrue | pushFalse | pushNaN | pushByte | pushShort | newCatch | newFunction =>
    exact obeys_pushSimple ⟨rfl, rfl⟩
  | pushString | pushInt | pushDouble => exact .bind obeys_pool fun _ _ => obeys_pushSimple ⟨rfl, rfl⟩
  | pushUint => exact .bind obeys_pool fun _ _ => obeys_pushSimple (Value.isSimple_ofInt _)
  | pushScope => exact .bind obeys_pop fun _ hr => obeys_pushScope hr
  | popScope => exact obeys_popScope
  | getGlobalScope => exact .bind obeys_frame fun _ hf => .bind obeys_global fun _ hg => obeys_push (good_outermost hf hg)
  | getScopeObject => exact obeys_getScopeObject x
  | add => exact obeys_combine isSimple_sum
  | subtract => exact obeys_combine isSimple_subtract
  | multiply => exact obeys_combine isSimple_multiply
  | divide | lessThan | greaterThan | binaryStub | nextValue => exact obeys_combine (fun _ _ => ⟨rfl, rfl⟩)
  | incLocalI => exact obeys_incLocal x
  | unaryStub => exact .done _
  | constructSuper => exact .bind (obeys_popN _) fun _ _ => .bind obeys_pop fun _ _ => .done _
  | setSuper | initProperty => exact obeys_initProperty x
  | trap => exact obeys_fail _
  | getProperty => exact concur_getProperty hi x
  | setProperty => exact concur_setProperty hi x
  | deleteProperty => exact obeys_deleteProperty x
  | setSlot => exact obeys_setSlot x
  | findProperty => exact obeys_findProperty x
  | findPropStrict => exact obeys_findPropStrict x
  | getLex => exact concur_getLex hi x
  | callProperty =>
    exact .bind (concur_callFound hi y fun args _ => obeys_findNamed x args) fun _ hr => obeys_push hr
  | callPropVoid => exact .bind (concur_callFound hi y fun args _ => obeys_findNamed x args) fun _ _ => .done _
  | callSuper =>
    exact .bind (concur_callFound hi y fun args _ => obeys_findSuper x args) fun _ hr => obeys_push hr
  | callSuperVoid => exact .bind (concur_callFound hi y fun args _ => obeys_findSuper x args) fun _ _ => .done _
  | call => exact .bind (concur_callFound hi x fun args _ => obeys_findValue args) fun _ hr => obeys_push hr
  | construct => exact concur_construct hi x
  | constructProp => exact concur_constructProp hi x y
  | newObject => exact obeys_newObject x
  | newArray => exact .bind (obeys_popN _) fun _ hr => obeys_pushFresh ⟨rfl, hr⟩
  | newActivation => exact obeys_newActivation
  | newClass => exact concur_newClass hi x
  | hasNext2 => exact obeys_hasNext x y
  | nextName => exact obeys_nextName
  | returnValue => exact .bind obeys_pop fun _ hr => obeys_setResult hr
  | returnLocal => exact .bind (obeys_getLocal x) fun _ hr => obeys_setResult hr

theorem concurAt_act (hi : p.Invokes A i j) (s : Step) (ha : p.Fair a)
    (hslot : s.action = .getSlot → ∀ r, slotRead? s.a a = some r → p.good r) :
    ConcurAt A p.Fair (fun _ => True) a (act i s) (act j s) := by
  by_cases hs : s.action = .getSlot
  · simp only [act, hs]
    exact obeysAt_getSlot ha (hslot hs)
  · exact concur_act hi s hs a ha

theorem obeys_compare (f : Bool → Value → Value → Bool) : Obeys A p.Fair (fun _ => True) (compare f) :=
  .bind obeys_popPair fun pair _ => .bind (obeys_value pair.1) fun _ _ => .bind (obeys_value pair.2) fun _ _ => .done _

theorem obeys_test (condition : Condition) : Obeys A p.Fair (fun _ => True) (test condition) := by
  cases condition with
  | isTrue | isFalse => exact .bind obeys_pop fun r _ => .bind (obeys_value r) fun _ _ => .done _
  | eq | ne | strictEq | strictNe | lt | le | gt | ge | nlt | nle | ngt | nge =>
    simp only [test]
    exact obeys_compare _

theorem obeys_select (last : UInt32) : Obeys A p.Fair (fun _ => True) (select last) := by
  refine .bind obeys_pop fun r _ => .bind (obeys_value r) fun v _ => ?_
  dsimp only
  split
  · exact .done _
  · exact .bind (.within _ fun _ _ => trivial) fun _ _ => .done _

theorem obeys_leave (exit : Exit) : Obeys A p.Fair (fun _ => True) (leave exit) := by
  cases exit with
  | ret | jump => exact .done _
  | branch condition taken fallthrough => exact .bind (obeys_test condition) fun _ _ => .done _
  | switch cases default => exact .bind (obeys_select _) fun _ _ => .done _

end FrameM

end ActionVm
