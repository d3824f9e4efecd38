import ActionVm.Proofs.Event.Service
import ActionVm.Proofs.Machine.Reading
import ActionVm.Session.Embedder

namespace ActionVm

/-- Running code has no placeholder, and none is made. -/
def Limits.defined (early : Machine) : Limits where
  good r := early.isPlaceholder r = false
  defers _ := False
  begins _ := True

/-- Functions that make no placeholders and hand on none, but may have scripts run. -/
def Embedding.SuppliesNone (e : Embedding) : Prop :=
  ∀ l : Limits, (∀ init, l.begins init) → e.Within l

/-- A host that makes no placeholders and hands on none. -/
def Host.SuppliesNone (host : Host σ) : Prop :=
  ∀ l : Limits, host.Within l

/-- The next step would read a placeholder from a slot. -/
def Activation.readsPlaceholder (a : Activation) : Option Step → Bool
  | some s => s.action = .getSlot && (FrameM.slotRead? s.a a).any a.machine.isPlaceholder
  | none => false

/-- A placeholder is in the frame, in an array, or captured by a function. -/
def Activation.holdsPlaceholder (a : Activation) : Bool :=
  a.frame.references.any a.machine.isPlaceholder ||
    a.machine.store.objects.any fun o => o.value.references.any a.machine.isPlaceholder

/-- An instance of a builtin class would be a copy of a placeholder. -/
def Callee.copiesPlaceholder (m : Machine) : Callee → Bool
  | construction name =>
    m.classes[name]? = some .builtin && (m.store.get m.global).properties[name]?.any m.isPlaceholder
  | code _ => false

/-- The handler of an event would be called on a placeholder. -/
def Event.reachesPlaceholder (m : Machine) : Event → Bool
  | dispatch target type => (m.receiver? target type).any m.isPlaceholder
  | bind _ | sync _ | shutdown => false

namespace Moments

def waysOut : Moments where
  step := Activation.readsPlaceholder
  call m callee _ _ := callee.copiesPlaceholder m
  event := Event.reachesPlaceholder

/-- Running code has hold of a placeholder, or is called with one. -/
def escapes : Moments where
  step a _ := a.holdsPlaceholder
  call m _ this args := (this :: args).any m.isPlaceholder

end Moments

/-- The placeholders are those of an earlier machine, and nothing refers to them but properties and slots. -/
structure Machine.Confines (early m : Machine) : Prop where
  embedding : m.embedding = early.embedding
  placeholders : ∀ r, m.isPlaceholder r = early.isPlaceholder r
  references : ∀ r, ∀ r' ∈ (m.store.value r).references, early.isPlaceholder r' = false
  global : early.isPlaceholder m.global = false

theorem Machine.isPlaceholder_of_le {m : Machine} (h : m.store.objects.size ≤ r.index) : m.isPlaceholder r = false := by
  simp [isPlaceholder, Store.value, Store.get, h, Value.deferred?]

namespace Machine.Confines

variable {early m new : Machine}

theorem alloc (h : early.Confines m) {o : Object} (hd : o.value.deferred? = none)
    (hr : ∀ r ∈ o.value.references, early.isPlaceholder r = false) :
    early.Confines { m with store := (m.store.alloc o).2 } := by
  refine { h with placeholders := fun r => ?_, references := fun r => ?_ }
  · rw [isPlaceholder, Store.value_push, ← h.placeholders]
    split
    · rename_i hnew
      rw [hd, isPlaceholder_of_le (Nat.le_of_eq hnew.symm)]
      rfl
    · rfl
  · rw [Store.value_push]
    split
    · exact hr
    · exact h.references r

theorem change (h : early.Confines m) (hc : m.Change (.defined early) new) : early.Confines new := by
  cases hc with
  | alloc o ho => exact h.alloc ho.deferred ho.references
  | defer hd => exact hd.elim
  | @copy r hr =>
    -- A copy of a placeholder would be one more; but only good references are copied.
    have hd : (m.store.value r).deferred? = none := by
      have hfalse : m.isPlaceholder r = false := (h.placeholders r).trans hr
      simpa [isPlaceholder] using hfalse
    exact h.alloc hd (h.references r)
  | fill n =>
    refine { h with placeholders := fun r => ?_, references := fun r => ?_ }
    · rw [isPlaceholder, Store.value, Store.get_allocUndefined]
      exact h.placeholders r
    · rw [Store.value, Store.get_allocUndefined]
      exact h.references r
  | update r f hf =>
    have halters := Store.alters_update hf
    refine { h with placeholders := fun other => ?_, references := fun other r' hr => ?_ }
    · rw [isPlaceholder, Store.value, (halters other).deferred]
      exact h.placeholders other
    · rcases (halters other).references r' hr with hold | hgood
      · exact h.references other r' hold
      · exact hgood
  | write | hold | translate | register | begin | enter | finish => exact { h with }

end Machine.Confines

def confinement (early : Machine) (he : early.embedding.SuppliesNone) : Policy where
  toLimits := .defined early
  holds := early.Confines
  change := Machine.Confines.change
  reads r h := {
    good := fun hd => by
      have hfalse : early.isPlaceholder r = false := by
        rw [← h.placeholders, Machine.isPlaceholder, hd]
        rfl
      exact hfalse
    begins := fun _ _ => trivial
    references := h.references r }
  good_global h := h.global
  functions h := h.embedding ▸ he _ fun _ => trivial

namespace Policy.Fair

variable {early : Machine} {he : early.embedding.SuppliesNone} {a : Activation}

theorem holdsPlaceholder (h : (confinement early he).Fair a) : a.holdsPlaceholder = false := by
  have hgood (r : Ref) (hr : early.isPlaceholder r = false) : ¬a.machine.isPlaceholder r = true := by
    rw [h.machine.placeholders, hr]
    exact Bool.false_ne_true
  rw [Activation.holdsPlaceholder, Bool.or_eq_false_iff, List.any_eq_false, Array.any_eq_false]
  refine ⟨fun r hr => hgood r (h.frame r hr), fun i hi => ?_⟩
  rw [List.any_eq_true]
  rintro ⟨r, hr, hplaceholder⟩
  refine hgood r (h.machine.references ⟨i⟩ r ?_) hplaceholder
  simpa [Store.value, Store.get, hi] using hr

theorem slotRead {s : Step} (h : (confinement early he).Fair a) (hs : a.readsPlaceholder (some s) = false)
    (haction : s.action = .getSlot) (hr : FrameM.slotRead? s.a a = some r) : early.isPlaceholder r = false := by
  rw [← h.machine.placeholders]
  simpa [Activation.readsPlaceholder, haction, hr] using hs

end Policy.Fair

namespace Machine.Confines

variable {early m : Machine}

theorem binding (h : early.Confines m) (hcopy : (Callee.construction name).copiesPlaceholder m = false)
    (hclass : m.classes[name]? = some .builtin) (hr : (m.store.get m.global).properties[name]? = some r) :
    early.isPlaceholder r = false := by
  rw [← h.placeholders]
  simpa [Callee.copiesPlaceholder, hclass, hr] using hcopy

theorem suits (h : early.Confines m) {e : Event} (he : e.reachesPlaceholder m = false) :
    e.Suits (Limits.defined early).good m := by
  cases e with
  | dispatch target type =>
    intro r hr
    have hfalse : m.isPlaceholder r = false := by
      simpa [Event.reachesPlaceholder, Option.mem_def.mp hr] using he
    exact (h.placeholders r).symm.trans hfalse
  | _ => exact trivial

end Machine.Confines

theorem confinement_watches (early : Machine) (he : early.embedding.SuppliesNone) (alarm : Stop) {w : Watch}
    (hstep : ∀ a s, (confinement early he).Fair a → w.step a s = none)
    (hcall : ∀ m callee this args, early.Confines m → early.isPlaceholder this = false →
      (∀ r ∈ args, early.isPlaceholder r = false) → w.call m callee this args = none) :
    (confinement early he).Watches (· = alarm) (.stopAt .waysOut alarm) w where
  step a s ha := stopAt_cases fun _ => hstep a s ha
  call m callee this args hm hthis hargs := stopAt_cases fun _ => hcall m callee this args hm hthis hargs
  slots _ _ ha hv haction _ hr := ha.slotRead (eq_false_of_stopAt hv) haction hr
  copies _ _ _ _ hm hv hclass _ hr := hm.binding (eq_false_of_stopAt hv) hclass hr

namespace Machine

/-- Work that takes none of the ways out keeps placeholders from running code. -/
theorem Confines.avoids {early m : Machine} (he : early.embedding.SuppliesNone) {x : Invoke → MachineM α}
    (hx : ∀ {A i j}, (confinement early he).Invokes A i j → ConcurAt A early.Confines Q m (x i) (x j))
    (h : MachineM.Avoids .waysOut fuel x m) :
    MachineM.Avoids .escapes fuel x m ∧ early.Confines (m.after (x (MachineM.execute fuel))) := by
  -- The run does not end with this alarm by itself, so that it tells when the alarm is raised.
  obtain ⟨alarm, hsilent⟩ := exists_silent (x (MachineM.execute fuel) m)
  rw [← h alarm] at hsilent
  have hconcur {w : Watch} (hw : (confinement early he).Watches (· = alarm) (.stopAt .waysOut alarm) w) :
      ConcurAt (· = alarm) early.Confines Q m (x (MachineM.callWatched (.stopAt .waysOut alarm) fuel))
        (x (MachineM.callWatched w fuel)) :=
    hx (MachineM.invokes_callWatched hw fuel)
  constructor
  · intro other
    have hother : (confinement early he).Watches (· = alarm) (.stopAt .waysOut alarm) (.stopAt .escapes other) := by
      refine confinement_watches early he alarm (fun a s ha => ?_) fun m callee this args hm hthis hargs => ?_
      · simp [Watch.stopAt, Moments.escapes, ha.holdsPlaceholder]
      · have hnone : (this :: args).any m.isPlaceholder = false := by
          have hgood : ∀ r ∈ this :: args, early.isPlaceholder r = false := List.forall_mem_cons.mpr ⟨hthis, hargs⟩
          rw [List.any_eq_false]
          intro r hr
          rw [hm.placeholders, hgood r hr]
          exact Bool.false_ne_true
        simp only [Watch.stopAt, Moments.escapes, hnone]
        rfl
    rw [← h alarm]
    exact ((hconcur hother).eq_of_silent hsilent).symm
  · rw [← after_congr (h alarm)]
    have hidle := confinement_watches early he alarm (w := .idle) (fun _ _ _ => rfl) fun _ _ _ _ _ _ _ => rfl
    exact after_of_concurAt (p := confinement early he) (hconcur hidle)

def EachEvent (invoke : Invoke) (C : Machine → Host σ → Event → Prop) : Machine → List (Host σ × Event) → Prop
  | _, [] => True
  | m, (host, e) :: rest => C m host e ∧ EachEvent invoke C (m.after (MachineM.handleWith invoke host e)) rest

/-- The machine comes to no bad moment while it runs its scripts and then handles events. -/
def ServesWithout (m : Machine) (bad : Moments) (fuel : Nat) (events : List (Host σ × Event)) : Prop :=
  MachineM.Avoids bad fuel MachineM.runScriptsWith m ∧
    (m.after (MachineM.runScriptsWith (MachineM.execute fuel))).EachEvent (MachineM.execute fuel)
      (fun m host e => bad.event m e = false ∧ MachineM.Avoids bad fuel (MachineM.handleWith · host e) m) events

theorem Confines.of_fresh {m : Machine} {d : Document} {e : Embedding} (h : m.Fresh d e inits g) (started : List UInt32) :
    m.Confines { m with started } where
  embedding := rfl
  placeholders _ := rfl
  references r := by
    rw [h.store.references r]
    exact List.forall_mem_nil _
  global := by
    rw [isPlaceholder, h.global, h.store.plain]
    rfl

/-- The placeholders are those that the scripts declare before the last one runs. -/
theorem Confines.runScripts {m : Machine} {d : Document} {c : Config} {e : Embedding} (he : e.SuppliesNone)
    (hblank : m.Blank d c e g) (h : MachineM.Avoids .waysOut fuel MachineM.runScriptsWith m) :
    MachineM.Avoids .escapes fuel MachineM.runScriptsWith m ∧
      ∃ early : Machine, early.embedding = e ∧
        early.Confines (m.after (MachineM.runScriptsWith (MachineM.execute fuel))) := by
  cases hlast : d.scripts.getLast? with
  | none =>
    have hnone := MachineM.runScriptsWith_of_none (hblank.document ▸ hlast)
    refine ⟨fun alarm => by rw [hnone, hnone], m, hblank.embedding, ?_⟩
    rw [after, hnone]
    exact .of_fresh (hblank.fresh []) m.started
  | some last =>
    obtain ⟨declared, -, hfresh, hscripts⟩ := MachineM.runScriptsWith_of_blank hblank hlast
    have hsupplies : declared.embedding.SuppliesNone := hfresh.embedding ▸ he
    have hstart : declared.Confines { declared with started := [last.init] } := .of_fresh hfresh _
    have hglobal : declared.isPlaceholder g = false := hfresh.global ▸ hstart.global
    have hentry : MachineM.Avoids .waysOut fuel (fun i => i (.method last.init) g [] >>= fun _ => pure true)
        { declared with started := [last.init] } :=
      h.congr hscripts
    obtain ⟨havoids, hafter⟩ := Confines.avoids (Q := fun _ => True) hsupplies
      (fun hi => (hi (.method last.init) g [] hglobal (List.forall_mem_nil _) _ hstart).bind fun _ _ => .done true) hentry
    rw [after_congr (hscripts _)]
    exact ⟨havoids.congr fun invoke => (hscripts invoke).symm, declared, hfresh.embedding, hafter⟩

theorem Confines.handles {early m : Machine} (he : early.embedding.SuppliesNone) (hm : early.Confines m)
    {events : List (Host σ × Event)} (hhosts : ∀ e ∈ events, e.1.SuppliesNone)
    (h : m.EachEvent (MachineM.execute fuel)
      (fun m host e => Moments.waysOut.event m e = false ∧ MachineM.Avoids .waysOut fuel (MachineM.handleWith · host e) m)
      events) :
    m.EachEvent (MachineM.execute fuel)
      (fun m host e => Moments.escapes.event m e = false ∧ MachineM.Avoids .escapes fuel (MachineM.handleWith · host e) m)
      events := by
  induction events generalizing m with
  | nil => exact trivial
  | cons e rest ih =>
    obtain ⟨hhost, hrest⟩ := List.forall_mem_cons.mp hhosts
    obtain ⟨⟨hevent, havoids⟩, hlater⟩ := h
    obtain ⟨hnone, hafter⟩ := Confines.avoids he
      (fun hi => MachineM.concurAt_handleWith (p := confinement early he) hi (hhost _) hm (hm.suits hevent)) havoids
    exact ⟨⟨rfl, hnone⟩, ih hafter hrest hlater⟩

end Machine

/-- Placeholders stay out of frames, and names are defined before they are read. Suppose that the functions of the
embedder and the hosts supply no placeholders, and that a run takes none of three ways out: it reads no slot that
holds a placeholder, it builds no builtin class whose name is bound to one, and no handler is called on one. Then
no placeholder ever is in a frame, in an array, captured by a function or passed to a callee, while scripts run
and while events are handled.

Whoever reads a property that holds a placeholder, by its name or by the scopes, first runs the script behind it,
unless it was started before, and then pushes what the property is defined as or undefined, and no placeholder
again. The script also runs before a class of that name is built. To call such a property, though, is to call
nothing, and runs no script. -/
theorem placeholders_stay_out_of_frames (document : Document) (config : Config) (embedding : Embedding) (fuel : Nat)
    (events : List (Host σ × Event)) (hembedding : embedding.SuppliesNone) (hhosts : ∀ e ∈ events, e.1.SuppliesNone)
    (hways : (Machine.create document config embedding).ServesWithout .waysOut fuel events) :
    (Machine.create document config embedding).ServesWithout .escapes fuel events ∧
    (∀ (invoke : Invoke) a b c index name obj r init, FrameM.nameText index a = .ok name b → FrameM.pop b = .ok obj c →
      (c.machine.store.get obj).getters[name]? = none → c.machine.Defers obj name r init →
      FrameM.getProperty invoke index a =
        (FrameM.callOut [obj] (MachineM.defining invoke obj name r init) >>= FrameM.push) c) ∧
    (∀ (invoke : Invoke) a b index name this r init, FrameM.nameText index a = .ok name b →
      b.frame.locals[0]? = some this → b.machine.Defers (b.holder name) name r init →
      FrameM.getLex invoke index a =
        (FrameM.callOut [b.holder name] (MachineM.defining invoke (b.holder name) name r init) >>= FrameM.push) b) ∧
    (∀ (invoke : Invoke) a b c d index argc name obj args r init, FrameM.popN argc.toNat a = .ok args b →
      FrameM.nameText index b = .ok name c → FrameM.pop c = .ok obj d → d.machine.Defers obj name r init →
      FrameM.constructProp invoke index argc a =
        (do
          let _ ← FrameM.callOut (obj :: args) (MachineM.defining invoke obj name r init)
          let base ← FrameM.fresh .object
          FrameM.push (← FrameM.callOut (obj :: args) (invoke (.construction name) base args))) d ∧
      FrameM.callFound invoke argc (FrameM.findNamed index) a = FrameM.fresh .undefined d) ∧
    (∀ (invoke : Invoke) init m, MachineM.define invoke init m =
      if init ∈ m.started then .ok () m
      else (do let _ ← invoke (.method init) m.global []; MachineM.note (.ended init))
        { m with started := init :: m.started, journal := .began init :: m.journal }) ∧
    ∀ holder name m, ∃ v n, MachineM.definedValue holder name m = .ok v n ∧ n.isPlaceholder v = false ∧
      ∀ r, (m.store.get holder).property? name = some (.stored r) →
        if m.isPlaceholder r then n.store.value v = .undefined else v = r ∧ n = m := by
  obtain ⟨hscripts, hevents⟩ := hways
  obtain ⟨hrun, early, rfl, hafter⟩ :=
    Machine.Confines.runScripts hembedding (Machine.blank_create document config embedding) hscripts
  refine ⟨⟨hrun, hafter.handles hembedding hhosts hevents⟩, ?_, ?_, ?_, ?_, MachineM.definedValue_apply⟩
  · intro invoke a b c index name obj r init hname hobj hgetter h
    exact FrameM.getProperty_of_defers hname hobj hgetter h invoke
  · intro invoke a b index name this r init hname hthis h
    exact FrameM.getLex_of_defers hname hthis h invoke
  · intro invoke a b c d index argc name obj args r init hargs hname hobj h
    exact ⟨FrameM.constructProp_of_defers hargs hname hobj h invoke, FrameM.callFound_of_defers hargs hname hobj h invoke⟩
  · exact MachineM.define_eq

def functionHost (f : Callable) : Host Unit where
  state := ()
  lookup _ state := do return (some (← Dialogue.request (.make (.function f))), state)
  placed _ _ _ state := return state

theorem functionHost_suppliesNone (f : Callable) : (functionHost f).SuppliesNone :=
  fun _ => {
    lookup := fun _ _ => ⟨.inl ⟨rfl, List.forall_mem_nil _⟩, fun _ hr _ hr' => Option.some.inj hr' ▸ hr⟩
    placed := fun _ _ _ _ _ => trivial }

theorem Session.embedding_suppliesNone : Session.embedding.SuppliesNone := by
  intro l _ f this args hthis hargs
  have hmake {v : Value} (hv : l.Admits v) :
      Dialogue.Obliges (Request.Within l) (Request.Tells l) l.good (Dialogue.request (Request.object (.make v))) :=
    ⟨.inl hv, fun _ hr => hr⟩
  change (Session.functions f this args).Obliges _ _ _
  unfold Session.functions
  dsimp only
  split
  · exact hthis
  · exact hmake ⟨rfl, List.forall_mem_nil _⟩
  · exact hmake ⟨rfl, hargs⟩
  · exact ⟨.inl ⟨rfl, hargs⟩, fun kept hkept => ⟨hkept, fun _ _ => hmake ⟨rfl, List.forall_mem_nil _⟩⟩⟩
  · cases args with
    | nil => exact hmake ⟨rfl, List.forall_mem_nil _⟩
    | cons r rest => exact hargs r List.mem_cons_self

/-- The first script declares a name as the class in slot 1, and the second one is the entry. There is also a
class `B`, which is bound to nothing. -/
def deferringDocument (declared : String) (codes : List Bytes) : Document :=
  { Document.small [declared, "click", "B"] codes [[{ name := 1, kind := .classDef 1 0 }], []] with
    instances := [{ name := 3, superName := 0, init := 1, traits := [] }] }

def deferringMachine (declared : String) (codes : List Bytes) : Machine :=
  Machine.create (deferringDocument declared codes) { hostClasses := false, mode := .off } Session.embedding

def clicks (f : Callable) : List (Host Unit × Event) :=
  [(functionHost f, .bind {
      className := "B"
      tag := some 1
      placement := some { parent := some "A", name := "click", placedBy := 0 } }),
    (functionHost f, .dispatch "A" "click")]

def definingCodes : List Bytes :=
  [[Opcode.getLocal0.byte, Opcode.newObject.byte, 0, Opcode.initProperty.byte, 1, Opcode.returnVoid.byte],
    [Opcode.getLex.byte, 1, Opcode.pop.byte, Opcode.returnVoid.byte]]

theorem clicks_meet_no_placeholder :
    ((deferringMachine "A" definingCodes).after (MachineM.runScriptsWith (MachineM.execute 5))).started = [0, 1] ∧
    (deferringMachine "A" definingCodes).ServesWithout .waysOut 5 (clicks (.host ⟨"args"⟩)) ∧
    (deferringMachine "A" definingCodes).ServesWithout .escapes 5 (clicks (.host ⟨"args"⟩)) := by
  have hways : (deferringMachine "A" definingCodes).ServesWithout .waysOut 5 (clicks (.host ⟨"args"⟩)) := by
    refine ⟨MachineM.avoids_runScriptsWith .outOfFuel ?_, ⟨rfl, MachineM.avoids_handleWith .outOfFuel ?_⟩,
      ⟨?_, MachineM.avoids_handleWith .outOfFuel ?_⟩, trivial⟩
    all_goals decide +kernel
  have hhosts : ∀ e ∈ clicks (.host ⟨"args"⟩), e.1.SuppliesNone := by
    intro e he
    have hhost : e.1 = functionHost (.host ⟨"args"⟩) := by
      rcases List.mem_pair.mp he with rfl | rfl <;> rfl
    rw [hhost]
    exact functionHost_suppliesNone _
  refine ⟨by decide +kernel, hways, ?_⟩
  exact (placeholders_stay_out_of_frames _ _ _ 5 _ Session.embedding_suppliesNone hhosts hways).1

def slotCodes : List Bytes :=
  [[Opcode.returnVoid.byte],
    [Opcode.getLocal0.byte, Opcode.getSlot.byte, 1, Opcode.pop.byte, Opcode.returnVoid.byte]]

def constructingCodes : List Bytes :=
  [[Opcode.returnVoid.byte],
    [Opcode.findPropStrict.byte, 1, Opcode.constructProp.byte, 1, 0, Opcode.pop.byte, Opcode.returnVoid.byte]]

/-- Placeholders get into frames through slots, through builtin classes and through dispatched events, although
nobody supplies them. -/
theorem placeholders_get_into_frames :
    ¬(deferringMachine "A" slotCodes).ServesWithout .escapes 5 ([] : List (Host Unit × Event)) ∧
    ¬(deferringMachine "Array" constructingCodes).ServesWithout .escapes 5 ([] : List (Host Unit × Event)) ∧
    ¬(deferringMachine "A" [[Opcode.returnVoid.byte], [Opcode.returnVoid.byte], [Opcode.returnVoid.byte]]).ServesWithout
      .escapes 5 (clicks (.method 2)) := by
  refine ⟨fun h => ?_, fun h => ?_, fun h => ?_⟩
  · exact absurd (congrArg (rings .outOfFuel) (h.1 .outOfFuel)) (by decide +kernel)
  · exact absurd (congrArg (rings .outOfFuel) (h.1 .outOfFuel)) (by decide +kernel)
  · exact absurd (congrArg (rings .outOfFuel) (h.2.2.1.2 .outOfFuel)) (by decide +kernel)

end ActionVm
