import ActionVm.Event.Handler
import ActionVm.Proofs.Machine.Fresh
import ActionVm.Proofs.Machine.Watch

namespace ActionVm

namespace Machine

def after (m : Machine) (x : MachineM α) : Machine :=
  match x m with
  | .ok _ m => m
  | .error _ m => m

/-- A machine that handled events, each for its host. -/
def handleAll (m : Machine) (invoke : Invoke) (events : List (Host σ × Event)) : Machine :=
  events.foldl (fun m e => m.after (MachineM.handleWith invoke e.1 e.2)) m

/-- A machine that ran its scripts and then handled events. -/
def serve (m : Machine) (invoke : Invoke) (events : List (Host σ × Event)) : Machine :=
  (m.after (MachineM.runScriptsWith invoke)).handleAll invoke events

theorem after_congr {x y : MachineM α} {m n : Machine} (h : x m = y n) : m.after x = n.after y := by
  rw [after, after, h]

theorem after_of_concurAt {p : Policy} {x y : MachineM α} (h : ConcurAt A p.holds Q m x y) : p.holds (m.after x) := by
  unfold ConcurAt at h
  unfold after
  generalize x m = first at h ⊢
  generalize y m = second at h
  cases h with
  | ok _ hm' => exact hm'
  | error hm' => exact hm'
  | alarm _ hm' => exact hm'

theorem after_of_obeys {p : Policy} {x : MachineM α} (h : Obeys (fun _ => False) p.holds Q x) (hm : p.holds m) :
    p.holds (m.after x) :=
  after_of_concurAt (h m hm)

end Machine

/-- A host that keeps within the limits, whatever state it is in. -/
structure Host.Within (host : Host σ) (l : Limits) : Prop where
  lookup : ∀ tag state, (host.lookup tag state).Within l fun found => ∀ r ∈ found.1, l.good r
  placed : ∀ tag name inst state, l.good inst → (host.placed tag name inst state).Within l fun _ => True

theorem Host.within_none (host : Host σ) : host.Within .none where
  lookup _ _ := Dialogue.obliges_of_all ObjectRequest.within_none (fun _ _ _ => trivial) _
  placed _ _ _ _ _ := Dialogue.obliges_of_all ObjectRequest.within_none (fun _ => trivial) _

theorem Host.within_silent (state : σ) (l : Limits) : (Host.silent state).Within l where
  lookup _ _ := nofun
  placed _ _ _ _ _ := trivial

theorem Embedding.within_default (l : Limits) : ({} : Embedding).Within l :=
  fun _ _ _ _ _ => ⟨.inl ⟨rfl, List.forall_mem_nil _⟩, fun _ hr => hr⟩

def Machine.receiver? (m : Machine) (target type : String) : Option Ref :=
  match (m.store.get m.global).property? target with
  | some (.stored obj) =>
    match (m.store.get obj).property? type with
    | some (.stored handler) =>
      match m.store.value handler with
      | .function _ captured => some (captured.getD obj)
      | _ => none
    | _ => none
  | _ => none

/-- An event whose handler, if there is one, is called with a good receiver. -/
def Event.Suits (good : Ref → Prop) (m : Machine) : Event → Prop
  | dispatch target type => ∀ r ∈ m.receiver? target type, good r
  | bind _ | sync _ | shutdown => True

theorem Event.suits_of_all (h : ∀ r, good r) (m : Machine) (e : Event) : e.Suits good m := by
  cases e with
  | dispatch target type => exact fun r _ => h r
  | _ => exact trivial

namespace MachineM

variable {p : Policy} {i j : Invoke}

theorem obeys_program {x : ObjectProgram α} (h : x.Within p.toLimits Q) : Obeys A p.holds Q x.run :=
  h.concur_run fun q hq => obeys_onStore (q.obeys_run hq)

theorem obeys_baseFor {host : Host σ} (h : host.Within p.toLimits) (tag : Option UInt32) :
    Obeys A p.holds (fun found => p.good found.1) (baseFor host tag) := by
  cases tag with
  | none => exact .bind (obeys_simple ⟨rfl, rfl⟩) fun _ hr => .pure hr
  | some tag =>
    refine .bind (obeys_program (h.lookup tag host.state)) fun (found, state) hfound => ?_
    cases found with
    | none => exact .bind (obeys_simple ⟨rfl, rfl⟩) fun _ hr => .pure hr
    | some r => exact .pure (hfound r rfl)

theorem obeys_place {host : Host σ} (h : host.Within p.toLimits) (state : σ) (hinst : p.good inst)
    (placement : Placement) :
    Obeys A p.holds (fun _ => True) (place host state inst placement) := by
  have hput (parent : Ref) : Obeys A p.holds (fun _ => True) (do
      setProperty parent placement.name inst
      (host.placed placement.placedBy placement.name inst state).run) :=
    .bind (obeys_setProperty parent placement.name hinst) fun _ _ => obeys_program (h.placed _ _ _ _ hinst)
  refine .bind .get fun m _ => ?_
  dsimp only
  split
  · exact .bind (Q := (· = some m.global)) (.pure rfl) fun _ hparent => hparent ▸ hput m.global
  · refine .bind (obeys_onStore (StoreM.obeys_property? _ _)) fun parent _ => ?_
    cases parent with
    | none => exact .done _
    | some parent => exact hput parent

theorem concur_bindClass (hi : p.Invokes A i j) {host : Host σ} (h : host.Within p.toLimits) (b : Binding) :
    Concur A p.holds (fun _ => True) (bindClass i host b) (bindClass j host b) := by
  refine .bind (obeys_baseFor h b.tag) fun (base, state) hbase => .bind (obeys_simple ⟨rfl, rfl⟩) fun null hnull => ?_
  have hargs : ∀ r ∈ [null], p.good r := by simpa using hnull
  refine .bind (hi (.construction b.className) base [null] hbase hargs) fun inst hinst => ?_
  cases b.placement with
  | none => exact .done _
  | some placement => exact obeys_place h state hinst placement

theorem obeys_newEvent (type : String) : Obeys A p.holds p.good (newEvent type) :=
  .bind (obeys_onStore (StoreM.obeys_allocSimple ⟨rfl, rfl⟩)) fun event hevent =>
    .bind (obeys_simple ⟨rfl, rfl⟩) fun _ htext => .bind (obeys_setProperty event "type" htext) fun _ _ => .pure hevent

theorem newEvent_apply (type : String) (m : Machine) :
    ∃ event n, newEvent type m = .ok event n ∧
      ∀ r, r.index < m.store.objects.size → n.store.value r = m.store.value r := by
  let made := (m.store.alloc { className := "flash.events.Event" }).2
  let typed := (made.alloc { value := .text type }).2
  let event : Ref := ⟨m.store.objects.size⟩
  let bound := typed.update event fun o => { o with properties := o.properties.insert "type" ⟨made.objects.size⟩ }
  have hmake : onStore (StoreM.alloc { className := "flash.events.Event" }) m = .ok event { m with store := made } := rfl
  have htext : fresh (.text type) { m with store := made } = .ok ⟨made.objects.size⟩ { m with store := typed } := rfl
  have hbind : setProperty event "type" ⟨made.objects.size⟩ { m with store := typed } =
      .ok () { m with store := bound } := by
    have hname : arrayIndex? "type" = none := by decide
    simp only [setProperty, onStore, StoreM.setProperty_of_name hname]
    rfl
  refine ⟨event, { m with store := bound }, ?_, fun r hr => ?_⟩
  · rw [newEvent, bind_of_ok hmake, bind_of_ok htext, bind_of_ok hbind]
    rfl
  · have hsize : made.objects.size = m.store.objects.size + 1 := Array.size_push _
    have hbound : bound.value r = typed.value r := Store.value_update _ _ _ fun _ => rfl
    change bound.value r = m.store.value r
    rw [hbound, Store.value_push, if_neg (by omega), Store.value_push, if_neg (by omega)]

theorem notify_of_found {m n : Machine} (h : onStore (StoreM.property? obj type) m = .ok (some handler) n) (i : Invoke) :
    notify i obj type m =
      (if (n.store.value handler).isFunction then do
        let event ← newEvent type
        let _ ← holding [obj, handler, event] (callFunction i handler obj [event])
      else pure ()) n := by
  rw [notify, bind_of_ok h]
  rfl

/-- The handler is still the same function when the event is made. -/
theorem concurAt_handler (hi : p.Invokes A i j) (hm : p.holds m) (hfunction : (m.store.value handler).isFunction = true)
    (h : ∀ callable, m.store.value handler = .function callable none → p.good obj) :
    ConcurAt A p.holds (fun _ => True) m
      (do
        let event ← newEvent type
        let _ ← holding [obj, handler, event] (callFunction i handler obj [event]))
      (do
        let event ← newEvent type
        let _ ← holding [obj, handler, event] (callFunction j handler obj [event])) := by
  obtain ⟨event, n, hnew, hsame⟩ := newEvent_apply type m
  have hevent := obeys_newEvent (A := A) type m hm
  rw [ConcurAt, hnew] at hevent
  have hlt : handler.index < m.store.objects.size := Store.lt_of_value fun hv => by
    rw [hv] at hfunction
    cases hfunction
  rw [ConcurAt, bind_of_ok hnew, bind_of_ok hnew]
  cases hevent with
  | ok hevent hn =>
    have hargs : ∀ r ∈ [event], p.good r := by simpa using hevent
    have hheld := p.change hn (.hold ([obj, handler, event] ++ n.held))
    refine (concurAt_holding (concurAt_callFunction hi hheld (fun callable hv => ?_) hargs)).bind fun _ _ => .done _
    exact h callable ((hsame handler hlt).symm.trans hv)

theorem concurAt_notify (hi : p.Invokes A i j) (hm : p.holds m)
    (h : ∀ handler callable, (m.store.get obj).property? type = some (.stored handler) →
      m.store.value handler = .function callable none → p.good obj) :
    ConcurAt A p.holds (fun _ => True) m (notify i obj type) (notify j obj type) := by
  have hread := obeys_onStore (A := A) (StoreM.obeys_property? obj type) m hm
  unfold ConcurAt at hread ⊢
  cases hp : (m.store.get obj).property? type with
  | none =>
    have hfound : onStore (StoreM.property? obj type) m = .ok none m := onStore_of_store (StoreM.property?_of_none hp)
    rw [notify, notify, bind_of_ok hfound, bind_of_ok hfound]
    exact .ok trivial hm
  | some property =>
    cases property with
    | length n =>
      have hfound : onStore (StoreM.property? obj type) m = .ok (some ⟨m.store.objects.size⟩)
          { m with store := (m.store.alloc { value := .integer (Int32.ofNat n) }).2 } :=
        onStore_of_store (StoreM.property?_of_length hp)
      rw [hfound] at hread
      rw [notify_of_found hfound, notify_of_found hfound, Store.value_push, if_pos rfl]
      cases hread with
      | ok _ hn => exact .ok trivial hn
    | stored handler =>
      have hfound : onStore (StoreM.property? obj type) m = .ok (some handler) m :=
        onStore_of_store (StoreM.property?_of_stored hp)
      rw [notify_of_found hfound, notify_of_found hfound]
      split
      · exact concurAt_handler hi hm ‹_› fun callable => h handler callable hp
      · exact .ok trivial hm

theorem concurAt_dispatch (hi : p.Invokes A i j) (hm : p.holds m) (h : ∀ r ∈ m.receiver? target type, p.good r) :
    ConcurAt A p.holds (fun _ => True) m (dispatch i target type) (dispatch j target type) := by
  have hget : (get : MachineM Machine) m = .ok m m := rfl
  rw [ConcurAt, dispatch, dispatch, bind_of_ok hget, bind_of_ok hget]
  by_cases hstored : ∃ obj, (m.store.get m.global).property? target = some (.stored obj)
  · obtain ⟨obj, hp⟩ := hstored
    have hfound : onStore (StoreM.property? m.global target) m = .ok (some obj) m :=
      onStore_of_store (StoreM.property?_of_stored hp)
    rw [bind_of_ok hfound, bind_of_ok hfound]
    refine concurAt_notify hi hm fun handler callable hhandler hv => h obj ?_
    simp [Machine.receiver?, hp, hhandler, hv]
  · have hnone (r : Ref) (hr : (m.store.get m.global).properties[target]? = some r) : p.good r :=
      absurd ⟨r, by simp only [Object.property?, hr]⟩ hstored
    refine (obeysAt_onStore (StoreM.obeysAt_property? hm hnone)).bind fun found hf => ?_
    cases found with
    | none => exact .done _
    | some obj => exact fun m hm => concurAt_notify hi hm fun _ _ _ _ => hf obj rfl

theorem concurAt_handleWith (hi : p.Invokes A i j) {host : Host σ} (h : host.Within p.toLimits) (hm : p.holds m)
    {e : Event} (he : e.Suits p.good m) :
    ConcurAt A p.holds (fun _ => True) m (handleWith i host e) (handleWith j host e) := by
  cases e with
  | bind b => exact (concur_bindClass hi h b m hm).bind fun _ _ => .done _
  | dispatch target type => exact (concurAt_dispatch hi hm he).bind fun _ _ => .done _
  | sync | shutdown => exact .ok trivial hm

theorem concur_handleWith (hgood : ∀ r, p.good r) (hi : p.Invokes A i j) {host : Host σ} (h : host.Within p.toLimits)
    (e : Event) : Concur A p.holds (fun _ => True) (handleWith i host e) (handleWith j host e) :=
  fun m hm => concurAt_handleWith hi h hm (e.suits_of_all hgood m)

theorem obeys_declare (global : Ref) (script : Definition) {init : Option UInt32} (h : ∀ i ∈ init, p.defers i) :
    Obeys A p.holds (fun _ => True) (declare global script init) :=
  .bind (obeys_buildTraits global script.traits nofun) fun _ _ => .bind (obeys_compile script.init) fun _ _ =>
    obeys_buildTraits global script.traits h

theorem obeys_declareScripts (global : Ref) {scripts : List Definition} (h : ∀ script ∈ scripts, p.defers script.init)
    (last : Definition) : Obeys A p.holds (fun _ => True) (declareScripts global scripts last) := by
  refine .bind (.forM fun script hs => obeys_declare global script ?_) fun _ _ => obeys_declare global last nofun
  rintro _ ⟨⟩
  exact h script hs

theorem concur_runScriptsWith (hi : p.Invokes A i j)
    (h : ∀ m, p.holds m → ∀ script ∈ m.document.scripts, p.defers script.init) :
    Concur A p.holds (fun _ => True) (runScriptsWith i) (runScriptsWith j) := by
  refine .bind .get fun m hm => ?_
  split
  · exact .done _
  · rename_i last _
    have hscripts : ∀ script ∈ m.document.scripts.dropLast, p.defers script.init :=
      fun script hs => h m hm script ((List.dropLast_sublist _).subset hs)
    refine .bind (obeys_declareScripts m.global hscripts last) fun _ _ => .bind (obeys_start last.init) fun _ _ => ?_
    exact .bind (hi (.method last.init) m.global [] (p.good_global hm) (List.forall_mem_nil _)) fun _ _ => .done _

theorem avoids_handleWith {m : Machine} {host : Host σ} {e : Event} (alarm : Stop)
    (h : rings alarm (handleWith (callWatched (.stopAt bad alarm) fuel) host e m) = false) :
    Avoids bad fuel (handleWith · host e) m :=
  .of_silent alarm (fun hi => concur_handleWith (fun _ => trivial) hi host.within_none e) h

theorem avoids_runScriptsWith {m : Machine} (alarm : Stop)
    (h : rings alarm (runScriptsWith (callWatched (.stopAt bad alarm) fuel) m) = false) :
    Avoids bad fuel runScriptsWith m :=
  .of_silent alarm (fun hi => concur_runScriptsWith hi fun _ _ _ _ => trivial) h

theorem keeps_declareScripts (document : Document) (embedding : Embedding) (g : Ref) (scripts : List Definition)
    (last : Definition) :
    Keeps (Machine.Fresh document embedding (scripts.map (·.init)) g) (declareScripts g scripts last) := by
  have hbuilt := Machine.Fresh.builtOn document embedding (scripts.map (·.init)) g
  have hdeclare (script : Definition) (init : Option UInt32) (h : ∀ i ∈ init, i ∈ scripts.map (·.init)) :
      Keeps (Machine.Fresh document embedding (scripts.map (·.init)) g) (declare g script init) :=
    .bind (keeps_buildTraits hbuilt script.traits none nofun) fun _ => .bind (keeps_compile hbuilt script.init) fun _ =>
      keeps_buildTraits hbuilt script.traits init h
  refine .bind (.forM fun script hs => hdeclare script (some script.init) ?_) fun _ => hdeclare last none nofun
  rintro _ ⟨⟩
  exact List.mem_map_of_mem hs

theorem runScriptsWith_of_none {m : Machine} (h : m.document.scripts.getLast? = none) (invoke : Invoke) :
    runScriptsWith invoke m = .ok false m := by
  have hget : (get : MachineM Machine) m = .ok m m := rfl
  rw [runScriptsWith, bind_of_ok hget, h]
  rfl

/-- The scripts of a new machine can always be declared, and then the last one runs first. -/
theorem runScriptsWith_of_blank {m : Machine} (hm : m.Blank document config embedding g)
    (hlast : document.scripts.getLast? = some last) :
    ∃ declared : Machine, declareScripts g document.scripts.dropLast last m = .ok () declared ∧
      declared.Fresh document embedding (document.scripts.dropLast.map (·.init)) g ∧
      ∀ invoke : Invoke, runScriptsWith invoke m =
        (invoke (.method last.init) g [] >>= fun _ => pure true) { declared with started := [last.init] } := by
  obtain ⟨⟨⟩, declared, hrun, hdeclared⟩ := keeps_declareScripts document embedding g _ last m (hm.fresh _)
  refine ⟨declared, hrun, hdeclared, fun invoke => ?_⟩
  have hget : (get : MachineM Machine) m = .ok m m := rfl
  have hnew : last.init ∉ declared.started := by
    rw [hdeclared.started]
    exact List.not_mem_nil
  have hstart := start_of_notMem hnew
  rw [hdeclared.started] at hstart
  rw [runScriptsWith, bind_of_ok hget, hm.document, hm.global, hlast]
  exact (bind_of_ok hrun).trans (bind_of_ok hstart)

end MachineM

/-- A small document of names without a package, methods, and scripts, of which method `i` is the initialiser of
script `i`. -/
def Document.small (names : List String) (codes : List Bytes) (declarations : List (List Trait)) : Document where
  pool := {
    strings := names
    namespaces := [{ kind := Namespace.package, name := 0 }]
    multinames := names.zipIdx.map fun (_, i) => .qname 1 (UInt32.ofNat (i + 1)) false }
  methods := codes.map fun code =>
    { body := some { maxStack := 2, localCount := 1, initScopeDepth := 0, maxScopeDepth := 0, code } }
  scripts := declarations.zipIdx.map fun (traits, i) => { init := UInt32.ofNat i, traits }

end ActionVm
