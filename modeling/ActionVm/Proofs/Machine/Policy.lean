import ActionVm.Machine.Run
import ActionVm.Proofs.Machine.Concurrence
import ActionVm.Proofs.Machine.Plain

namespace ActionVm

/-- What running code may have, which placeholders may be made, and which scripts may be started for them. -/
structure Limits where
  good : Ref → Prop
  defers : UInt32 → Prop
  begins : UInt32 → Prop

structure Limits.Admits (l : Limits) (v : Value) : Prop where
  deferred : v.deferred? = none
  references : ∀ r ∈ v.references, l.good r

theorem Value.IsSimple.admits {v : Value} (h : v.IsSimple) (l : Limits) : l.Admits v where
  deferred := h.deferred
  references r hr := by
    rw [h.references] at hr
    cases hr

structure Limits.Reads (l : Limits) (r : Ref) (v : Value) : Prop where
  good : v.deferred? = none → l.good r
  begins : ∀ init, v.deferred? = some init → l.begins init
  references : ∀ r' ∈ v.references, l.good r'

namespace ObjectRequest

/-- A request that brings in nothing but what the limits allow. -/
def Within (l : Limits) : ObjectRequest → Prop
  | make v => l.Admits v ∨ ∃ init, v = .deferred init ∧ l.defers init
  | copy r | setProperty _ _ r | setSlot _ _ r => l.good r
  | setItems _ items => ∀ r ∈ items.toList, l.good r
  | capture _ receiver => ∀ r ∈ receiver, l.good r
  | _ => True

/-- What the reply to a request tells. -/
def Tells (l : Limits) : (q : ObjectRequest) → q.Reply → Prop
  | look r, o => l.Reads r o.value
  | make _, r | copy _, r => l.good r
  | getProperty .., _ | setProperty .., _ | removeProperty .., _ | setSlot .., _ | bindSlot .., _ | setGetter .., _
  | setSetter .., _ | setClassName .., _ | setPrototype .., _ | setItems .., _ | capture .., _ => True

end ObjectRequest

namespace Request

@[inherit_doc ObjectRequest.Within]
def Within (l : Limits) : Request → Prop
  | object q => q.Within l
  | registerClass _ r | newClass r _ => l.good r
  | callMethod _ this args | callFunction _ this args | buildNamed _ this args => l.good this ∧ ∀ r ∈ args, l.good r
  | define init => l.begins init
  | buildTraits _ _ init => ∀ i ∈ init, l.defers i
  | _ => True

@[inherit_doc ObjectRequest.Tells]
def Tells (l : Limits) : (q : Request) → q.Reply → Prop
  | object q, reply => q.Tells l reply
  | survey, s => l.good s.global
  | callMethod .., r | callFunction .., r | resolve .., r | buildNamed .., r | newClass .., r => l.good r
  | write _, _ | registerClass .., _ | compile _, _ | define _, _ | start _, _ | buildTraits .., _ => True

end Request

abbrev ObjectProgram.Within (l : Limits) (Q : α → Prop) (x : ObjectProgram α) : Prop :=
  x.Obliges (ObjectRequest.Within l) (ObjectRequest.Tells l) Q

/-- Functions that keep within the limits when they are called so. -/
def Embedding.Within (e : Embedding) (l : Limits) : Prop :=
  ∀ f this args, l.good this → (∀ r ∈ args, l.good r) →
    (e.functions f this args).Obliges (Request.Within l) (Request.Tells l) l.good

namespace Object

variable {good : Ref → Prop} {o : Object}

/-- A change of an object that brings nothing but good references in. Placeholders stay what they are. -/
structure Alters (good : Ref → Prop) (o new : Object) : Prop where
  deferred : new.value.deferred? = o.value.deferred?
  references : ∀ r ∈ new.value.references, r ∈ o.value.references ∨ good r

namespace Alters

theorem of_same {new : Object} (hv : new.value = o.value) : o.Alters good new where
  deferred := by rw [hv]
  references r hr := .inl (hv ▸ hr)

theorem putItem (o : Object) (i : Nat) {filling : List Ref} (hf : ∀ r ∈ filling, good r) (h : good item) :
    o.Alters good (o.putItem filling i item) := by
  obtain ⟨value, properties, slots, getters, setters, prototype, className⟩ := o
  cases value with
  | array items =>
    refine ⟨rfl, fun r hr => ?_⟩
    simp only [Object.putItem, Value.references, Array.toList_setIfInBounds] at hr
    rcases List.mem_or_eq_of_mem_set hr with hr | rfl
    · simp only [Array.toList_appendList, List.mem_append] at hr
      exact hr.imp_right (hf r)
    · exact .inr h
  | _ => exact of_same rfl

theorem withItems (o : Object) {items : Array Ref} (h : ∀ r ∈ items.toList, good r) :
    o.Alters good { o with value := o.value.withItems items } := by
  cases hv : o.value with
  | array old => exact ⟨by rw [hv]; rfl, fun r hr => .inr (h r hr)⟩
  | _ => exact of_same hv.symm

theorem withReceiver (o : Object) {receiver : Option Ref} (h : ∀ r ∈ receiver, good r) :
    o.Alters good { o with value := o.value.withReceiver receiver } := by
  cases hv : o.value with
  | function callable old => exact ⟨by rw [hv]; rfl, fun r hr => .inr (h r (Option.mem_toList.mp hr))⟩
  | _ => exact of_same hv.symm

end Alters

end Object

theorem Store.alters_update {s : Store} {f : Object → Object} (h : (s.get r).Alters good (f (s.get r))) (other : Ref) :
    (s.get other).Alters good ((s.update r f).get other) := by
  by_cases ho : other = r
  · subst ho
    rcases s.get_update other f with he | he
    · rw [he]
      exact .of_same rfl
    · rw [he]
      exact h
  · rw [get_update_of_ne ho]
    exact .of_same rfl

theorem Object.mem_references_of_intrinsic {o : Object} (h : o.intrinsic? name = some (.stored r)) :
    r ∈ o.value.references := by
  unfold Object.intrinsic? at h
  split at h
  · rename_i items hv
    rw [hv]
    split at h
    · cases h
    · obtain ⟨i, -, hi⟩ := Option.bind_eq_some_iff.mp h
      obtain ⟨item, hitem, he⟩ := Option.map_eq_some_iff.mp hi
      cases he
      exact Array.mem_toList_iff.mpr (Array.mem_of_getElem? hitem)
  · split at h <;> cases h
  · cases h

def Machine.withCode (m : Machine) (method : UInt32) (code : Option Compiled) : Machine :=
  { m with
    compiled := m.compiled.insert method code
    compileCount := if code.isSome then m.compileCount + 1 else m.compileCount
    journal := .translated method :: m.journal }

theorem Machine.compiled_withCode_self (m : Machine) (method : UInt32) (code : Option Compiled) :
    (m.withCode method code).compiled[method]? = some code :=
  Std.TreeMap.getElem?_insert_self

theorem Machine.compiled_withCode_of_ne {other : UInt32} (h : other ≠ method) (m : Machine) (code : Option Compiled) :
    (m.withCode method code).compiled[other]? = m.compiled[other]? :=
  getElem?_insert_of_ne m.compiled h code

/-- What a machine does by itself, one thing at a time. -/
inductive Machine.Change (l : Limits) (m : Machine) : Machine → Prop where
  | alloc (o : Object) (h : l.Admits o.value) : Change l m { m with store := (m.store.alloc o).2 }
  | defer (h : l.defers init) : Change l m { m with store := (m.store.alloc { value := .deferred init }).2 }
  | copy (h : l.good r) : Change l m { m with store := (m.store.alloc (m.store.get r)).2 }
  | fill (n : Nat) : Change l m { m with store := (m.store.allocUndefined n).2 }
  | update (r : Ref) (f : Object → Object) (h : (m.store.get r).Alters l.good (f (m.store.get r))) :
    Change l m { m with store := m.store.update r f }
  | write (output : String) : Change l m { m with output }
  | hold (held : List Ref) : Change l m { m with held }
  | translate (hnew : m.compiled[method]? = none) (hbody : m.document.body? method = some body) :
    Change l m (m.withCode method (m.embedding.translator m.config.mode method body).toOption)
  | register (name : String) : Change l m { m with classes := m.classes.insert name .builtin }
  | begin (hnew : init ∉ m.started) (h : l.begins init) :
    Change l m { m with started := init :: m.started, journal := .began init :: m.journal }
  | enter (init : UInt32) : Change l m { m with started := init :: m.started }
  | finish (init : UInt32) : Change l m { m with journal := .ended init :: m.journal }

structure Policy extends Limits where
  holds : Machine → Prop
  change : ∀ {m new}, holds m → m.Change toLimits new → holds new
  reads : ∀ {m} (r), holds m → toLimits.Reads r (m.store.value r)
  good_global : ∀ {m}, holds m → good m.global
  functions : ∀ {m}, holds m → m.embedding.Within toLimits

namespace Policy

variable {p : Policy}

def store (p : Policy) (m : Machine) (s : Store) : Prop :=
  p.holds { m with store := s }

/-- Two ways to run callees that do the same under the policy, and follow it. -/
def Invokes (p : Policy) (A : Stop → Prop) (i j : Invoke) : Prop :=
  ∀ callee this args, p.good this → (∀ r ∈ args, p.good r) →
    Concur A p.holds p.good (i callee this args) (j callee this args)

theorem good_of_le (h : p.store m s) (hle : s.objects.size ≤ r.index) : p.good r := by
  apply (p.reads r h).good
  simp [Store.value, Store.get, hle, Value.deferred?]

end Policy

namespace StoreM

variable {p : Policy}

theorem obeys_alloc {o : Object} (h : p.Admits o.value) (m : Machine) : Obeys A (p.store m) p.good (alloc o) :=
  fun _ hs => .ok (Policy.good_of_le hs (Nat.le_refl _)) (p.change hs (.alloc o h))

theorem obeys_allocSimple {o : Object} (h : o.value.IsSimple) (m : Machine) : Obeys A (p.store m) p.good (alloc o) :=
  obeys_alloc (h.admits _) m

theorem obeys_copy (h : p.good r) (m : Machine) : Obeys A (p.store m) p.good (copy r) :=
  .get_bind fun _ hs => .ok (Policy.good_of_le hs (Nat.le_refl _)) (p.change hs (.copy h))

theorem obeys_freshUndefined (n : Nat) (m : Machine) :
    Obeys A (p.store m) (fun refs => ∀ r ∈ refs, p.good r) (freshUndefined n) := by
  refine fun s hs => .ok ?_ (p.change hs (.fill n))
  intro r hr
  obtain ⟨i, hi, rfl⟩ := List.mem_map.mp hr
  exact Policy.good_of_le hs (List.mem_range'_1.mp hi).1

theorem obeys_update {f : Object → Object} (r : Ref) (h : ∀ o, Object.Alters p.good o (f o)) (m : Machine) :
    Obeys A (p.store m) (fun _ => True) (update r f) :=
  .modify fun _ hs => p.change hs (.update r f (h _))

theorem obeys_object (r : Ref) (m : Machine) : Obeys A (p.store m) (fun o => p.Reads r o.value) (object r) :=
  .bind .get fun _ hs => .pure (p.reads r hs)

theorem obeys_read (property : Property) (m : Machine) :
    Obeys A (p.store m) (fun r => property = .stored r ∨ p.good r) (read property) := by
  cases property with
  | stored r => exact .pure (.inl rfl)
  | length n => exact (obeys_allocSimple ⟨rfl, rfl⟩ m).mono fun _ => .inr

theorem obeys_property? (r : Ref) (name : String) (m : Machine) :
    Obeys A (p.store m) (fun _ => True) (property? r name) := by
  refine .bind (obeys_object r m) fun o _ => ?_
  split
  · exact .bind (obeys_read _ m) fun _ _ => .done _
  · exact .done _

theorem obeysAt_property? (hs : p.store m s) (h : ∀ v, (s.get r).properties[name]? = some v → p.good v) :
    ConcurAt A (p.store m) (fun found => ∀ v ∈ found, p.good v) s (property? r name) (property? r name) := by
  have hobject : object r s = .ok (s.get r) s := rfl
  rw [ConcurAt, property?, bind_of_ok hobject]
  cases hp : (s.get r).property? name with
  | none => exact .ok (fun _ hv => (Option.not_mem_none _ hv).elim) hs
  | some property =>
    refine ConcurAt.bind (obeys_read property m s hs) fun v hv => .pure fun _ hv' => ?_
    cases hv'
    rcases hv with rfl | hv
    · cases ho : (s.get r).properties[name]? with
      | some bound =>
        simp only [Object.property?, ho, Option.some.injEq, Property.stored.injEq] at hp
        exact hp ▸ h bound ho
      | none =>
        simp only [Object.property?, ho] at hp
        exact (p.reads r hs).references v (Object.mem_references_of_intrinsic hp)
    · exact hv

theorem obeys_setProperty (r : Ref) (name : String) (h : p.good new) (m : Machine) :
    Obeys A (p.store m) (fun _ => True) (setProperty r name new) := by
  refine .bind (obeys_object r m) fun o _ => ?_
  split
  · rename_i i _ _
    cases lengthFor i with
    | error e => exact .throw e
    | ok length =>
      refine .bind (Q := fun _ => True) (.pure trivial) fun length _ => ?_
      refine .bind (obeys_freshUndefined _ m) fun filling hf => ?_
      exact obeys_update r (fun o => .putItem o i hf h) m
  · refine obeys_update r ?_ m
    exact fun _ => .of_same rfl

theorem obeys_removeProperty (r : Ref) (name : String) (m : Machine) :
    Obeys A (p.store m) (fun _ => True) (removeProperty r name) := by
  refine .bind (obeys_object r m) fun o _ => .bind (Q := fun _ => True) (obeys_update r ?_ m) fun _ _ => .done _
  exact fun _ => .of_same rfl

theorem obeys_slot? (r : Ref) (id : UInt32) (m : Machine) : Obeys A (p.store m) (fun _ => True) (slot? r id) := by
  refine .bind (obeys_object r m) fun o _ => ?_
  split
  · exact .done _
  · exact obeys_property? r _ m
  · exact .done _

theorem obeys_setSlot (r : Ref) (id : UInt32) (h : p.good new) (m : Machine) :
    Obeys A (p.store m) (fun _ => True) (setSlot r id new) := by
  refine .bind (obeys_object r m) fun o _ => ?_
  split
  · exact obeys_setProperty r _ h m
  · split
    · exact .done _
    · exact obeys_update (f := fun o => { o with slots := o.slots.insert id (.held new) }) r (fun _ => .of_same rfl) m

theorem obeys_setGetter (r : Ref) (name : String) (f : Ref) (m : Machine) :
    Obeys A (p.store m) (fun _ => True) (setGetter r name f) := by
  apply obeys_update
  exact fun _ => .of_same rfl

theorem obeys_setSetter (r : Ref) (name : String) (f : Ref) (m : Machine) :
    Obeys A (p.store m) (fun _ => True) (setSetter r name f) := by
  apply obeys_update
  exact fun _ => .of_same rfl

theorem obeys_setClassName (r : Ref) (name : String) (m : Machine) :
    Obeys A (p.store m) (fun _ => True) (setClassName r name) := by
  apply obeys_update
  exact fun _ => .of_same rfl

theorem obeys_setPrototype (r prototype : Ref) (m : Machine) :
    Obeys A (p.store m) (fun _ => True) (setPrototype r prototype) := by
  apply obeys_update
  exact fun _ => .of_same rfl

theorem obeys_bindSlot (r : Ref) (id : UInt32) (name : String) (m : Machine) :
    Obeys A (p.store m) (fun _ => True) (update r (·.bindSlot id name)) := by
  refine obeys_update r (fun o => ?_) m
  unfold Object.bindSlot
  split
  · exact .of_same rfl
  · exact .of_same rfl

theorem obeys_defer (h : p.defers init) (m : Machine) : Obeys A (p.store m) p.good (fresh (.deferred init)) :=
  fun _ hs => .ok (Policy.good_of_le hs (Nat.le_refl _)) (p.change hs (.defer h))

end StoreM

theorem ObjectRequest.obeys_run {p : Policy} (q : ObjectRequest) (h : q.Within p.toLimits) (m : Machine) :
    Obeys A (p.store m) (q.Tells p.toLimits) q.run := by
  cases q with
  | look r => exact StoreM.obeys_object r m
  | make v =>
    rcases h with h | ⟨init, rfl, h⟩
    · exact StoreM.obeys_alloc h m
    · exact StoreM.obeys_defer h m
  | copy r => exact StoreM.obeys_copy h m
  | getProperty r name => exact StoreM.obeys_property? r name m
  | setProperty r name new => exact StoreM.obeys_setProperty r name h m
  | removeProperty r name => exact StoreM.obeys_removeProperty r name m
  | setSlot r id new => exact StoreM.obeys_setSlot r id h m
  | bindSlot r id name => exact StoreM.obeys_bindSlot r id name m
  | setGetter r name f => exact StoreM.obeys_setGetter r name f m
  | setSetter r name f => exact StoreM.obeys_setSetter r name f m
  | setClassName r name => exact StoreM.obeys_setClassName r name m
  | setPrototype r prototype => exact StoreM.obeys_setPrototype r prototype m
  | setItems r items => exact StoreM.obeys_update r (fun o => .withItems o h) m
  | capture f receiver => exact StoreM.obeys_update f (fun o => .withReceiver o h) m

namespace MachineM

variable {p : Policy} {i j : Invoke}

theorem obeysAt_onStore {act : StoreM α} (h : ConcurAt (fun _ => False) (p.store m) Q m.store act act) :
    ConcurAt A p.holds Q m (onStore act) (onStore act) := by
  simp only [ConcurAt, onStore] at h ⊢
  cases hact : act m.store with
  | ok r s =>
    rw [hact] at h
    cases h with
    | ok hr hs => exact .ok hr hs
  | error e s =>
    rw [hact] at h
    cases h with
    | error hs => exact .error hs
    | alarm he => exact he.elim

theorem obeys_onStore {act : StoreM α} (h : ∀ m, Obeys (fun _ => False) (p.store m) Q act) :
    Obeys A p.holds Q (onStore act) :=
  fun m hm => obeysAt_onStore (h m m.store hm)

theorem obeys_simple {v : Value} (h : v.IsSimple) : Obeys A p.holds p.good (fresh v) :=
  obeys_onStore (StoreM.obeys_allocSimple h)

theorem obeys_value (r : Ref) : Obeys A p.holds (p.Reads r) (value r) :=
  .bind .get fun _ hm => .pure (p.reads r hm)

theorem obeys_textOf (r : Ref) : Obeys A p.holds (fun _ => True) (textOf r) := by
  refine .bind .get fun m _ => ?_
  cases m.store.text? r with
  | some text => exact .done _
  | none => exact .throw _

theorem concurAt_holding {x y : MachineM α} (h : ConcurAt A p.holds Q { m with held := refs ++ m.held } x y) :
    ConcurAt A p.holds Q m (holding refs x) (holding refs y) := by
  simp only [ConcurAt, holding] at h ⊢
  generalize x { m with held := refs ++ m.held } = first at h ⊢
  generalize y { m with held := refs ++ m.held } = second at h ⊢
  cases h with
  | ok hr hm' => exact .ok hr (p.change hm' (.hold m.held))
  | error hm' => exact .error (p.change hm' (.hold m.held))
  | alarm he hm' => exact .alarm he (p.change hm' (.hold m.held))

theorem concur_holding {x y : MachineM α} (h : Concur A p.holds Q x y) (refs : List Ref) :
    Concur A p.holds Q (holding refs x) (holding refs y) :=
  fun _ hm => concurAt_holding (h _ (p.change hm (.hold _)))

theorem obeys_write (text : String) : Obeys A p.holds (fun _ => True) (write text) := by
  refine .modify fun m hm => ?_
  split
  · exact hm
  · exact p.change hm (.write _)

theorem compile_of_known {m : Machine} (h : m.compiled[method]? = some code) : compile method m = .ok code m := by
  have hget : (get : MachineM Machine) m = .ok m m := rfl
  rw [compile, bind_of_ok hget, h]
  rfl

theorem compile_of_bodiless {m : Machine} (h : m.compiled[method]? = none) (hbody : m.document.body? method = none) :
    compile method m = .ok none m := by
  have hget : (get : MachineM Machine) m = .ok m m := rfl
  rw [compile, bind_of_ok hget, h, hbody]
  rfl

theorem compile_of_new {m : Machine} (h : m.compiled[method]? = none) (hbody : m.document.body? method = some body) :
    compile method m = .ok (m.embedding.translator m.config.mode method body).toOption
      (m.withCode method (m.embedding.translator m.config.mode method body).toOption) := by
  have hget : (get : MachineM Machine) m = .ok m m := rfl
  have htranslate : translate method body m = .ok (m.embedding.translator m.config.mode method body)
      { m with journal := .translated method :: m.journal } := rfl
  rw [compile, bind_of_ok hget, h, hbody]
  refine (bind_of_ok htranslate).trans ?_
  cases m.embedding.translator m.config.mode method body with
  | ok code => rfl
  | error e => rfl

theorem obeys_compile (method : UInt32) : Obeys A p.holds (fun _ => True) (compile method) := by
  intro m hm
  unfold ConcurAt
  cases hc : m.compiled[method]? with
  | some code =>
    rw [compile_of_known hc]
    exact .ok trivial hm
  | none =>
    cases hb : m.document.body? method with
    | none =>
      rw [compile_of_bodiless hc hb]
      exact .ok trivial hm
    | some body =>
      rw [compile_of_new hc hb]
      exact .ok trivial (p.change hm (.translate hc hb))

theorem obeys_firstOf {args : List Ref} (h : ∀ r ∈ args, p.good r) : Obeys A p.holds p.good (firstOf args) := by
  cases args with
  | nil => exact obeys_simple ⟨rfl, rfl⟩
  | cons r rest => exact .pure (h r List.mem_cons_self)

theorem obeys_parseInt {args : List Ref} (h : ∀ r ∈ args, p.good r) : Obeys A p.holds Value.IsSimple (parseInt args) := by
  refine .bind (obeys_firstOf h) fun r _ => .bind (obeys_textOf r) fun text _ => ?_
  dsimp only
  split
  · refine .bind (obeys_value _) fun _ _ => .bind (.done _) fun radix _ => ?_
    split
    · exact .pure (Value.isSimple_ofInt _)
    · exact .pure ⟨rfl, rfl⟩
  · refine .bind (.done none) fun radix _ => ?_
    split
    · exact .pure (Value.isSimple_ofInt _)
    · exact .pure ⟨rfl, rfl⟩

theorem obeys_callBuiltin (f : Builtin) {args : List Ref} (h : ∀ r ∈ args, p.good r) :
    Obeys A p.holds p.good (callBuiltin f args) := by
  cases f with
  | toInt | toBoolean | toNumber | sqrt | floor =>
    exact .bind (obeys_firstOf h) fun r _ => .bind (obeys_value r) fun _ _ => obeys_simple ⟨rfl, rfl⟩
  | toText => exact .bind (obeys_firstOf h) fun r _ => .bind (obeys_textOf r) fun _ _ => obeys_simple ⟨rfl, rfl⟩
  | atan2 =>
    refine .bind (obeys_firstOf h) fun r _ => .bind (obeys_value r) fun _ _ => ?_
    dsimp only
    split
    · exact .bind (obeys_value _) fun _ _ => .bind (.done _) fun _ _ => obeys_simple ⟨rfl, rfl⟩
    · exact .bind (.done _) fun _ _ => obeys_simple ⟨rfl, rfl⟩
  | trace =>
    refine .bind (.mapM fun r _ => obeys_textOf r) fun texts _ => ?_
    exact .bind (obeys_write _) fun _ _ => obeys_simple ⟨rfl, rfl⟩
  | parseInt => exact .bind (obeys_parseInt h) fun _ hv => obeys_simple hv

/-- A receiver that was not captured has to be good. -/
theorem concurAt_callFunction (hi : p.Invokes A i j) (hm : p.holds m)
    (hthis : ∀ callable, m.store.value f = .function callable none → p.good this) (h : ∀ r ∈ args, p.good r) :
    ConcurAt A p.holds p.good m (callFunction i f this args) (callFunction j f this args) := by
  have hvalue : value f m = .ok (m.store.value f) m := rfl
  have hreads := p.reads f hm
  rw [ConcurAt, callFunction, callFunction, bind_of_ok hvalue, bind_of_ok hvalue]
  cases hv : m.store.value f with
  | function callable receiver =>
    have hreceiver : p.good (receiver.getD this) := by
      cases receiver with
      | none => exact hthis callable hv
      | some r => exact hreads.references r (by rw [hv]; exact List.mem_cons_self)
    exact hi (.code callable) _ args hreceiver h m hm
  | _ => exact obeys_simple ⟨rfl, rfl⟩ m hm

theorem concur_callFunction (hi : p.Invokes A i j) (f : Ref) (hthis : p.good this) (h : ∀ r ∈ args, p.good r) :
    Concur A p.holds p.good (callFunction i f this args) (callFunction j f this args) :=
  fun _ hm => concurAt_callFunction hi hm (fun _ _ => hthis) h

theorem start_of_mem {m : Machine} (h : init ∈ m.started) : start init m = .ok false m := by
  have hc : m.started.contains init = true := by simpa using h
  exact congrArg (fun result : Bool × Machine => EStateM.Result.ok result.1 result.2) (if_pos hc)

theorem start_of_notMem {m : Machine} (h : init ∉ m.started) :
    start init m = .ok true { m with started := init :: m.started } := by
  have hc : ¬m.started.contains init = true := by simpa using h
  exact congrArg (fun result : Bool × Machine => EStateM.Result.ok result.1 result.2) (if_neg hc)

theorem obeys_start (init : UInt32) : Obeys A p.holds (fun _ => True) (start init) := by
  intro m hm
  unfold ConcurAt
  by_cases hs : init ∈ m.started
  · rw [start_of_mem hs]
    exact .ok trivial hm
  · rw [start_of_notMem hs]
    exact .ok trivial (p.change hm (.enter init))

theorem define_of_mem {m : Machine} (h : init ∈ m.started) (i : Invoke) : define i init m = .ok () m := by
  rw [define, bind_of_ok (start_of_mem h)]
  rfl

/-- A script is run exactly where it is noted down as begun. -/
theorem define_of_notMem {m : Machine} (h : init ∉ m.started) (i : Invoke) :
    define i init m = (do let _ ← i (.method init) m.global []; note (.ended init))
      { m with started := init :: m.started, journal := .began init :: m.journal } := by
  rw [define, bind_of_ok (start_of_notMem h)]
  rfl

theorem define_eq (i : Invoke) (init : UInt32) (m : Machine) :
    define i init m =
      if init ∈ m.started then .ok () m
      else (do let _ ← i (.method init) m.global []; note (.ended init))
        { m with started := init :: m.started, journal := .began init :: m.journal } := by
  split
  · exact define_of_mem ‹_› i
  · exact define_of_notMem ‹_› i

theorem concur_define (hi : p.Invokes A i j) (h : p.begins init) :
    Concur A p.holds (fun _ => True) (define i init) (define j init) := by
  intro m hm
  unfold ConcurAt
  by_cases hs : init ∈ m.started
  · rw [define_of_mem hs, define_of_mem hs]
    exact .ok trivial hm
  · rw [define_of_notMem hs, define_of_notMem hs]
    have hrun := hi (.method init) m.global [] (p.good_global hm) nofun
    refine Concur.bind hrun (fun _ _ => ?_) _ (p.change hm (.begin hs h))
    exact .modify fun m hm => p.change hm (.finish init)

theorem obeys_definedValue (holder : Ref) (name : String) : Obeys A p.holds p.good (definedValue holder name) := by
  refine .bind (obeys_onStore (StoreM.obeys_property? holder name)) fun found _ => ?_
  cases found with
  | none => exact obeys_simple ⟨rfl, rfl⟩
  | some r =>
    refine .bind (obeys_value r) fun v hv => ?_
    cases hd : v.deferred? with
    | none => exact .pure (hv.good hd)
    | some init => exact obeys_simple ⟨rfl, rfl⟩

theorem concur_resolve (hi : p.Invokes A i j) (holder : Ref) (name : String) (r : Ref) :
    Concur A p.holds p.good (resolve i holder name r) (resolve j holder name r) := by
  refine .bind (obeys_value r) fun v hv => ?_
  cases hd : v.deferred? with
  | none => exact .pure (hv.good hd)
  | some init =>
    refine .bind (concur_holding (concur_define hi (hv.begins init hd)) _) fun _ _ => ?_
    exact obeys_definedValue holder name

theorem obeys_methodValue (method : UInt32) : Obeys A p.holds p.good (methodValue method) :=
  .bind (obeys_compile method) fun _ _ => obeys_simple ⟨rfl, rfl⟩

theorem obeys_setProperty (r : Ref) (name : String) (h : p.good new) :
    Obeys A p.holds (fun _ => True) (setProperty r name new) :=
  obeys_onStore (StoreM.obeys_setProperty r name h)

theorem obeys_bindSlot (r : Ref) (id : UInt32) (name : String) : Obeys A p.holds (fun _ => True) (bindSlot r id name) :=
  obeys_onStore (StoreM.obeys_bindSlot r id name)

theorem obeys_placeholder {init : Option UInt32} (h : ∀ i ∈ init, p.defers i) :
    Obeys A p.holds p.good (placeholder init) := by
  cases init with
  | none => exact obeys_simple ⟨rfl, rfl⟩
  | some init => exact obeys_onStore (StoreM.obeys_defer (h init rfl))

theorem obeys_buildSlot (r : Ref) (name : String) (s : SlotTrait) {init : Option UInt32} (h : ∀ i ∈ init, p.defers i) :
    Obeys A p.holds (fun _ => True) (buildSlot r name s init) := by
  unfold buildSlot
  split
  · refine .bind .get fun m _ => ?_
    split
    · exact obeys_bindSlot r s.slotId name
    · exact .bind (obeys_placeholder h) fun _ hv => .bind (obeys_setProperty r name hv) fun _ _ =>
        obeys_bindSlot r s.slotId name
  · split
    · exact .bind .get fun m _ => .bind (obeys_simple (isSimple_constant _ _ _)) fun _ hv =>
        .bind (obeys_setProperty r name hv) fun _ _ => obeys_bindSlot r s.slotId name
    · exact .bind (obeys_simple ⟨rfl, rfl⟩) fun _ hv => obeys_setProperty r name hv

theorem obeys_buildTrait (r : Ref) {init : Option UInt32} (h : ∀ i ∈ init, p.defers i) (t : Trait) :
    Obeys A p.holds (fun _ => True) (buildTrait r init t) := by
  refine .bind .get fun m _ => ?_
  dsimp only
  split
  · exact .bind (obeys_placeholder h) fun _ hv => .bind (obeys_setProperty r _ hv) fun _ _ => obeys_bindSlot r _ _
  · exact .bind (obeys_methodValue _) fun _ hv => obeys_setProperty r _ hv
  · exact .bind (obeys_methodValue _) fun f _ => obeys_onStore (StoreM.obeys_setGetter r _ f)
  · exact .bind (obeys_methodValue _) fun f _ => obeys_onStore (StoreM.obeys_setSetter r _ f)
  · exact .bind (obeys_methodValue _) fun _ hv => .bind (obeys_setProperty r _ hv) fun _ _ => obeys_bindSlot r _ _
  · split
    · exact .bind (obeys_placeholder h) fun _ hv => .bind (obeys_setProperty r _ hv) fun _ _ => obeys_bindSlot r _ _
    · exact obeys_buildSlot r _ _ h
  · exact obeys_buildSlot r _ _ h

theorem obeys_buildTraits (r : Ref) (traits : List Trait) {init : Option UInt32} (h : ∀ i ∈ init, p.defers i) :
    Obeys A p.holds (fun _ => True) (buildTraits r traits init) :=
  .forM fun t _ => obeys_buildTrait r h t

theorem concurAt_buildNamed (hi : p.Invokes A i j) (hm : p.holds m)
    (hbound : m.classes[name]? = some .builtin →
      ∀ r, (m.store.get m.global).properties[name]? = some r → p.good r)
    (hbase : p.good base) (h : ∀ r ∈ args, p.good r) :
    ConcurAt A p.holds p.good m (buildNamed i name base args) (buildNamed j name base args) := by
  have hget : (get : MachineM Machine) m = .ok m m := rfl
  rw [ConcurAt, buildNamed, buildNamed, bind_of_ok hget, bind_of_ok hget]
  cases hc : m.classes[name]? with
  | none => exact obeys_simple ⟨rfl, rfl⟩ m hm
  | some entry =>
    cases entry with
    | builtin =>
      refine (obeysAt_onStore (StoreM.obeysAt_property? hm (hbound hc))).bind fun binding hb => ?_
      cases binding with
      | none => exact obeys_simple ⟨rfl, rfl⟩
      | some binding => exact obeys_onStore (StoreM.obeys_copy (hb binding rfl))
    | defined index =>
      suffices hdefined : Concur A p.holds p.good _ _ from hdefined m hm
      refine .bind (obeys_onStore (StoreM.obeys_setClassName base name)) fun _ _ => ?_
      refine .bind (obeys_onStore (StoreM.obeys_property? m.global name)) fun binding _ => ?_
      cases binding with
      | none => exact .pure hbase
      | some binding =>
        refine .bind (concur_holding (concur_resolve hi m.global name binding) _) fun resolved _ => ?_
        refine .bind (obeys_onStore (StoreM.obeys_setPrototype base resolved)) fun _ _ => ?_
        cases hd : m.document.instances[index]? with
        | none => exact .pure hbase
        | some inst =>
          refine .bind (obeys_compile inst.init) fun _ _ => .bind (obeys_buildTraits base inst.traits nofun) fun _ _ => ?_
          exact .bind (concur_holding (hi (.method inst.init) base args hbase h) _) fun _ _ => .pure hbase

theorem concur_newClass (hi : p.Invokes A i j) (hbase : p.good base) (index : UInt32) :
    Concur A p.holds p.good (newClass i base index) (newClass j base index) := by
  refine .bind .get fun m _ => .bind (obeys_onStore (StoreM.obeys_copy hbase)) fun built hbuilt => ?_
  cases hd : m.document.classes[index.toNat]? with
  | none => exact .pure hbuilt
  | some info =>
    have hlast : Concur A p.holds p.good
        (do
          let _ ← compile info.init
          buildTraits built info.traits none
          let _ ← holding [base, built] (i (.method info.init) built [])
          return built)
        (do
          let _ ← compile info.init
          buildTraits built info.traits none
          let _ ← holding [base, built] (j (.method info.init) built [])
          return built) :=
      .bind (obeys_compile info.init) fun _ _ => .bind (obeys_buildTraits built info.traits nofun) fun _ _ =>
        .bind (concur_holding (hi (.method info.init) built [] hbuilt nofun) _) fun _ _ => .pure hbuilt
    cases hi : m.document.instances[index.toNat]? with
    | none => exact hlast
    | some inst => exact .bind (obeys_onStore (StoreM.obeys_setClassName built _)) fun _ _ => hlast

theorem obeys_registerClass (name : String) (h : p.good r) :
    Obeys A p.holds (fun _ => True) (registerClass name r) :=
  .bind .get fun m _ => .bind (obeys_onStore (StoreM.obeys_setProperty m.global name h)) fun _ _ =>
    .modify fun _ hm => p.change hm (.register name)

theorem concur_answer (hi : p.Invokes A i j) (q : Request) (h : q.Within p.toLimits) :
    Concur A p.holds (q.Tells p.toLimits) (answer i q) (answer j q) := by
  cases q with
  | object q => exact obeys_onStore (q.obeys_run h)
  | survey => exact .bind .get fun _ hm => .pure (p.good_global hm)
  | write text => exact obeys_write text
  | registerClass name r => exact obeys_registerClass name h
  | compile method => exact .bind (obeys_compile method) fun _ _ => .done _
  | callMethod method this args => exact concur_holding (hi _ this args h.1 h.2) _
  | callFunction f this args => exact concur_holding (concur_callFunction hi f h.1 h.2) _
  | define init => exact concur_define hi h
  | start init => exact obeys_start init
  | resolve holder name r => exact concur_resolve hi holder name r
  | buildTraits r traits init => exact obeys_buildTraits r traits h
  | buildNamed name base args => exact concur_holding (hi _ base args h.1 h.2) _
  | newClass base index => exact concur_newClass hi h index

end MachineM

end ActionVm
