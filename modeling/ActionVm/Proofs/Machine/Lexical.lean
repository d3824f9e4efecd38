import ActionVm.Proofs.Machine.Arguments

namespace ActionVm

namespace Activation

def nameAt (a : Activation) (index : UInt32) : String :=
  a.machine.document.pool.nameText index

def scopeOf? (a : Activation) (name : String) : Option Ref :=
  a.frame.scopes.find? fun r => (a.machine.store.get r).owns name

def holder (a : Activation) (name : String) : Ref :=
  (a.scopeOf? name).getD a.machine.global

def source (a : Activation) (name : String) : Object :=
  a.machine.store.get (a.holder name)

def withCapture (a : Activation) (callable : Callable) (f this : Ref) : Activation :=
  { a with
    machine := { a.machine with
      store := a.machine.store.update f ({ · with value := .function callable (some this) }) } }

@[simp] theorem nameAt_withNew (a : Activation) (v : Value) (index : UInt32) :
    (a.withNew v).nameAt index = a.nameAt index :=
  rfl

theorem get_next (a : Activation) (v : Value) : (a.withNew v).machine.store.get a.next = { value := v } := by
  simp [withNew, next, Store.alloc, Store.get]

theorem value_withCapture {a : Activation} (h : a.machine.store.value f = .function callable receiver) (this : Ref) :
    (a.withCapture callable f this).machine.store.value f = .function callable (some this) := by
  have hlt : f.index < a.machine.store.objects.size := Store.lt_of_value (by rw [h]; exact nofun)
  rw [withCapture, Store.value, Store.get_update_of_lt hlt]

theorem owns_of_scopeOf? {a : Activation} (h : a.scopeOf? name = some scope) :
    (a.machine.store.get scope).owns name = true :=
  List.find?_some (p := fun r => (a.machine.store.get r).owns name) h

theorem scopeOf?_of_missing {a : Activation} (h : (a.source name).owns name = false) :
    a.scopeOf? name = none := by
  cases hscope : a.scopeOf? name with
  | none => rfl
  | some scope =>
    rw [source, holder, hscope] at h
    cases h.symm.trans (owns_of_scopeOf? hscope)

end Activation

theorem Object.property?_of_owns {o : Object} (h : o.owns name = true) (hgetter : o.getters[name]? = none) :
    ∃ p, o.property? name = some p := by
  have hcontains : o.getters.contains name = false := by
    rw [Std.TreeMap.contains_eq_isSome_getElem?, hgetter]
    rfl
  rw [owns, hcontains, Bool.or_false] at h
  exact Option.isSome_iff_exists.mp h

/-- How the result of reading a name at once compares with that of finding its holder and then reading it.
They are the same; or a function was found on the scopes, and has captured the receiver; or no object owns
the name, and the holder that stands for none is one undefined object more. -/
inductive ReadsAlike (a : Activation) (name : String) (this : Ref) :
    EStateM.Result Stop Activation Unit → EStateM.Result Stop Activation Unit → Prop where
  | same : ReadsAlike a name this result result
  | captured (hscope : a.scopeOf? name = some scope)
    (hf : (a.machine.store.get scope).property? name = some (.stored f))
    (hv : a.machine.store.value f = .function callable receiver) :
    ReadsAlike a name this (.ok () ((a.withCapture callable f this).withOperands [f])) (.ok () (a.withOperands [f]))
  | missing (howns : (a.source name).owns name = false) :
    ReadsAlike a name this (.ok () ((a.withNew .undefined).withOperands [a.next]))
      (.ok () (((a.withNew .undefined).withNew .undefined).withOperands [(a.withNew .undefined).next]))

theorem MachineM.resolve_of_defined {m : Machine} (h : (m.store.value r).deferred? = none) (invoke : Invoke)
    (holder : Ref) (name : String) : resolve invoke holder name r m = .ok r m := by
  have hvalue : value r m = .ok (m.store.value r) m := rfl
  rw [resolve, bind_of_ok hvalue, h]
  rfl

theorem MachineM.holding_of_ok {x : MachineM α} {m : Machine} {refs : List Ref}
    (h : x { m with held := refs ++ m.held } = .ok r { m with held := refs ++ m.held }) :
    holding refs x m = .ok r m := by
  simp only [holding, h]

theorem FrameM.callOut_of_ok {x : MachineM α} {a : Activation} {refs : List Ref}
    (h : x { a.machine with held := a.frame.references ++ refs ++ a.machine.held } =
      .ok r { a.machine with held := a.frame.references ++ refs ++ a.machine.held }) : callOut refs x a = .ok r a := by
  simp only [callOut, MachineM.holding_of_ok h]

namespace FrameM

theorem onStore_of_store {x : StoreM α} {a : Activation} (h : x a.machine.store = .ok r s) :
    onStore x a = .ok r { a with machine := { a.machine with store := s } } := by
  simp only [onStore, MachineM.onStore, h]

theorem frame_of_onStore {x : StoreM α} (h : onStore x a = .ok r b) : b.frame = a.frame := by
  simp only [onStore] at h
  split at h <;> cases h
  rfl

theorem frame_of_callOut {x : MachineM α} (h : callOut refs x a = .ok r b) : b.frame = a.frame := by
  simp only [callOut] at h
  split at h <;> cases h
  rfl

theorem push_ne_ok {x : FrameM Ref} (hx : ∀ r b, x a = .ok r b → b.frame = a.frame)
    (hfull : a.frame.stackLimit ≤ a.frame.stack.length) : (x >>= push) a ≠ .ok () b := by
  intro h
  obtain ⟨r, a₁, hr, hpush⟩ := bind_eq_ok.mp h
  rw [← hx r a₁ hr] at hfull
  cases hpush.symm.trans (push_of_full hfull r)

def pushProperty (invoke : Invoke) (obj : Ref) (name : String) : FrameM Unit := do
  match ← onStore (StoreM.property? obj name) with
  | some r => push (← callOut [obj] (MachineM.resolve invoke obj name r))
  | none => pushFresh .undefined

theorem pushProperty_of_none {a : Activation} (h : (a.machine.store.get obj).property? name = none)
    (invoke : Invoke) : pushProperty invoke obj name a = pushFresh .undefined a := by
  have hnone : onStore (StoreM.property? obj name) a = .ok none a := onStore_of_store (StoreM.property?_of_none h)
  rw [pushProperty, bind_of_ok hnone]

theorem pushProperty_ne_ok {a : Activation} (hfull : a.frame.stackLimit ≤ a.frame.stack.length) :
    pushProperty invoke obj name a ≠ .ok () b := by
  intro h
  obtain ⟨found, a₁, hfound, hpush⟩ := bind_eq_ok.mp h
  rw [← frame_of_onStore hfound] at hfull
  cases found with
  | some r => exact push_ne_ok (fun _ _ => frame_of_callOut) hfull hpush
  | none => exact push_ne_ok (fun _ _ => frame_of_onStore) hfull hpush

theorem callOut_resolve {a : Activation} (h : (a.machine.store.value r).deferred? = none) (refs : List Ref)
    (invoke : Invoke) (holder : Ref) (name : String) :
    callOut refs (MachineM.resolve invoke holder name r) a = .ok r a := by
  apply callOut_of_ok
  apply MachineM.resolve_of_defined
  exact h

theorem pushProperty_of_stored {a : Activation} (h : (a.machine.store.get obj).property? name = some (.stored r))
    (hdefined : (a.machine.store.value r).deferred? = none) (invoke : Invoke) :
    pushProperty invoke obj name a = push r a := by
  have hfound : onStore (StoreM.property? obj name) a = .ok (some r) a :=
    onStore_of_store (StoreM.property?_of_stored h)
  rw [pushProperty, bind_of_ok hfound]
  exact bind_of_ok (callOut_resolve hdefined [obj] invoke obj name)

theorem onStore_capture {a : Activation} (h : a.machine.store.value f = .function callable bound) (this : Ref) :
    onStore (capture f this) a = .ok () (a.withCapture callable f this) := by
  have hvalue : StoreM.value f a.machine.store = .ok (.function callable bound) a.machine.store := by
    rw [← h]
    rfl
  apply onStore_of_store (s := (a.withCapture callable f this).machine.store)
  rw [capture, bind_of_ok hvalue]
  rfl

theorem onStore_capture_of_other {a : Activation} (h : (a.machine.store.value r).isFunction = false) (this : Ref) :
    onStore (capture r this) a = .ok () a := by
  have hvalue : StoreM.value r a.machine.store = .ok (a.machine.store.value r) a.machine.store := rfl
  apply onStore_of_store
  rw [capture, bind_of_ok hvalue]
  cases hv : a.machine.store.value r with
  | function => simp [hv, Value.isFunction] at h
  | _ => rfl

theorem findScope?_apply (name : String) (a : Activation) : findScope? name a = .ok (a.scopeOf? name) a :=
  rfl

theorem receiver_of_frame {a b : Activation} (hthis : a.frame.locals[0]? = some this) (h : b.frame = a.frame) :
    receiver b = .ok this b := by
  apply getLocal_of_some
  rw [h]
  exact hthis

section Static

variable {a : Activation} {index : UInt32} (hstatic : a.machine.document.pool.runtimeParts index = 0)

include hstatic

theorem nameText_of_static : nameText index a = .ok (a.nameAt index) a := by
  have hpool : pool a = .ok a.machine.document.pool a := rfl
  rw [nameText, bind_of_ok hpool]
  unfold Pool.runtimeParts at hstatic
  cases hname : a.machine.document.pool.multiname? index with
  | none => rfl
  | some name =>
    rw [hname] at hstatic
    cases name with
    | rtqname | rtqnameL | multinameL => cases hstatic
    | qname | multiname | any => rfl

theorem getProperty_withOperands (hgetter : (a.machine.store.get obj).getters[a.nameAt index]? = none) :
    getProperty invoke index (a.withOperands [obj]) = pushProperty invoke obj (a.nameAt index) a := by
  have hname : nameText index (a.withOperands [obj]) = .ok (a.nameAt index) (a.withOperands [obj]) :=
    nameText_of_static hstatic
  have hget : (get : FrameM Activation) a = .ok a a := rfl
  rw [getProperty, bind_of_ok hname, bind_of_ok (pop_withOperands a obj []), a.withOperands_nil,
    bind_of_ok hget, hgetter]
  rfl

theorem findPropStrict_of_owns (howns : (a.source (a.nameAt index)).owns (a.nameAt index) = true) :
    findPropStrict index a = push (a.holder (a.nameAt index)) a := by
  rw [findPropStrict, bind_of_ok (nameText_of_static hstatic), bind_of_ok (findScope?_apply _ a)]
  unfold Activation.source at howns
  unfold Activation.holder at howns ⊢
  cases hscope : a.scopeOf? (a.nameAt index) with
  | some scope => rfl
  | none =>
    rw [hscope] at howns
    change (if _ then _ else _ : FrameM Unit) a = _
    exact congrFun (if_pos howns) a

theorem findPropStrict_of_missing
    (howns : (a.source (a.nameAt index)).owns (a.nameAt index) = false) :
    findPropStrict index a = pushFresh .undefined a := by
  have hnone := Activation.scopeOf?_of_missing howns
  rw [findPropStrict, bind_of_ok (nameText_of_static hstatic), bind_of_ok (findScope?_apply _ a), hnone]
  rw [Activation.source, Activation.holder, hnone] at howns
  change (if _ then _ else _ : FrameM Unit) a = _
  exact congrFun (if_neg (Bool.eq_false_iff.mp howns)) a

theorem findPropStrict_ne_ok (hfull : a.frame.stackLimit ≤ a.frame.stack.length) :
    findPropStrict index a ≠ .ok () b := by
  cases howns : (a.source (a.nameAt index)).owns (a.nameAt index) with
  | true =>
    rw [findPropStrict_of_owns hstatic howns, push_of_full hfull]
    exact nofun
  | false =>
    rw [findPropStrict_of_missing hstatic howns]
    exact push_ne_ok (fun _ _ => frame_of_onStore) hfull

theorem getLex_of_global (hnone : a.scopeOf? (a.nameAt index) = none) :
    getLex invoke index a = pushProperty invoke a.machine.global (a.nameAt index) a := by
  rw [getLex, bind_of_ok (nameText_of_static hstatic), bind_of_ok (findScope?_apply _ a), hnone]
  rfl

/-- What is read from a scope captures the receiver before it is pushed. -/
theorem getLex_of_scope (hscope : a.scopeOf? (a.nameAt index) = some scope)
    (hfound : onStore (StoreM.property? scope (a.nameAt index)) a = .ok (some r) b)
    (hthis : receiver b = .ok this b) (hcapture : onStore (capture r this) b = .ok () c) :
    getLex invoke index a = (callOut [scope] (MachineM.resolve invoke scope (a.nameAt index) r) >>= push) c := by
  have hpure : (pure r : FrameM Ref) b = .ok r b := rfl
  rw [getLex, bind_of_ok (nameText_of_static hstatic), bind_of_ok (findScope?_apply _ a), hscope]
  dsimp only
  rw [bind_of_ok hfound]
  dsimp only
  rw [bind_of_ok hpure, bind_of_ok hthis, bind_of_ok hcapture]

theorem getLex_of_other (hthis : a.frame.locals[0]? = some this) (hscope : a.scopeOf? (a.nameAt index) = some scope)
    (hfound : onStore (StoreM.property? scope (a.nameAt index)) a = .ok (some r) b)
    (hother : (b.machine.store.value r).isFunction = false) :
    getLex invoke index a = pushProperty invoke scope (a.nameAt index) a := by
  have hreceiver := receiver_of_frame hthis (frame_of_onStore hfound)
  rw [getLex_of_scope hstatic hscope hfound hreceiver (onStore_capture_of_other hother this), pushProperty,
    bind_of_ok hfound]

theorem getLex_of_function (hthis : a.frame.locals[0]? = some this)
    (hscope : a.scopeOf? (a.nameAt index) = some scope)
    (hf : (a.machine.store.get scope).property? (a.nameAt index) = some (.stored f))
    (hv : a.machine.store.value f = .function callable bound) :
    getLex invoke index a = push f (a.withCapture callable f this) := by
  have hfound : onStore (StoreM.property? scope (a.nameAt index)) a = .ok (some f) a :=
    onStore_of_store (StoreM.property?_of_stored hf)
  have hdefined : ((a.withCapture callable f this).machine.store.value f).deferred? = none := by
    rw [Activation.value_withCapture hv]
    rfl
  rw [getLex_of_scope hstatic hscope hfound (receiver_of_frame hthis rfl) (onStore_capture hv this)]
  exact bind_of_ok (callOut_resolve hdefined [scope] invoke scope _)

theorem getLex_cases (invoke : Invoke) (hthis : a.frame.locals[0]? = some this)
    (hgetter : (a.source (a.nameAt index)).getters[a.nameAt index]? = none) :
    getLex invoke index a = pushProperty invoke (a.holder (a.nameAt index)) (a.nameAt index) a ∨
    ∃ scope f callable bound, a.scopeOf? (a.nameAt index) = some scope ∧
      (a.machine.store.get scope).property? (a.nameAt index) = some (.stored f) ∧
      a.machine.store.value f = .function callable bound ∧
      getLex invoke index a = push f (a.withCapture callable f this) := by
  unfold Activation.source at hgetter
  unfold Activation.holder at hgetter ⊢
  cases hscope : a.scopeOf? (a.nameAt index) with
  | none => exact .inl (getLex_of_global hstatic hscope)
  | some scope =>
    rw [hscope] at hgetter
    obtain ⟨p, hp⟩ := Object.property?_of_owns (Activation.owns_of_scopeOf? hscope) hgetter
    cases p with
    | length n =>
      have hfound := onStore_of_store (StoreM.property?_of_length hp)
      refine .inl (getLex_of_other hstatic hthis hscope hfound ?_)
      exact congrArg (fun o => o.value.isFunction) (a.get_next (.integer (Int32.ofNat n)))
    | stored f =>
      have hfound := onStore_of_store (StoreM.property?_of_stored hp)
      cases hv : a.machine.store.value f with
      | function callable bound =>
        exact .inr ⟨scope, f, callable, bound, rfl, hp, hv, getLex_of_function hstatic hthis hscope hp hv⟩
      | _ => exact .inl (getLex_of_other hstatic hthis hscope hfound (by rw [hv]; rfl))

theorem getLex_ne_ok (hthis : a.frame.locals[0]? = some this)
    (hgetter : (a.source (a.nameAt index)).getters[a.nameAt index]? = none)
    (hfull : a.frame.stackLimit ≤ a.frame.stack.length) : getLex invoke index a ≠ .ok () b := by
  obtain hsame | ⟨scope, f, callable, bound, -, -, -, hcapture⟩ := getLex_cases hstatic invoke hthis hgetter
  · rw [hsame]
    exact pushProperty_ne_ok hfull
  · rw [hcapture, push_of_full (a := a.withCapture callable f this) hfull]
    exact nofun

theorem readsAlike_of_owns (invoke : Invoke) (hthis : a.frame.locals[0]? = some this)
    (hgetter : (a.source (a.nameAt index)).getters[a.nameAt index]? = none)
    (hroom : a.frame.stack.length < a.frame.stackLimit)
    (howns : (a.source (a.nameAt index)).owns (a.nameAt index) = true) :
    ReadsAlike a (a.nameAt index) this (getLex invoke index a)
      ((findPropStrict index >>= fun _ => getProperty invoke index) a) := by
  have hfind := (findPropStrict_of_owns hstatic howns).trans (push_of_room hroom _)
  rw [bind_of_ok hfind, getProperty_withOperands hstatic hgetter]
  obtain hsame | ⟨scope, f, callable, bound, hscope, hf, hv, hcapture⟩ := getLex_cases hstatic invoke hthis hgetter
  · rw [hsame]
    exact .same
  · have hholder : a.holder (a.nameAt index) = scope := by
      rw [Activation.holder, hscope]
      rfl
    have hdefined : (a.machine.store.value f).deferred? = none := by
      rw [hv]
      rfl
    rw [hcapture, push_of_room (a := a.withCapture callable f this) hroom, hholder,
      pushProperty_of_stored hf hdefined, push_of_room hroom]
    exact .captured hscope hf hv

theorem readsAlike_of_missing (invoke : Invoke) (hroom : a.frame.stack.length < a.frame.stackLimit)
    (howns : (a.source (a.nameAt index)).owns (a.nameAt index) = false) :
    ReadsAlike a (a.nameAt index) this (getLex invoke index a)
      ((findPropStrict index >>= fun _ => getProperty invoke index) a) := by
  have hfind := (findPropStrict_of_missing hstatic howns).trans (pushFresh_of_room hroom .undefined)
  have hnone := Activation.scopeOf?_of_missing howns
  have hproperty : (a.machine.store.get a.machine.global).property? (a.nameAt index) = none := by
    rw [Activation.source, Activation.holder, hnone, Object.owns, Bool.or_eq_false_iff] at howns
    simpa [Object.hasProperty] using howns.1
  -- the object that stands for the missing holder has neither a getter nor a property
  have hnew := a.get_next .undefined
  have hgetter : ((a.withNew .undefined).machine.store.get a.next).getters[a.nameAt index]? = none := by
    rw [hnew]
    rfl
  have hempty : ((a.withNew .undefined).machine.store.get a.next).property? (a.nameAt index) = none := by
    rw [hnew]
    rfl
  have hget : getProperty invoke index ((a.withNew .undefined).withOperands [a.next]) =
      .ok () (((a.withNew .undefined).withNew .undefined).withOperands [(a.withNew .undefined).next]) := by
    rw [getProperty_withOperands (a := a.withNew .undefined) hstatic hgetter, a.nameAt_withNew,
      pushProperty_of_none hempty, pushFresh_of_room (a := a.withNew .undefined) hroom]
  rw [bind_of_ok hfind, hget, getLex_of_global hstatic hnone, pushProperty_of_none hproperty, pushFresh_of_room hroom]
  exact .missing howns

end Static

/-- Reading a name at once is finding its holder and then reading the name from it, whatever methods do, if
the holder has no getter of the name. A frame has its receiver in the first local. Without room on the stack
for an operand neither completes. -/
theorem getLex_reads_holder (invoke : Invoke) (index : UInt32) (a : Activation) (this : Ref)
    (hstatic : a.machine.document.pool.runtimeParts index = 0) (hthis : a.frame.locals[0]? = some this)
    (hgetter : (a.source (a.nameAt index)).getters[a.nameAt index]? = none) :
    (a.frame.stack.length < a.frame.stackLimit →
      ReadsAlike a (a.nameAt index) this (getLex invoke index a)
        ((findPropStrict index >>= fun _ => getProperty invoke index) a)) ∧
    (a.frame.stackLimit ≤ a.frame.stack.length → ∀ b, getLex invoke index a ≠ .ok () b ∧
      (findPropStrict index >>= fun _ => getProperty invoke index) a ≠ .ok () b) := by
  constructor
  · intro hroom
    cases howns : (a.source (a.nameAt index)).owns (a.nameAt index) with
    | true => exact readsAlike_of_owns hstatic invoke hthis hgetter hroom howns
    | false => exact readsAlike_of_missing hstatic invoke hroom howns
  · intro hfull b
    refine ⟨getLex_ne_ok hstatic hthis hgetter hfull, ?_⟩
    intro h
    obtain ⟨_, b₁, hfind, -⟩ := bind_eq_ok.mp h
    exact findPropStrict_ne_ok hstatic hfull hfind

end FrameM

namespace Activation

def inScope (scope : Object) : Activation where
  machine :=
    { document := { pool := { strings := ["f"], multinames := [.qname 0 1 false] } }
      config := {}
      global := ⟨0⟩
      store := { objects := #[{}, scope, { value := .function (.host ⟨"receiver"⟩) }] } }
  frame := { method := 0, stack := [], stackLimit := 1, locals := [⟨0⟩], localLimit := 1, scopes := [⟨1⟩] }

def functionInScope : Activation :=
  inScope { properties := .ofList [("f", Ref.mk 2)] }

def getterInScope : Activation :=
  inScope { getters := .ofList [("f", Ref.mk 2)] }

end Activation

namespace FrameM

theorem getLex_reads_scope :
    ReadsAlike .functionInScope "f" ⟨0⟩ (getLex (fun _ this _ => pure this) 1 .functionInScope)
      ((findPropStrict 1 >>= fun _ => getProperty (fun _ this _ => pure this) 1) .functionInScope) :=
  (getLex_reads_holder _ 1 .functionInScope ⟨0⟩ (by decide) rfl (by decide)).1 (by decide)

/-- A getter is called for a name that is read from its holder, and not for one that is read at once. -/
theorem getLex_skips_getter :
    ∃ b c, getLex (fun _ this _ => pure this) 1 .getterInScope = .ok () b ∧
      (findPropStrict 1 >>= fun _ => getProperty (fun _ this _ => pure this) 1) .getterInScope = .ok () c ∧
      b.frame.stack.map b.machine.store.value = [.undefined] ∧ c.frame.stack = [⟨1⟩] :=
  ⟨_, _, rfl, rfl, rfl, rfl⟩

end FrameM

end ActionVm
