import ActionVm.Proofs.Machine.Lexical
import ActionVm.Proofs.Machine.Policy

namespace ActionVm

def Machine.isPlaceholder (m : Machine) (r : Ref) : Bool :=
  (m.store.value r).deferred?.isSome

/-- The name is bound to a placeholder that stands for a script. -/
structure Machine.Defers (m : Machine) (holder : Ref) (name : String) (r : Ref) (init : UInt32) : Prop where
  stored : (m.store.get holder).property? name = some (.stored r)
  deferred : (m.store.value r).deferred? = some init

namespace MachineM

def defining (invoke : Invoke) (holder : Ref) (name : String) (r : Ref) (init : UInt32) : MachineM Ref := do
  holding [holder, r] (define invoke init)
  definedValue holder name

theorem resolve_of_deferred {m : Machine} (h : (m.store.value r).deferred? = some init) (invoke : Invoke)
    (holder : Ref) (name : String) : resolve invoke holder name r m = defining invoke holder name r init m := by
  have hvalue : value r m = .ok (m.store.value r) m := rfl
  rw [resolve, bind_of_ok hvalue, h]
  rfl

theorem isPlaceholder_fresh {v : Value} (h : v.deferred? = none) (m : Machine) :
    ∃ r n, fresh v m = .ok r n ∧ n.store.value r = v ∧ n.isPlaceholder r = false := by
  have hvalue : (m.store.alloc { value := v }).2.value ⟨m.store.objects.size⟩ = v := by
    rw [Store.value_push, if_pos rfl]
  refine ⟨⟨m.store.objects.size⟩, { m with store := (m.store.alloc { value := v }).2 }, rfl, hvalue, ?_⟩
  rw [Machine.isPlaceholder, hvalue, h]
  rfl

theorem definedValue_of_found {m n : Machine} (h : onStore (StoreM.property? holder name) m = .ok (some r) n) :
    definedValue holder name m = (if n.isPlaceholder r then fresh .undefined else pure r : MachineM Ref) n := by
  rw [definedValue, bind_of_ok h]
  rfl

/-- There always is something to give, and it never is a placeholder: what the name is bound to by now, if that is
none, and a new object if it is. -/
theorem definedValue_apply (holder : Ref) (name : String) (m : Machine) :
    ∃ v n, definedValue holder name m = .ok v n ∧ n.isPlaceholder v = false ∧
      ∀ r, (m.store.get holder).property? name = some (.stored r) →
        if m.isPlaceholder r then n.store.value v = .undefined else v = r ∧ n = m := by
  cases hp : (m.store.get holder).property? name with
  | none =>
    have hfound : onStore (StoreM.property? holder name) m = .ok none m := onStore_of_store (StoreM.property?_of_none hp)
    obtain ⟨v, n, hv, -, hdefined⟩ := isPlaceholder_fresh (v := .undefined) rfl m
    refine ⟨v, n, (bind_of_ok hfound).trans hv, hdefined, ?_⟩
    rintro _ ⟨⟩
  | some property =>
    cases property with
    | length count =>
      let made : Machine := { m with store := (m.store.alloc { value := .integer (Int32.ofNat count) }).2 }
      have hfound : onStore (StoreM.property? holder name) m = .ok (some ⟨m.store.objects.size⟩) made :=
        onStore_of_store (StoreM.property?_of_length hp)
      have hdefined : made.isPlaceholder ⟨m.store.objects.size⟩ = false := by
        rw [Machine.isPlaceholder, Store.value_push, if_pos rfl]
        rfl
      refine ⟨⟨m.store.objects.size⟩, made, ?_, hdefined, ?_⟩
      · rw [definedValue_of_found hfound, hdefined]
        rfl
      · rintro _ ⟨⟩
    | stored r =>
      have hfound : onStore (StoreM.property? holder name) m = .ok (some r) m :=
        onStore_of_store (StoreM.property?_of_stored hp)
      rw [definedValue_of_found hfound]
      cases hr : m.isPlaceholder r with
      | true =>
        obtain ⟨v, n, hv, hvalue, hdefined⟩ := isPlaceholder_fresh (v := .undefined) rfl m
        refine ⟨v, n, hv, hdefined, ?_⟩
        rintro _ ⟨⟩
        simpa only [hr, if_true] using hvalue
      | false =>
        refine ⟨r, m, rfl, hr, ?_⟩
        rintro _ ⟨⟩
        simp [hr]

end MachineM

namespace FrameM

theorem callOut_resolve_of_deferred {a : Activation} (h : (a.machine.store.value r).deferred? = some init)
    (refs : List Ref) (invoke : Invoke) (holder : Ref) (name : String) :
    callOut refs (MachineM.resolve invoke holder name r) a =
      callOut refs (MachineM.defining invoke holder name r init) a := by
  have hheld := MachineM.resolve_of_deferred
    (m := { a.machine with held := a.frame.references ++ refs ++ a.machine.held }) h invoke holder name
  simp only [callOut, MachineM.holding, hheld]

theorem onStore_of_defers {a : Activation} (h : a.machine.Defers obj name r init) :
    onStore (StoreM.property? obj name) a = .ok (some r) a :=
  onStore_of_store (StoreM.property?_of_stored h.stored)

theorem getProperty_of_defers {a b c : Activation} (hname : nameText index a = .ok name b) (hobj : pop b = .ok obj c)
    (hgetter : (c.machine.store.get obj).getters[name]? = none) (h : c.machine.Defers obj name r init) (invoke : Invoke) :
    getProperty invoke index a = (callOut [obj] (MachineM.defining invoke obj name r init) >>= push) c := by
  have hget : (get : FrameM Activation) c = .ok c c := rfl
  rw [getProperty, bind_of_ok hname, bind_of_ok hobj, bind_of_ok hget, hgetter]
  dsimp only
  rw [bind_of_ok (onStore_of_defers h)]
  exact bind_congr_left (callOut_resolve_of_deferred h.deferred [obj] invoke obj name)

theorem getLex_of_defers {a b : Activation} (hname : nameText index a = .ok name b)
    (hthis : b.frame.locals[0]? = some this) (h : b.machine.Defers (b.holder name) name r init) (invoke : Invoke) :
    getLex invoke index a =
      (callOut [b.holder name] (MachineM.defining invoke (b.holder name) name r init) >>= push) b := by
  rw [getLex, bind_of_ok hname, bind_of_ok (findScope?_apply _ b)]
  unfold Activation.holder at h ⊢
  cases hscope : b.scopeOf? name with
  | none =>
    rw [hscope, Option.getD_none] at h
    rw [Option.getD_none]
    have hglobal : global b = .ok b.machine.global b := rfl
    dsimp only
    rw [bind_of_ok hglobal, bind_of_ok (onStore_of_defers h)]
    exact bind_congr_left (callOut_resolve_of_deferred h.deferred _ invoke _ name)
  | some scope =>
    rw [hscope, Option.getD_some] at h
    rw [Option.getD_some]
    have hpure : (pure r : FrameM Ref) b = .ok r b := rfl
    have hother : (b.machine.store.value r).isFunction = false := by
      have hdeferred := h.deferred
      cases hv : b.machine.store.value r with
      | function callable receiver =>
        rw [hv] at hdeferred
        cases hdeferred
      | _ => rfl
    dsimp only
    rw [bind_of_ok (onStore_of_defers h)]
    dsimp only
    rw [bind_of_ok hpure, bind_of_ok (receiver_of_frame hthis rfl), bind_of_ok (onStore_capture_of_other hother this)]
    exact bind_congr_left (callOut_resolve_of_deferred h.deferred _ invoke _ name)

theorem constructProp_of_defers {a b c d : Activation} (hargs : popN argc.toNat a = .ok args b)
    (hname : nameText index b = .ok name c) (hobj : pop c = .ok obj d) (h : d.machine.Defers obj name r init)
    (invoke : Invoke) :
    constructProp invoke index argc a =
      (do
        let _ ← callOut (obj :: args) (MachineM.defining invoke obj name r init)
        let base ← fresh .object
        push (← callOut (obj :: args) (invoke (.construction name) base args))) d := by
  rw [constructProp, bind_of_ok hargs, bind_of_ok hname, bind_of_ok hobj]
  have hbuild : instantiateNamed invoke obj name args d =
      (do
        let _ ← callOut (obj :: args) (MachineM.defining invoke obj name r init)
        let base ← fresh .object
        callOut (obj :: args) (invoke (.construction name) base args)) d := by
    rw [instantiateNamed, bind_of_ok (onStore_of_defers h)]
    exact bind_congr_left (callOut_resolve_of_deferred h.deferred _ invoke obj name)
  rw [bind_congr_left hbuild]
  simp only [bind_assoc]

/-- Nothing is called, and no script runs either. -/
theorem callFound_of_defers {a b c d : Activation} (hargs : popN argc.toNat a = .ok args b)
    (hname : nameText index b = .ok name c) (hobj : pop c = .ok obj d) (h : d.machine.Defers obj name r init)
    (invoke : Invoke) : callFound invoke argc (findNamed index) a = fresh .undefined d := by
  have hvalue : value r d = .ok (d.machine.store.value r) d := rfl
  have hfind : findNamed index args b = .ok none d := by
    rw [findNamed, bind_of_ok hname, bind_of_ok hobj, bind_of_ok (onStore_of_defers h)]
    dsimp only
    rw [bind_of_ok hvalue]
    have hdeferred := h.deferred
    cases hv : d.machine.store.value r with
    | deferred => rfl
    | _ =>
      rw [hv] at hdeferred
      cases hdeferred
  rw [callFound, bind_of_ok hargs, bind_of_ok hfind]
  rfl

end FrameM

end ActionVm
