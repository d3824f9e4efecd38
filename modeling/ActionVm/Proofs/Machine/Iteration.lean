import ActionVm.Proofs.Machine.Lexical
import Mathlib.Data.String.Basic

namespace ActionVm

theorem Object.pairwise_propertyNames (o : Object) : o.propertyNames.Pairwise (· < ·) := by
  have h := o.properties.ordered_keys
  simp only [compare_lt_iff_lt] at h
  exact h

theorem Object.mem_propertyNames {o : Object} {name : String} : name ∈ o.propertyNames ↔ name ∈ o.properties :=
  Std.TreeMap.mem_keys

theorem Object.length_propertyNames (o : Object) : o.propertyNames.length = o.properties.size :=
  Std.TreeMap.length_keys

namespace Activation

def Holds (a : Activation) (index : UInt32) (v : Value) : Prop :=
  ∃ ref, a.frame.locals[index.toNat]? = some ref ∧ a.machine.store.value ref = v

@[simp] theorem frame_withNew (a : Activation) (v : Value) : (a.withNew v).frame = a.frame :=
  rfl

theorem properties_withNew (a : Activation) (v : Value) (r : Ref) :
    ((a.withNew v).machine.store.get r).properties = (a.machine.store.get r).properties := by
  simp only [withNew, Store.get, Store.alloc, Array.getD_eq_getD_getElem?, Array.getElem?_push]
  split
  · rename_i h
    rw [h, Array.getElem?_eq_none (Nat.le_refl _)]
    rfl
  · rfl

theorem value_withNew {a : Activation} (h : a.machine.store.value r ≠ .undefined) (v : Value) :
    (a.withNew v).machine.store.value r = a.machine.store.value r :=
  Store.value_alloc h _

theorem value_next (a : Activation) (v : Value) : (a.withNew v).machine.store.value a.next = v :=
  congrArg Object.value (a.get_next v)

theorem get_withLocal (a : Activation) (index : UInt32) (r other : Ref) :
    (a.withLocal index r).machine.store.get other = a.machine.store.get other := by
  unfold withLocal
  split
  · rfl
  · exact Store.get_allocUndefined ..

theorem getElem?_withLocal_self {a : Activation} {index : UInt32} (h : index.toNat < a.frame.localLimit)
    (r : Ref) : (a.withLocal index r).frame.locals[index.toNat]? = some r := by
  rw [withLocal, if_neg (Nat.not_le_of_lt h)]
  dsimp only
  rw [List.getElem?_set_self]
  simp only [Store.allocUndefined, List.length_append, List.length_map, List.length_range']
  omega

@[simp] theorem localLimit_withLocal (a : Activation) (index : UInt32) (r : Ref) :
    (a.withLocal index r).frame.localLimit = a.frame.localLimit := by
  unfold withLocal
  split <;> rfl

@[simp] theorem method_withLocal (a : Activation) (index : UInt32) (r : Ref) :
    (a.withLocal index r).frame.method = a.frame.method := by
  unfold withLocal
  split <;> rfl

theorem Holds.withNew {a : Activation} (h : a.Holds index v) (hv : v ≠ .undefined) (w : Value) :
    (a.withNew w).Holds index v := by
  obtain ⟨ref, hlocal, rfl⟩ := h
  exact ⟨ref, hlocal, value_withNew hv w⟩

theorem holds_withLocal {a : Activation} {index : UInt32} (h : index.toNat < a.frame.localLimit)
    (hv : a.machine.store.value r = v) : (a.withLocal index r).Holds index v := by
  refine ⟨r, getElem?_withLocal_self h r, ?_⟩
  rw [Store.value, get_withLocal]
  exact hv

theorem Holds.withLocal {a : Activation} (h : a.Holds index v) (hne : index ≠ other) (r : Ref) :
    (a.withLocal other r).Holds index v := by
  obtain ⟨ref, hlocal, hv⟩ := h
  refine ⟨ref, getElem?_withLocal_of_ne hlocal hne, ?_⟩
  rw [Store.value, get_withLocal]
  exact hv

end Activation

namespace FrameM

theorem value_of_store {a : Activation} (h : a.machine.store.value r = v) : value r a = .ok v a := by
  rw [← h]
  rfl

section HasNext

variable {a : Activation} {obj ref : Ref} {r k : UInt32} {i : Int32}
  (hobj : a.frame.locals[r.toNat]? = some obj) (href : a.frame.locals[k.toNat]? = some ref)
  (hvalue : a.machine.store.value ref = .integer i)

include hobj href hvalue

theorem hasNext_apply :
    hasNext r k a = (if 0 ≤ i.toInt ∧ i.toInt < (a.machine.store.get obj).properties.size then do
        setLocal k (← fresh (.integer (i + 1)))
        pushFresh (.boolean true)
      else do
        setLocal r (← fresh .null)
        setLocal k (← fresh (.integer 0))
        pushFresh (.boolean false) : FrameM Unit) a := by
  have hget : (get : FrameM Activation) a = .ok a a := rfl
  rw [hasNext, bind_of_ok (getLocal_of_some hobj), bind_of_ok (getLocal_of_some href),
    bind_of_ok (value_of_store hvalue), bind_of_ok hget]
  rfl

theorem hasNext_of_more (h : 0 ≤ i.toInt ∧ i.toInt < (a.machine.store.get obj).properties.size) :
    hasNext r k a = pushFresh (.boolean true) ((a.withNew (.integer (i + 1))).withLocal k a.next) := by
  have hfresh : fresh (.integer (i + 1)) a = .ok a.next (a.withNew (.integer (i + 1))) := rfl
  rw [hasNext_apply hobj href hvalue, if_pos h, bind_of_ok hfresh, bind_of_ok (setLocal_apply ..)]

theorem hasNext_of_end (h : ¬(0 ≤ i.toInt ∧ i.toInt < (a.machine.store.get obj).properties.size)) :
    hasNext r k a = pushFresh (.boolean false)
      ((((a.withNew .null).withLocal r a.next).withNew (.integer 0)).withLocal k
        ((a.withNew .null).withLocal r a.next).next) := by
  have hnull : fresh .null a = .ok a.next (a.withNew .null) := rfl
  have hzero (b : Activation) : fresh (.integer 0) b = .ok b.next (b.withNew (.integer 0)) := rfl
  rw [hasNext_apply hobj href hvalue, if_neg h, bind_of_ok hnull, bind_of_ok (setLocal_apply ..),
    bind_of_ok (hzero _), bind_of_ok (setLocal_apply ..)]

end HasNext

theorem nextName_withOperands {a : Activation} {position : Int32}
    (hvalue : a.machine.store.value ref = .integer position) (hone : 1 ≤ (Value.integer position).toInt.toInt)
    (hname : (a.machine.store.get obj).propertyNames[(Value.integer position).toInt.toInt.toNat - 1]? =
      some name) :
    nextName (a.withOperands [ref, obj]) = pushFresh (.text name) a := by
  have hpair : popPair (a.withOperands [ref, obj]) = .ok (obj, ref) a := rfl
  have hget : (get : FrameM Activation) a = .ok a a := rfl
  rw [nextName, bind_of_ok hpair]
  dsimp only
  rw [bind_of_ok (value_of_store hvalue), bind_of_ok hget, if_pos hone, hname]

def fetch (obj : Ref) (k : UInt32) : FrameM Value := do
  push obj
  push (← getLocal k)
  nextName
  value (← pop)

/-- One round of a loop over the names of an object: the answer whether there is a name, and the name. -/
def round (obj : Ref) (r k : UInt32) : FrameM (Value × Option Value) := do
  hasNext r k
  let answer ← value (← pop)
  if answer = .boolean true then
    return (answer, some (← fetch obj k))
  else
    return (answer, none)

section Round

variable {a b : Activation} {r k : UInt32}

theorem round_of_answer {answer : Value} (h : hasNext r k a = pushFresh answer b)
    (hroom : b.frame.stack.length < b.frame.stackLimit) (obj : Ref) :
    round obj r k a = (if answer = .boolean true then do
        return (answer, some (← fetch obj k))
      else
        return (answer, none) : FrameM (Value × Option Value)) (b.withNew answer) := by
  have hpop : pop ((b.withNew answer).withOperands [b.next]) = .ok b.next (b.withNew answer) := rfl
  have hvalue := value_of_store (b.value_next answer)
  rw [round, bind_of_ok (h.trans (pushFresh_of_room hroom answer)), bind_of_ok hpop, bind_of_ok hvalue]

theorem round_of_full {answer : Value} (h : hasNext r k a = pushFresh answer b)
    (hstack : b.frame.stack = a.frame.stack) (hlimit : b.frame.stackLimit = a.frame.stackLimit)
    (hmethod : b.frame.method = a.frame.method) (hfull : a.frame.stackLimit ≤ a.frame.stack.length) (obj : Ref) :
    round obj r k a =
      .error (.fault (.overflow a.frame.method a.frame.stackLimit)) (b.withNew answer) := by
  have hfresh : fresh answer b = .ok b.next (b.withNew answer) := rfl
  have hpush : pushFresh answer b =
      .error (.fault (.overflow b.frame.method b.frame.stackLimit)) (b.withNew answer) := by
    rw [← hstack, ← hlimit] at hfull
    rw [pushFresh, bind_of_ok hfresh]
    exact push_of_full (a := b.withNew answer) hfull b.next
  rw [hmethod, hlimit] at hpush
  rw [round, bind_of_error (h.trans hpush)]

end Round

end FrameM

/-- A loop over the names of an object, in which something is done between the rounds: the names that it
meets, up to the round that has none. -/
inductive Iterates (obj : Ref) (r k : UInt32) (between : Activation → Activation) :
    Activation → List String → Activation → Prop where
  | next (h : FrameM.round obj r k a = .ok (.boolean true, some (.text name)) b)
    (rest : Iterates obj r k between (between b) names c) : Iterates obj r k between a (name :: names) c
  | last (h : FrameM.round obj r k a = .ok (.boolean false, none) b) : Iterates obj r k between a [] b

/-- What is done between two rounds leaves the object's names, the two locals and the operands alone. -/
structure Undisturbed (obj : Ref) (r k : UInt32) (a b : Activation) : Prop where
  names : (b.machine.store.get obj).propertyNames = (a.machine.store.get obj).propertyNames
  object : b.frame.locals[r.toNat]? = a.frame.locals[r.toNat]?
  cursor : ∀ v, a.Holds k v → b.Holds k v
  stack : b.frame.stack = a.frame.stack
  stackLimit : b.frame.stackLimit = a.frame.stackLimit
  localLimit : b.frame.localLimit = a.frame.localLimit

/-- A loop has fetched the first `i` names of an object. -/
structure Fetched (obj : Ref) (r k : UInt32) (names : List String) (i : Nat) (a : Activation) : Prop where
  names : (a.machine.store.get obj).propertyNames = names
  object : a.frame.locals[r.toNat]? = some obj
  cursor : a.Holds k (.integer (Int32.ofNat i))
  inRange : r.toNat < a.frame.localLimit ∧ k.toNat < a.frame.localLimit

namespace Fetched

variable {obj : Ref} {r k : UInt32} {names : List String} {i : Nat} {a b : Activation}

theorem undisturbed (h : Fetched obj r k names i a) (hb : Undisturbed obj r k a b) :
    Fetched obj r k names i b where
  names := hb.names.trans h.names
  object := hb.object.trans h.object
  cursor := hb.cursor _ h.cursor
  inRange := by
    rw [hb.localLimit]
    exact h.inRange

theorem withNew (h : Fetched obj r k names i a) (v : Value) : Fetched obj r k names i (a.withNew v) where
  names := by
    rw [← h.names]
    exact congrArg Std.TreeMap.keys (a.properties_withNew v obj)
  object := h.object
  cursor := h.cursor.withNew (by simp) v
  inRange := h.inRange

theorem advance (h : Fetched obj r k names i a) (hne : r ≠ k) :
    Fetched obj r k names (i + 1) ((a.withNew (.integer (Int32.ofNat i + 1))).withLocal k a.next) where
  names := by
    rw [Activation.get_withLocal]
    exact (h.withNew _).names
  object := Activation.getElem?_withLocal_of_ne (h.withNew _).object hne
  cursor := by
    apply Activation.holds_withLocal (h.withNew _).inRange.2
    rw [Int32.ofNat_add]
    exact a.value_next _
  inRange := by
    rw [Activation.localLimit_withLocal]
    exact h.inRange

theorem hasNext_of_more (h : Fetched obj r k names i a) (hi : i < names.length)
    (hlength : names.length < 2 ^ 31) :
    FrameM.hasNext r k a = FrameM.pushFresh (.boolean true)
      ((a.withNew (.integer (Int32.ofNat i + 1))).withLocal k a.next) := by
  obtain ⟨ref, href, hvalue⟩ := h.cursor
  apply FrameM.hasNext_of_more h.object href hvalue
  rw [Int32.toInt_ofNat_of_lt (Nat.lt_trans hi hlength), ← Object.length_propertyNames, h.names]
  omega

theorem fetch_apply (h : Fetched obj r k names (i + 1) a) (hi : i < names.length)
    (hlength : names.length < 2 ^ 31) (hroom : a.frame.stack.length + 2 ≤ a.frame.stackLimit) :
    FrameM.fetch obj k a = .ok (.text names[i]) (a.withNew (.text names[i])) := by
  obtain ⟨ref, href, hvalue⟩ := h.cursor
  have hposition : (Int32.ofNat (i + 1)).toInt = i + 1 := Int32.toInt_ofNat_of_lt (by omega)
  have hname : FrameM.nextName (a.withOperands [ref, obj]) = FrameM.pushFresh (.text names[i]) a := by
    apply FrameM.nextName_withOperands hvalue
    · rw [Value.toInt, hposition]
      omega
    · rw [Value.toInt, hposition, h.names]
      exact List.getElem?_eq_getElem hi
  have hpush := FrameM.push_of_room (a := a) (by omega) obj
  have hlocal : FrameM.getLocal k (a.withOperands [obj]) = .ok ref (a.withOperands [obj]) :=
    FrameM.getLocal_of_some href
  have hpush' : FrameM.push ref (a.withOperands [obj]) = .ok () (a.withOperands [ref, obj]) := by
    apply FrameM.push_of_room
    change a.frame.stack.length + 1 < a.frame.stackLimit
    omega
  have hpop := FrameM.pop_withOperands (a.withNew (.text names[i])) a.next []
  rw [FrameM.fetch, bind_of_ok hpush, bind_of_ok hlocal, bind_of_ok hpush',
    bind_of_ok (hname.trans (FrameM.pushFresh_of_room (by omega) _)), bind_of_ok hpop]
  exact FrameM.value_of_store (a.value_next _)

theorem round_of_more (h : Fetched obj r k names i a) (hne : r ≠ k) (hi : i < names.length)
    (hlength : names.length < 2 ^ 31) (hroom : a.frame.stack.length + 2 ≤ a.frame.stackLimit) :
    ∃ b, FrameM.round obj r k a = .ok (.boolean true, some (.text names[i])) b ∧
      Fetched obj r k names (i + 1) b ∧ b.frame.stack = a.frame.stack ∧
      b.frame.stackLimit = a.frame.stackLimit := by
  have hnext := h.advance hne
  have hhas := h.hasNext_of_more hi hlength
  generalize hb : (a.withNew (.integer (Int32.ofNat i + 1))).withLocal k a.next = b at hnext hhas
  have hstack : b.frame.stack = a.frame.stack := by simp [← hb]
  have hlimit : b.frame.stackLimit = a.frame.stackLimit := by simp [← hb]
  rw [← hstack, ← hlimit] at hroom
  have hfetch := (hnext.withNew (.boolean true)).fetch_apply hi hlength hroom
  refine ⟨_, ?_, (hnext.withNew (.boolean true)).withNew (.text names[i]), hstack, hlimit⟩
  rw [FrameM.round_of_answer hhas (by omega), if_pos rfl, bind_of_ok hfetch]
  rfl

theorem hasNext_of_end (h : Fetched obj r k names names.length a) (hlength : names.length < 2 ^ 31) :
    FrameM.hasNext r k a = FrameM.pushFresh (.boolean false)
      ((((a.withNew .null).withLocal r a.next).withNew (.integer 0)).withLocal k
        ((a.withNew .null).withLocal r a.next).next) := by
  obtain ⟨ref, href, hvalue⟩ := h.cursor
  apply FrameM.hasNext_of_end h.object href hvalue
  rw [Int32.toInt_ofNat_of_lt hlength, ← Object.length_propertyNames, h.names]
  omega

theorem round_of_end (h : Fetched obj r k names names.length a) (hne : r ≠ k) (hlength : names.length < 2 ^ 31)
    (hroom : a.frame.stack.length < a.frame.stackLimit) :
    ∃ b, FrameM.round obj r k a = .ok (.boolean false, none) b ∧ b.Holds r .null ∧ b.Holds k (.integer 0) ∧
      b.frame.stack = a.frame.stack := by
  have hhas := h.hasNext_of_end hlength
  have hnull : ((a.withNew .null).withLocal r a.next).Holds r .null :=
    Activation.holds_withLocal (h.withNew _).inRange.1 (a.value_next _)
  generalize hb : (a.withNew .null).withLocal r a.next = b at hhas hnull
  have hstack : b.frame.stack = a.frame.stack := by simp [← hb]
  have hlimit : b.frame.stackLimit = a.frame.stackLimit := by simp [← hb]
  have hinRange : k.toNat < b.frame.localLimit := by
    simpa [← hb] using h.inRange.2
  have hzero : ((b.withNew (.integer 0)).withLocal k b.next).Holds k (.integer 0) :=
    Activation.holds_withLocal hinRange (b.value_next _)
  have hnull' := (hnull.withNew (by simp) (.integer 0)).withLocal hne b.next
  refine ⟨_, ?_, hnull'.withNew (by simp) (.boolean false), hzero.withNew (by simp) (.boolean false), ?_⟩
  · rw [FrameM.round_of_answer hhas]
    · rfl
    · simpa [hstack, hlimit] using hroom
  · simpa using hstack

theorem iterates (h : Fetched obj r k names i a) (hne : r ≠ k) (hi : i ≤ names.length)
    (hlength : names.length < 2 ^ 31) (hroom : a.frame.stack.length + 2 ≤ a.frame.stackLimit)
    {between : Activation → Activation} (hbetween : ∀ b, Undisturbed obj r k b (between b)) :
    ∃ b, Iterates obj r k between a (names.drop i) b ∧ b.Holds r .null ∧ b.Holds k (.integer 0) ∧
      b.frame.stack = a.frame.stack := by
  induction hn : names.length - i generalizing i a with
  | zero =>
    obtain rfl : i = names.length := by omega
    obtain ⟨b, hround, hnull, hzero, hstack⟩ := h.round_of_end hne hlength (by omega)
    rw [List.drop_length]
    exact ⟨b, .last hround, hnull, hzero, hstack⟩
  | succ n ih =>
    have hlt : i < names.length := by omega
    obtain ⟨b, hround, hfetched, hstack, hlimit⟩ := h.round_of_more hne hlt hlength hroom
    have hkept := hbetween b
    obtain ⟨c, hrest, hnull, hzero, hstack'⟩ := ih (hfetched.undisturbed hkept) hlt
      (by rw [hkept.stack, hkept.stackLimit, hstack, hlimit]; exact hroom) (by omega)
    rw [List.drop_eq_getElem_cons hlt]
    exact ⟨c, .next hround hrest, hnull, hzero, hstack'.trans (hkept.stack.trans hstack)⟩

theorem fetch_of_tight (h : Fetched obj r k names i a) (htight : a.frame.stack.length + 1 = a.frame.stackLimit) :
    FrameM.fetch obj k a =
      .error (.fault (.overflow a.frame.method a.frame.stackLimit)) (a.withOperands [obj]) := by
  obtain ⟨ref, href, -⟩ := h.cursor
  have hpush := FrameM.push_of_room (a := a) (by omega) obj
  have hlocal : FrameM.getLocal k (a.withOperands [obj]) = .ok ref (a.withOperands [obj]) :=
    FrameM.getLocal_of_some href
  have hfull := FrameM.push_of_full (a := a.withOperands [obj]) (Nat.le_of_eq htight.symm) ref
  rw [FrameM.fetch, bind_of_ok hpush, bind_of_ok hlocal, bind_of_error hfull]
  rfl

theorem round_of_lack (h : Fetched obj r k names i a) (hne : r ≠ k) (hi : i ≤ names.length)
    (hlength : names.length < 2 ^ 31)
    (hlack : a.frame.stackLimit < a.frame.stack.length + if i = names.length then 1 else 2) :
    ∃ b, FrameM.round obj r k a = .error (.fault (.overflow a.frame.method a.frame.stackLimit)) b := by
  rcases Nat.eq_or_lt_of_le hi with rfl | hlt
  · rw [if_pos rfl] at hlack
    have hfull : a.frame.stackLimit ≤ a.frame.stack.length := by omega
    exact ⟨_, FrameM.round_of_full (h.hasNext_of_end hlength) (by simp) (by simp) (by simp) hfull obj⟩
  · rw [if_neg (Nat.ne_of_lt hlt)] at hlack
    have hhas := h.hasNext_of_more hlt hlength
    rcases Nat.lt_or_ge a.frame.stack.length a.frame.stackLimit with hroom | hfull
    · have hfetch := ((h.advance hne).withNew (.boolean true)).fetch_of_tight (by simp; omega)
      simp only [Activation.frame_withNew, Activation.method_withLocal, Activation.stackLimit_withLocal] at hfetch
      have hround := FrameM.round_of_answer hhas (by simpa using hroom) obj
      rw [if_pos rfl, bind_of_error hfetch] at hround
      exact ⟨_, hround⟩
    · exact ⟨_, FrameM.round_of_full hhas (by simp) (by simp) (by simp) hfull obj⟩

end Fetched

def Object.loopOperands (o : Object) : Nat :=
  if o.properties.size = 0 then 1 else 2

/-- A loop over the names of an object meets each of them once, in ascending order, and then resets its
locals, whatever is done in between. Without room for its operands it ends in an overflow. -/
theorem loop_visits_every_name {a : Activation} {obj : Ref} {r k : UInt32} (hne : r ≠ k)
    (hobj : a.frame.locals[r.toNat]? = some obj) (hcursor : a.Holds k (.integer 0))
    (hr : r.toNat < a.frame.localLimit) (hk : k.toNat < a.frame.localLimit)
    (hsize : (a.machine.store.get obj).properties.size < 2 ^ 31) (between : Activation → Activation)
    (hbetween : ∀ b, Undisturbed obj r k b (between b)) :
    let o := a.machine.store.get obj
    o.propertyNames.length = o.properties.size ∧ o.propertyNames.Pairwise (· < ·) ∧
    (∀ name, name ∈ o.propertyNames ↔ name ∈ o.properties) ∧
    (a.frame.stack.length + o.loopOperands ≤ a.frame.stackLimit →
      ∃ b, Iterates obj r k between a o.propertyNames b ∧ b.Holds r .null ∧ b.Holds k (.integer 0) ∧
        b.frame.stack = a.frame.stack) ∧
    (a.frame.stackLimit < a.frame.stack.length + o.loopOperands →
      ∃ b, FrameM.round obj r k a = .error (.fault (.overflow a.frame.method a.frame.stackLimit)) b) := by
  intro o
  have hlength := o.length_propertyNames
  have hfetched : Fetched obj r k o.propertyNames 0 a := ⟨rfl, hobj, hcursor, hr, hk⟩
  have hsmall : o.propertyNames.length < 2 ^ 31 := by rwa [hlength]
  refine ⟨hlength, o.pairwise_propertyNames, fun name => Object.mem_propertyNames, ?_, ?_⟩
  · intro hroom
    by_cases hempty : o.properties.size = 0
    · rw [Object.loopOperands, if_pos hempty] at hroom
      have hnil : o.propertyNames = [] := List.eq_nil_of_length_eq_zero (hlength.trans hempty)
      rw [hnil] at hfetched ⊢
      obtain ⟨b, hround, hreset⟩ := hfetched.round_of_end hne (by simp) hroom
      exact ⟨b, .last hround, hreset⟩
    · rw [Object.loopOperands, if_neg hempty] at hroom
      exact hfetched.iterates hne (Nat.zero_le _) hsmall hroom hbetween
  · intro hlack
    apply hfetched.round_of_lack hne (Nat.zero_le _) hsmall
    simpa only [Object.loopOperands, ← hlength, eq_comm] using hlack

namespace Activation

def loop : Activation where
  machine :=
    { document := {}
      config := {}
      global := ⟨0⟩
      store := { objects := #[{}, { properties := .ofList [("b", Ref.mk 0), ("a", Ref.mk 0)] },
        { value := .integer 0 }] } }
  frame := { method := 0, stackLimit := 2, locals := [⟨0⟩, ⟨1⟩, ⟨2⟩], localLimit := 3 }

def writeLine (a : Activation) : Activation :=
  { a with machine := { a.machine with output := a.machine.output ++ "\n" } }

end Activation

theorem loop_visits_two_names :
    ∃ b, Iterates ⟨1⟩ 1 2 .writeLine .loop ["a", "b"] b ∧ b.Holds 1 .null ∧ b.Holds 2 (.integer 0) ∧
      b.frame.stack = [] := by
  have hwrite (b : Activation) : Undisturbed ⟨1⟩ 1 2 b b.writeLine := ⟨rfl, rfl, fun _ h => h, rfl, rfl, rfl⟩
  obtain ⟨-, -, -, hiterates, -⟩ := loop_visits_every_name (a := .loop) (r := 1) (k := 2) (by decide) rfl
    ⟨⟨2⟩, rfl, rfl⟩ (by decide) (by decide) (by decide) .writeLine hwrite
  exact hiterates (by decide)

end ActionVm
