import ActionVm.Machine.Action
import ActionVm.Proofs.Program

namespace ActionVm

namespace Activation

def withOperands (a : Activation) (values : List Ref) : Activation :=
  { a with frame := { a.frame with stack := values ++ a.frame.stack } }

/-- The activation with a local written. Locals before it that were never written become undefined. -/
def withLocal (a : Activation) (index : UInt32) (r : Ref) : Activation :=
  if a.frame.localLimit ≤ index.toNat then a
  else
    let filled := a.machine.store.allocUndefined (index.toNat + 1 - a.frame.locals.length)
    { machine := { a.machine with store := filled.2 }
      frame := { a.frame with locals := (a.frame.locals ++ filled.1).set index.toNat r } }

def next (a : Activation) : Ref :=
  ⟨a.machine.store.objects.size⟩

def withNew (a : Activation) (v : Value) : Activation :=
  { a with machine := { a.machine with store := (a.machine.store.alloc { value := v }).2 } }

theorem next_withNew_ne (a : Activation) (v : Value) : (a.withNew v).next ≠ a.next := by
  simp [next, withNew, Store.alloc]

@[simp] theorem withOperands_nil (a : Activation) : a.withOperands [] = a :=
  rfl

theorem withOperands_withOperands (a : Activation) (below above : List Ref) :
    (a.withOperands below).withOperands above = a.withOperands (above ++ below) := by
  simp [withOperands]

theorem withLocal_of_past {a : Activation} {index : UInt32} (h : a.frame.localLimit ≤ index.toNat) :
    a.withLocal index r = a :=
  if_pos h

theorem withLocal_of_known {a : Activation} {index : UInt32} (h : ¬a.frame.localLimit ≤ index.toNat)
    (hl : index.toNat < a.frame.locals.length) :
    a.withLocal index r =
      { a with frame := { a.frame with locals := a.frame.locals.set index.toNat r } } := by
  have hzero : index.toNat + 1 - a.frame.locals.length = 0 := by omega
  rw [withLocal, if_neg h, hzero]
  simp [Store.allocUndefined]

theorem withLocal_withOperands (a : Activation) (values : List Ref) (index : UInt32) (r : Ref) :
    (a.withOperands values).withLocal index r = (a.withLocal index r).withOperands values := by
  by_cases h : a.frame.localLimit ≤ index.toNat
  · rw [withLocal_of_past h, withLocal_of_past (a := a.withOperands values) h]
  · have h' : ¬(a.withOperands values).frame.localLimit ≤ index.toNat := h
    rw [withLocal, withLocal, if_neg h, if_neg h']
    rfl

@[simp] theorem stack_withLocal (a : Activation) (index : UInt32) (r : Ref) :
    (a.withLocal index r).frame.stack = a.frame.stack := by
  unfold withLocal
  split <;> rfl

@[simp] theorem stackLimit_withLocal (a : Activation) (index : UInt32) (r : Ref) :
    (a.withLocal index r).frame.stackLimit = a.frame.stackLimit := by
  unfold withLocal
  split <;> rfl

theorem withLocal_self {a : Activation} {index : UInt32}
    (h : a.frame.locals[index.toNat]? = some r) : a.withLocal index r = a := by
  obtain ⟨hlt, hget⟩ := List.getElem?_eq_some_iff.mp h
  by_cases hlimit : a.frame.localLimit ≤ index.toNat
  · exact withLocal_of_past hlimit
  · rw [withLocal_of_known hlimit hlt, ← hget, List.set_getElem_self]

theorem getElem?_withLocal_of_ne {a : Activation} {index other : UInt32}
    (h : a.frame.locals[other.toNat]? = some x) (hne : other ≠ index) :
    (a.withLocal index r).frame.locals[other.toNat]? = some x := by
  have hlt := (List.getElem?_eq_some_iff.mp h).1
  have hne' : index.toNat ≠ other.toNat := fun he => hne (UInt32.toNat_inj.mp he).symm
  unfold withLocal
  split
  · exact h
  · dsimp only
    rw [List.getElem?_set_ne hne', List.getElem?_append_left hlt]
    exact h

end Activation

namespace FrameM

theorem push_of_room {a : Activation} (h : a.frame.stack.length < a.frame.stackLimit) (r : Ref) :
    push r a = .ok () (a.withOperands [r]) := by
  change (if _ then _ else _ : FrameM Unit) a = _
  rw [if_neg (Nat.not_le_of_lt h)]
  rfl

theorem push_of_full {a : Activation} (h : a.frame.stackLimit ≤ a.frame.stack.length) (r : Ref) :
    push r a = .error (.fault (.overflow a.frame.method a.frame.stackLimit)) a := by
  change (if _ then _ else _ : FrameM Unit) a = _
  rw [if_pos h]
  rfl

theorem push_eq_ok {a b : Activation} (h : push r a = .ok () b) :
    a.frame.stack.length < a.frame.stackLimit ∧ b = a.withOperands [r] := by
  by_cases hroom : a.frame.stack.length < a.frame.stackLimit
  · rw [push_of_room hroom] at h
    cases h
    exact ⟨hroom, rfl⟩
  · rw [push_of_full (Nat.le_of_not_lt hroom)] at h
    cases h

theorem pushFresh_of_room {a : Activation} (h : a.frame.stack.length < a.frame.stackLimit) (v : Value) :
    pushFresh v a = .ok () ((a.withNew v).withOperands [a.next]) := by
  have hfresh : fresh v a = .ok a.next (a.withNew v) := rfl
  rw [pushFresh, bind_of_ok hfresh]
  exact push_of_room (a := a.withNew v) h a.next

theorem pop_withOperands (a : Activation) (r : Ref) (rest : List Ref) :
    pop (a.withOperands (r :: rest)) = .ok r (a.withOperands rest) :=
  rfl

theorem peek_withOperands (a : Activation) (r : Ref) (rest : List Ref) :
    peek (a.withOperands (r :: rest)) = .ok r (a.withOperands (r :: rest)) :=
  rfl

theorem textOf_of_some {a : Activation} (h : a.machine.store.text? r = some text) : textOf r a = .ok text a := by
  have hget : (get : FrameM Activation) a = .ok a a := rfl
  rw [textOf, bind_of_ok hget, h]
  rfl

theorem textOf_of_none {a : Activation} (h : a.machine.store.text? r = none) : textOf r a = .error .endless a := by
  have hget : (get : FrameM Activation) a = .ok a a := rfl
  rw [textOf, bind_of_ok hget, h]
  rfl

theorem getLocal_of_some {a : Activation} {index : UInt32}
    (h : a.frame.locals[index.toNat]? = some r) : getLocal index a = .ok r a := by
  have hframe : frame a = .ok a.frame a := rfl
  rw [getLocal, bind_of_ok hframe, h]
  rfl

theorem getLocal_of_none {a : Activation} {index : UInt32} (h : a.frame.locals[index.toNat]? = none) :
    getLocal index a = .ok a.next (a.withNew .undefined) := by
  have hframe : frame a = .ok a.frame a := rfl
  rw [getLocal, bind_of_ok hframe, h]
  rfl

theorem setLocal_apply (index : UInt32) (r : Ref) (a : Activation) :
    setLocal index r a = .ok () (a.withLocal index r) := by
  unfold Activation.withLocal
  split
  · rename_i h
    change (if _ then _ else _ : FrameM Unit) a = _
    rw [if_pos h]
    rfl
  · rename_i h
    change (if _ then _ else _ : FrameM Unit) a = _
    rw [if_neg h]
    rfl

end FrameM

end ActionVm
