import ActionVm.Proofs.Machine.Nesting
import ActionVm.Proofs.Machine.Operands

namespace ActionVm

namespace Activation

def dropOperands (a : Activation) (n : Nat) : Activation :=
  { a with frame := { a.frame with stack := a.frame.stack.drop n } }

theorem dropOperands_dropOperands (a : Activation) (m n : Nat) :
    (a.dropOperands m).dropOperands n = a.dropOperands (m + n) := by
  simp [dropOperands, List.drop_drop]

end Activation

namespace FrameM

/-- Work never gets past an operand that has no text. -/
def Stuck (x : FrameM α) (a : Activation) : Prop :=
  (∃ r ∈ a.frame.stack, a.machine.store.text? r = none) ∧ ∃ a', x a = .error .endless a'

theorem Stuck.bind {x : FrameM α} {f : α → FrameM β} (h : Stuck x a) : Stuck (x >>= f) a := by
  obtain ⟨hoperand, a', ha⟩ := h
  exact ⟨hoperand, a', bind_of_error ha⟩

theorem Stuck.after {x : FrameM α} {f : α → FrameM β} (hx : x a = .ok r a')
    (hoperand : ∀ r ∈ a'.frame.stack, r ∈ a.frame.stack)
    (htext : ∀ r, a'.machine.store.text? r = none → a.machine.store.text? r = none) (h : Stuck (f r) a') :
    Stuck (x >>= f) a := by
  obtain ⟨⟨operand, hmem, hnone⟩, a₁, ha⟩ := h
  exact ⟨⟨operand, hoperand operand hmem, htext operand hnone⟩, a₁, (bind_of_ok hx).trans ha⟩

/-- Work that takes operands off the stack, and does nothing else. -/
inductive Takes (n : Nat) (x : FrameM α) (a : Activation) : Prop where
  | enough (h : n ≤ a.frame.stack.length) (hx : x a = .ok r (a.dropOperands n))
  | lacks (h : a.frame.stack.length < n) (hx : x a = .error (.fault (.emptyPop a.frame.method)) a')
  | stuck (h : Stuck x a)

namespace Takes

theorem pure (r : α) (a : Activation) : Takes 0 (pure r) a :=
  .enough (Nat.zero_le _) rfl

theorem bind {x : FrameM α} {f : α → FrameM β} (hx : Takes m x a) (hf : ∀ r, Takes n (f r) (a.dropOperands m)) :
    Takes (m + n) (x >>= f) a := by
  have hlength : (a.dropOperands m).frame.stack.length = a.frame.stack.length - m := List.length_drop
  cases hx with
  | @enough r hm hr =>
    cases hf r with
    | enough hn hx' =>
      rw [Activation.dropOperands_dropOperands] at hx'
      exact .enough (by omega) ((bind_of_ok hr).trans hx')
    | lacks hn hx' => exact .lacks (by omega) ((bind_of_ok hr).trans hx')
    | stuck hstuck => exact .stuck (hstuck.after hr (fun _ => List.mem_of_mem_drop) fun _ => id)
  | lacks hm ha => exact .lacks (by omega) (bind_of_error ha)
  | stuck hstuck => exact .stuck hstuck.bind

theorem look {x : FrameM α} {f : α → FrameM β} (hx : x a = .ok r a) (hf : Takes n (f r) a) : Takes n (x >>= f) a := by
  cases hf with
  | enough hn hx' => exact .enough hn ((bind_of_ok hx).trans hx')
  | lacks hn hx' => exact .lacks hn ((bind_of_ok hx).trans hx')
  | stuck hstuck => exact .stuck (hstuck.after hx (fun _ => id) fun _ => id)

theorem pop (a : Activation) : Takes 1 pop a := by
  obtain ⟨machine, ⟨method, stack, stackLimit, locals, localLimit, scopes, result⟩⟩ := a
  cases stack with
  | nil => exact .lacks Nat.zero_lt_one rfl
  | cons r rest => exact .enough (Nat.le_add_left 1 _) rfl

theorem popText (a : Activation) : Takes 1 (FrameM.pop >>= textOf) a := by
  obtain ⟨machine, ⟨method, stack, stackLimit, locals, localLimit, scopes, result⟩⟩ := a
  cases stack with
  | nil => exact .lacks Nat.zero_lt_one rfl
  | cons r rest =>
    let a : Activation := ⟨machine, ⟨method, rest, stackLimit, locals, localLimit, scopes, result⟩⟩
    cases htext : machine.store.text? r with
    | some text => exact .enough (Nat.le_add_left 1 _) (textOf_of_some (a := a) htext)
    | none => exact .stuck ⟨⟨r, List.mem_cons_self, htext⟩, _, textOf_of_none (a := a) htext⟩

theorem popPair (a : Activation) : Takes 2 popPair a :=
  bind (pop a) fun _ => bind (pop _) fun _ => pure _ _

end Takes

theorem popOnto_of_enough {a : Activation} (h : n ≤ a.frame.stack.length) (above : List Ref) :
    popOnto above n a = .ok ((a.frame.stack.take n).reverse ++ above) (a.dropOperands n) := by
  obtain ⟨machine, ⟨method, stack, stackLimit, locals, localLimit, scopes, result⟩⟩ := a
  induction n generalizing stack above with
  | zero => rfl
  | succ n ih =>
    cases stack with
    | nil => exact absurd h (by simp)
    | cons r rest =>
      have hrest : n ≤ rest.length := by simpa using h
      have hpop : popOnto above (n + 1) ⟨machine, ⟨method, r :: rest, stackLimit, locals, localLimit, scopes, result⟩⟩ =
          popOnto (r :: above) n ⟨machine, ⟨method, rest, stackLimit, locals, localLimit, scopes, result⟩⟩ := rfl
      rw [hpop, ih (r :: above) rest hrest]
      simp [Activation.dropOperands]

theorem popOnto_of_lack {a : Activation} (h : a.frame.stack.length < n) (above : List Ref) :
    ∃ a', popOnto above n a = .error (.fault (.emptyPop a.frame.method)) a' := by
  obtain ⟨machine, ⟨method, stack, stackLimit, locals, localLimit, scopes, result⟩⟩ := a
  induction n generalizing stack above with
  | zero => exact absurd h (Nat.not_lt_zero _)
  | succ n ih =>
    cases stack with
    | nil => exact ⟨_, rfl⟩
    | cons r rest => exact ih (r :: above) rest (by simpa using h)

theorem popN_toNat (argc : UInt32) : popN argc.toNat = popOnto [] argc.toNat := by
  have hfits : Bounds.capacity 8 argc.toNat = .ok argc.toNat := by
    have := argc.toNat_lt
    rw [Bounds.capacity, if_pos (by omega)]
  rw [popN, hfits]
  rfl

theorem popN_of_enough {a : Activation} {argc : UInt32} (h : argc.toNat ≤ a.frame.stack.length) :
    popN argc.toNat a = .ok (a.frame.stack.take argc.toNat).reverse (a.dropOperands argc.toNat) := by
  rw [popN_toNat, popOnto_of_enough h, List.append_nil]

theorem Takes.popN (argc : UInt32) (a : Activation) : Takes argc.toNat (popN argc.toNat) a := by
  by_cases h : argc.toNat ≤ a.frame.stack.length
  · exact .enough h (popN_of_enough h)
  · obtain ⟨a', ha⟩ := popOnto_of_lack (Nat.lt_of_not_le h) []
    rw [← popN_toNat] at ha
    exact .lacks (Nat.lt_of_not_le h) ha

end FrameM

/-- How many parts of a name are only known at runtime. -/
def Multiname.runtimeParts : Multiname → Nat
  | rtqname .. | multinameL .. => 1
  | rtqnameL _ => 2
  | qname .. | multiname .. | any => 0

def Pool.runtimeParts (p : Pool) (index : UInt32) : Nat :=
  ((p.multiname? index).map Multiname.runtimeParts).getD 0

namespace FrameM

theorem Takes.nameText (index : UInt32) (a : Activation) :
    Takes (a.machine.document.pool.runtimeParts index) (nameText index) a := by
  refine look (r := a.machine.document.pool) rfl ?_
  unfold Pool.runtimeParts
  split
  · rename_i h
    rw [h]
    exact bind (pop a) fun _ => pure _ _
  · rename_i h
    rw [h]
    have hsplit : (FrameM.pop >>= fun r => textOf r >>= fun name => FrameM.pop >>= fun _ => Pure.pure name) =
        (FrameM.pop >>= textOf) >>= fun name => FrameM.pop >>= fun _ => Pure.pure name := (bind_assoc ..).symm
    rw [hsplit]
    exact bind (popText a) fun _ => bind (pop _) fun _ => pure _ _
  · rename_i h
    rw [h]
    exact popText a
  · rename_i h₁ h₂ h₃
    have hnone : ((a.machine.document.pool.multiname? index).map Multiname.runtimeParts).getD 0 = 0 := by
      cases h : a.machine.document.pool.multiname? index with
      | none => rfl
      | some name =>
        cases name with
        | rtqname name isAttribute => exact absurd h (h₁ name isAttribute)
        | rtqnameL isAttribute => exact absurd h (h₂ isAttribute)
        | multinameL nsSet isAttribute => exact absurd h (h₃ nsSet isAttribute)
        | any | qname | multiname => rfl
    rw [hnone]
    exact pure _ a

structure Still (x : FrameM α) : Prop where
  calm : Calm x
  stack : ∀ ⦃a r a'⦄, x a = .ok r a' → a'.frame.stack = a.frame.stack

namespace Still

theorem pure (r : α) : Still (pure r) where
  calm := calm_pure r
  stack _ _ _ h := by cases h; rfl

theorem get : Still get where
  calm := calm_get
  stack _ _ _ h := by cases h; rfl

theorem bind {x : FrameM α} {f : α → FrameM β} (hx : Still x) (hf : ∀ r, Still (f r)) : Still (x >>= f) where
  calm := calm_bind hx.calm fun r => (hf r).calm
  stack a r a' h := by
    obtain ⟨b, a₁, hx', hf'⟩ := bind_eq_ok.mp h
    rw [(hf b).stack hf', hx.stack hx']

theorem modifyFrame {f : Frame → Frame} (h : ∀ frame, (f frame).stack = frame.stack) : Still (modifyFrame f) where
  calm := calm_modify _
  stack a _ _ he := by
    cases he
    exact h a.frame

theorem fail {f : UInt32 → Fault} (h : ∀ method, (Stop.fault (f method)).isUnderflow = false) :
    Still (fail f : FrameM α) where
  calm a e a' he := by
    cases he
    exact h a.frame.method
  stack a r a' he := by cases he

theorem onStore (act : StoreM α) : Still (onStore act) where
  calm a e a' h := by
    simp only [FrameM.onStore] at h
    split at h
    · cases h
    · rename_i hm
      cases h
      exact MachineM.calm_onStore act hm
  stack a r a' h := by
    simp only [FrameM.onStore] at h
    split at h <;> cases h
    rfl

theorem within (r : Except BoundsError α) : Still (Stop.within r) where
  calm _ _ _ he := by
    cases r <;> cases he
    rfl
  stack _ _ _ he := by
    cases r <;> cases he
    rfl

theorem frame : Still frame :=
  bind get fun _ => pure _

theorem value (r : Ref) : Still (value r) :=
  bind get fun _ => pure _

theorem pool : Still pool :=
  bind get fun _ => pure _

theorem global : Still global :=
  bind get fun _ => pure _

theorem fresh (v : Value) : Still (fresh v) :=
  onStore _

theorem getLocal (index : UInt32) : Still (getLocal index) := by
  refine bind frame fun f => ?_
  cases f.locals[index.toNat]? with
  | some r => exact pure r
  | none => exact fresh _

theorem setLocal (index : UInt32) (r : Ref) : Still (setLocal index r) where
  calm _ _ _ h := by
    rw [setLocal_apply] at h
    cases h
  stack a _ _ h := by
    rw [setLocal_apply] at h
    cases h
    exact a.stack_withLocal index r

theorem receiver : Still receiver :=
  getLocal 0

end Still

/-- Work that takes no operands and leaves results on the stack. It makes none but the given calls, and
reports an empty stack only if a call does. -/
structure Settles (calls : CallSet) (out : Nat) (x : Invoke → FrameM α) : Prop where
  completes : ∀ ⦃i a r a'⦄, x i a = .ok r a' →
    ∃ results, results.length = out ∧ a'.frame.stack = results ++ a.frame.stack
  raises : ∀ ⦃i a e a'⦄, x i a = .error e a' → e.isUnderflow = true → i.Raises e
  agrees : ∀ ⦃i j⦄, Invoke.AgreesOn calls i j → x i = x j

namespace Settles

variable {c : CallSet}

theorem still {x : FrameM α} (h : Still x) : Settles c 0 fun _ => x where
  completes _ _ _ _ hx := ⟨[], rfl, h.stack hx⟩
  raises _ _ _ _ hx hu := by cases (h.calm hx).symm.trans hu
  agrees _ _ _ := rfl

theorem push (r : Ref) : Settles c 1 fun _ => push r where
  completes _ a _ _ h := by
    obtain ⟨-, rfl⟩ := push_eq_ok h
    exact ⟨[r], rfl, rfl⟩
  raises _ a _ _ h hu := by
    by_cases hroom : a.frame.stack.length < a.frame.stackLimit
    · rw [push_of_room hroom] at h
      cases h
    · rw [push_of_full (Nat.le_of_not_lt hroom)] at h
      cases h
      cases hu
  agrees _ _ _ := rfl

theorem bind {x : Invoke → FrameM α} {f : Invoke → α → FrameM β} (hx : Settles c m x)
    (hf : ∀ r, Settles c n fun i => f i r) : Settles c (n + m) fun i => x i >>= f i where
  completes i a r a' h := by
    obtain ⟨b, a₁, hx', hf'⟩ := bind_eq_ok.mp h
    obtain ⟨below, hbelow, hstack⟩ := hx.completes hx'
    obtain ⟨above, habove, hstack'⟩ := (hf b).completes hf'
    refine ⟨above ++ below, ?_, ?_⟩
    · rw [List.length_append, habove, hbelow]
    · rw [hstack', hstack, List.append_assoc]
  raises i a e a' h hu := by
    obtain hx' | ⟨r, a₁, -, hf'⟩ := bind_eq_error.mp h
    · exact hx.raises hx' hu
    · exact (hf r).raises hf' hu
  agrees i j h := by
    have hf' : f i = f j := funext fun r => (hf r).agrees h
    rw [hx.agrees h, hf']

theorem callOut {x : Invoke → MachineM α} (h : MachineM.Uses c x) (refs : List Ref) :
    Settles c 0 fun i => callOut refs (x i) where
  completes i a r a' he := by
    simp only [FrameM.callOut] at he
    split at he <;> cases he
    exact ⟨[], rfl, rfl⟩
  raises i a e a' he hu := by
    simp only [FrameM.callOut] at he
    split at he
    · cases he
    · rename_i hm
      cases he
      exact (h.holding _).raises hm hu
  agrees i j hij := by rw [h.agrees hij]

theorem pushFresh (v : Value) : Settles c 1 fun _ => pushFresh v :=
  bind (still (.fresh v)) fun r => push r

end Settles

/-- Work that takes `need` operands, if they are there, and leaves `out` results in their place. If they are
not, it reports which way they are missing, unless one of those that are there has no text. -/
structure Exchanges (need out : Nat) (missing : UInt32 → Fault) (x : Invoke → FrameM α) (a : Activation) : Prop where
  completes : need ≤ a.frame.stack.length → ∀ ⦃i r a'⦄, x i a = .ok r a' →
    ∃ results, results.length = out ∧ a'.frame.stack = results ++ a.frame.stack.drop need
  raises : need ≤ a.frame.stack.length → ∀ ⦃i e a'⦄, x i a = .error e a' → e.isUnderflow = true → i.Raises e
  lacks : a.frame.stack.length < need →
    (∀ i, ∃ a', x i a = .error (.fault (missing a.frame.method)) a') ∨ ∀ i, Stuck (x i) a

namespace Exchanges

theorem settle {x : Invoke → FrameM α} (h : Settles c out x) : Exchanges 0 out missing x a where
  completes _ _ _ _ hx := h.completes hx
  raises _ _ _ _ hx hu := h.raises hx hu
  lacks hl := absurd hl (Nat.not_lt_zero _)

theorem of_stuck {x : Invoke → FrameM α} (h : ∀ i, Stuck (x i) a) : Exchanges need out missing x a where
  completes _ i _ _ hx := by
    obtain ⟨-, a₁, ha⟩ := h i
    cases ha.symm.trans hx
  raises _ i _ _ hx hu := by
    obtain ⟨-, a₁, ha⟩ := h i
    cases ha.symm.trans hx
    cases hu
  lacks _ := .inr h

theorem take {x : FrameM α} {f : Invoke → α → FrameM β} (hx : Takes m x a)
    (hf : ∀ r, Exchanges n out .emptyPop (fun i => f i r) (a.dropOperands m)) :
    Exchanges (m + n) out .emptyPop (fun i => x >>= f i) a := by
  have hlength : (a.dropOperands m).frame.stack.length = a.frame.stack.length - m := List.length_drop
  cases hx with
  | @enough r hm hr =>
    constructor
    · intro hn i r' a' h
      rw [bind_of_ok hr] at h
      obtain ⟨results, hresults, hstack⟩ := (hf r).completes (by omega) h
      refine ⟨results, hresults, ?_⟩
      rw [hstack, ← List.drop_drop]
      rfl
    · intro hn i e a' h hu
      rw [bind_of_ok hr] at h
      exact (hf r).raises (by omega) h hu
    · intro hn
      refine ((hf r).lacks (by omega)).imp (fun h i => ?_) fun h i => ?_
      · rw [bind_of_ok hr]
        exact h i
      · exact (h i).after hr (fun _ => List.mem_of_mem_drop) fun _ => id
  | lacks hm ha =>
    constructor
    · intro hn
      omega
    · intro hn
      omega
    · intro _
      exact .inl fun i => ⟨_, bind_of_error ha⟩
  | stuck hstuck => exact of_stuck fun i => hstuck.bind

theorem bind {x : Invoke → FrameM α} {f : Invoke → α → FrameM β} (hx : Exchanges need m missing x a)
    (hf : ∀ r, Settles c n fun i => f i r) : Exchanges need (n + m) missing (fun i => x i >>= f i) a where
  completes hn i r a' h := by
    obtain ⟨b, a₁, hx', hf'⟩ := bind_eq_ok.mp h
    obtain ⟨below, hbelow, hstack⟩ := hx.completes hn hx'
    obtain ⟨above, habove, hstack'⟩ := (hf b).completes hf'
    refine ⟨above ++ below, ?_, ?_⟩
    · rw [List.length_append, habove, hbelow]
    · rw [hstack', hstack, List.append_assoc]
  raises hn i e a' h hu := by
    obtain hx' | ⟨r, a₁, -, hf'⟩ := bind_eq_error.mp h
    · exact hx.raises hn hx' hu
    · exact (hf r).raises hf' hu
  lacks hn := by
    refine (hx.lacks hn).imp (fun h i => ?_) fun h i => (h i).bind
    obtain ⟨a', ha⟩ := h i
    exact ⟨a', bind_of_error ha⟩

theorem of_take {x : FrameM α} {f : Invoke → α → FrameM β} (hx : Takes need x a)
    (hf : ∀ r, Settles c out fun i => f i r) : Exchanges need out .emptyPop (fun i => x >>= f i) a :=
  take hx fun r => settle (hf r)

theorem look {x : FrameM α} {f : Invoke → α → FrameM β} (hx : x a = .ok r a') (hframe : a'.frame = a.frame)
    (htext : ∀ r, a'.machine.store.text? r = none → a.machine.store.text? r = none)
    (hf : Exchanges need out missing (fun i => f i r) a') : Exchanges need out missing (fun i => x >>= f i) a where
  completes hn i r' a₁ h := by
    rw [bind_of_ok hx] at h
    rw [← hframe] at hn ⊢
    exact hf.completes hn h
  raises hn i e a₁ h hu := by
    rw [bind_of_ok hx] at h
    rw [← hframe] at hn
    exact hf.raises hn h hu
  lacks hn := by
    rw [← hframe] at hn
    refine (hf.lacks hn).imp (fun h i => ?_) fun h i => ?_
    · rw [bind_of_ok hx, ← hframe]
      exact h i
    · refine (h i).after hx (fun r hr => ?_) htext
      rw [← hframe]
      exact hr

end Exchanges

end FrameM

end ActionVm
