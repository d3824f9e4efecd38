import ActionVm.Machine.Traits
import ActionVm.Proofs.Program

namespace ActionVm

def Stop.isUnderflow : Stop → Bool
  | .fault (.emptyPop _) | .fault (.emptyPeek _) => true
  | _ => false

/-- Calls, told by the callee, its receiver, its arguments and the machine. -/
abbrev CallSet := Callee → Ref → List Ref → Machine → Prop

namespace Invoke

def Raises (invoke : Invoke) (e : Stop) : Prop :=
  ∃ callee this args m m', invoke callee this args m = .error e m'

def AgreesOn (calls : CallSet) (i j : Invoke) : Prop :=
  ∀ callee this args m, calls callee this args m → i callee this args m = j callee this args m

end Invoke

def Calm (x : EStateM Stop σ α) : Prop :=
  ∀ ⦃s e t⦄, x s = .error e t → e.isUnderflow = false

section Calm

variable {x : EStateM Stop σ α}

theorem Calm.of_ok (h : ∀ s, ∃ r t, x s = .ok r t) : Calm x := by
  intro s e t he
  obtain ⟨r, u, hr⟩ := h s
  cases hr.symm.trans he

@[simp] theorem calm_pure (r : α) : Calm (pure r : EStateM Stop σ α) :=
  .of_ok fun _ => ⟨_, _, rfl⟩

@[simp] theorem calm_get : Calm (get : EStateM Stop σ σ) :=
  .of_ok fun _ => ⟨_, _, rfl⟩

@[simp] theorem calm_modify (f : σ → σ) : Calm (modify f : EStateM Stop σ Unit) :=
  .of_ok fun _ => ⟨_, _, rfl⟩

@[simp] theorem calm_modifyGet (f : σ → α × σ) : Calm (modifyGet f : EStateM Stop σ α) :=
  .of_ok fun _ => ⟨_, _, rfl⟩

@[simp] theorem calm_bind {f : α → EStateM Stop σ β} (hx : Calm x) (hf : ∀ r, Calm (f r)) : Calm (x >>= f) := by
  intro s e t h
  obtain hx' | ⟨r, u, -, hf'⟩ := bind_eq_error.mp h
  · exact hx hx'
  · exact hf r hf'

@[simp] theorem calm_map {f : α → β} (hx : Calm x) : Calm (f <$> x) :=
  calm_bind hx fun _ => calm_pure _

@[simp] theorem calm_ite {y : EStateM Stop σ α} [Decidable c] (hx : Calm x) (hy : Calm y) :
    Calm (if c then x else y) := by
  split
  · exact hx
  · exact hy

@[simp] theorem calm_forM {f : β → EStateM Stop σ PUnit} (h : ∀ b, Calm (f b)) (l : List β) : Calm (l.forM f) := by
  induction l with
  | nil => exact calm_pure _
  | cons b l ih => exact calm_bind (h b) fun _ => ih

end Calm

namespace MachineM

@[simp] theorem calm_onStore (act : StoreM α) : Calm (onStore act) := by
  intro m e m' h
  simp only [onStore] at h
  split at h <;> cases h
  rfl

@[simp] theorem calm_fresh (v : Value) : Calm (fresh v) :=
  calm_onStore _

@[simp] theorem calm_value (r : Ref) : Calm (value r) :=
  calm_bind calm_get fun _ => calm_pure _

@[simp] theorem calm_start (init : UInt32) : Calm (start init) :=
  calm_modifyGet _

@[simp] theorem calm_note (n : Note) : Calm (note n) :=
  calm_modify _

@[simp] theorem calm_translate (method : UInt32) (body : Body) : Calm (translate method body) :=
  calm_bind (calm_note _) fun _ => calm_bind calm_get fun _ => calm_pure _

@[simp] theorem calm_compile (method : UInt32) : Calm (compile method) := by
  refine calm_bind calm_get fun m => ?_
  split
  · simp
  · split
    · simp
    · refine calm_bind (calm_translate _ _) fun translated => ?_
      split <;> simp

@[simp] theorem calm_placeholder (init : Option UInt32) : Calm (placeholder init) := by
  cases init <;> simp [placeholder]

@[simp] theorem calm_methodValue (method : UInt32) : Calm (methodValue method) := by
  simp [methodValue]

@[simp] theorem calm_bindSlot (r : Ref) (id : UInt32) (name : String) : Calm (bindSlot r id name) :=
  calm_onStore _

@[simp] theorem calm_setProperty (r : Ref) (name : String) (value : Ref) : Calm (setProperty r name value) :=
  calm_onStore _

@[simp] theorem calm_buildSlot (r : Ref) (name : String) (s : SlotTrait) (init : Option UInt32) :
    Calm (buildSlot r name s init) := by
  unfold buildSlot
  split
  · refine calm_bind calm_get fun m => ?_
    split
    · exact calm_bindSlot r s.slotId name
    · exact calm_bind (calm_placeholder init) fun _ => calm_bind (calm_setProperty r name _) fun _ =>
        calm_bindSlot r s.slotId name
  · split
    · exact calm_bind calm_get fun _ => calm_bind (calm_fresh _) fun _ => calm_bind (calm_setProperty r name _) fun _ =>
        calm_bindSlot r s.slotId name
    · exact calm_bind (calm_fresh _) fun _ => calm_setProperty r name _

theorem calm_buildTrait (r : Ref) (init : Option UInt32) (t : Trait) : Calm (buildTrait r init t) := by
  refine calm_bind calm_get fun m => ?_
  dsimp only
  split
  · simp
  · simp
  · simp
  · simp
  · simp
  · split
    · simp
    · simp
  · simp

@[simp] theorem calm_buildTraits (r : Ref) (traits : List Trait) (init : Option UInt32) :
    Calm (buildTraits r traits init) :=
  calm_forM (calm_buildTrait r init) traits

/-- Work that makes none but the given calls, and that reports an empty stack only if a call does. -/
structure Uses (calls : CallSet) (x : Invoke → MachineM α) : Prop where
  raises : ∀ ⦃i m e m'⦄, x i m = .error e m' → e.isUnderflow = true → i.Raises e
  agrees : ∀ ⦃i j⦄, Invoke.AgreesOn calls i j → x i = x j

namespace Uses

variable {calls : CallSet}

theorem own {x : MachineM α} (h : Calm x) : Uses calls fun _ => x where
  raises _ _ _ _ he hu := by cases (h he).symm.trans hu
  agrees _ _ _ := rfl

theorem bind {x : Invoke → MachineM α} {f : Invoke → α → MachineM β} (hx : Uses calls x)
    (hf : ∀ r, Uses calls fun i => f i r) : Uses calls fun i => x i >>= f i where
  raises i m e m' h hu := by
    obtain hx' | ⟨r, u, -, hf'⟩ := bind_eq_error.mp h
    · exact hx.raises hx' hu
    · exact (hf r).raises hf' hu
  agrees i j h := by
    have hf' : f i = f j := funext fun r => (hf r).agrees h
    rw [hx.agrees h, hf']

theorem call (h : ∀ m, calls callee this args m) : Uses calls fun i => i callee this args where
  raises _ m _ m' he _ := ⟨callee, this, args, m, m', he⟩
  agrees _ _ hij := funext fun m => hij callee this args m (h m)

theorem holding {x : Invoke → MachineM α} (h : Uses calls x) (refs : List Ref) :
    Uses calls fun i => MachineM.holding refs (x i) where
  raises i m e m' he hu := by
    simp only [MachineM.holding] at he
    split at he
    · cases he
    · rename_i hx
      cases he
      exact h.raises hx hu
  agrees i j hij := by rw [h.agrees hij]

theorem callFunction (f this : Ref) (h : ∀ callable this m, calls (.code callable) this args m) :
    Uses calls fun i => MachineM.callFunction i f this args := by
  refine bind (own (calm_value f)) fun v => ?_
  cases v with
  | function callable receiver => exact call (h callable _)
  | _ => exact own (calm_fresh _)

theorem define (init : UInt32) (h : ∀ m : Machine, calls (.method init) m.global [] m) :
    Uses calls fun i => MachineM.define i init := by
  refine bind (own (calm_start init)) fun isNew => ?_
  cases isNew with
  | false => exact own (calm_pure _)
  | true =>
    have hcall : Uses calls fun i => get >>= fun m => i (.method init) m.global [] := {
      raises := fun i m e m' he _ => ⟨.method init, m.global, [], m, m', he⟩
      agrees := fun i j hij => funext fun m => hij (.method init) m.global [] m (h m) }
    exact bind (own (calm_note _)) fun _ => hcall.bind fun _ => own (calm_note _)

theorem resolve (holder : Ref) (name : String) (r : Ref) (h : ∀ init, ∀ m : Machine, calls (.method init) m.global [] m) :
    Uses calls fun i => MachineM.resolve i holder name r := by
  refine bind (own (calm_value r)) fun v => ?_
  cases hv : v.deferred? with
  | none => exact own (calm_pure _)
  | some init =>
    refine bind (holding (define init (h init)) _) fun _ => own ?_
    refine calm_bind (calm_onStore _) fun again => ?_
    cases again <;> simp

theorem buildNamed (name : String) (base : Ref) (hinit : ∀ init, ∀ m : Machine, calls (.method init) m.global [] m)
    (hargs : ∀ init m, calls (.method init) base args m) :
    Uses calls fun i => MachineM.buildNamed i name base args := by
  refine bind (own calm_get) fun m => ?_
  cases hc : m.classes[name]? with
  | none => exact own (calm_fresh _)
  | some entry =>
    cases entry with
    | builtin =>
      refine bind (own (calm_onStore _)) fun binding => ?_
      cases binding with
      | none => exact own (calm_fresh _)
      | some binding => exact own (calm_onStore _)
    | defined index =>
      refine bind (own (calm_onStore _)) fun _ => bind (own (calm_onStore _)) fun binding => ?_
      cases binding with
      | none => exact own (calm_pure _)
      | some binding =>
        refine bind (holding (resolve m.global name binding hinit) _) fun resolved => ?_
        refine bind (own (calm_onStore _)) fun _ => ?_
        cases hd : m.document.instances[index]? with
        | none => exact own (calm_pure _)
        | some inst =>
          refine bind (own (calm_compile _)) fun _ => bind (own (calm_buildTraits ..)) fun _ => ?_
          exact bind (holding (call (hargs inst.init)) _) fun _ => own (calm_pure _)

theorem newClass (base : Ref) (index : UInt32) (h : ∀ method this m, calls (.method method) this [] m) :
    Uses calls fun i => MachineM.newClass i base index := by
  refine bind (own calm_get) fun m => bind (own (calm_onStore _)) fun built => ?_
  cases hd : m.document.classes[index.toNat]? with
  | none => exact own (calm_pure _)
  | some info =>
    have hlast : Uses calls fun i => do
        let _ ← compile info.init
        buildTraits built info.traits none
        let _ ← MachineM.holding [base, built] (i (.method info.init) built [])
        return built :=
      bind (own (calm_compile _)) fun _ => bind (own (calm_buildTraits ..)) fun _ =>
        bind (holding (call (h info.init built)) _) fun _ => own (calm_pure _)
    cases hi : m.document.instances[index.toNat]? with
    | none => exact hlast
    | some inst => exact bind (own (calm_onStore _)) fun _ => hlast

end Uses

end MachineM

end ActionVm
