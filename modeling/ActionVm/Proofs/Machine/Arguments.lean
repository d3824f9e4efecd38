import ActionVm.Machine.Run
import ActionVm.Proofs.Machine.Discipline

namespace ActionVm

def Step.argc (s : Step) : UInt32 :=
  match s.action with
  | .call | .construct => s.a
  | _ => s.b

/-- The operands that a call or a construction passes on, in the order in which they were pushed. -/
def Step.arguments (s : Step) (a : Activation) : List Ref :=
  (a.frame.stack.take s.argc.toNat).reverse

def Step.find? (s : Step) : Option (List Ref → FrameM (Option FrameM.Target)) :=
  match s.action with
  | .callProperty | .callPropVoid => some (FrameM.findNamed s.a)
  | .callSuper | .callSuperVoid => some (FrameM.findSuper s.a)
  | .call => some FrameM.findValue
  | _ => none

def Step.isCall (s : Step) : Bool :=
  s.find?.isSome || s.action = .construct || s.action = .constructProp

def CallSet.scripts : CallSet := fun callee this args m =>
  (∃ init, callee = .method init) ∧ this = m.global ∧ args = []

/-- The calls that a step may make with its arguments. To build an instance, scripts may have to run first. -/
def Step.callSet (s : Step) (a : Activation) : CallSet := fun callee this args m =>
  args = s.arguments a ∨ s.action = .constructProp ∧ CallSet.scripts callee this args m

def CallSet.building (base : Ref) (args : List Ref) : CallSet := fun callee this args' m =>
  (∃ init, callee = .method init) ∧ this = base ∧ args' = args ∨ scripts callee this args' m

namespace FrameM

theorem popN_bind_congr {f g : List Ref → FrameM α} {argc : UInt32} {a : Activation}
    (h : ∀ a', f (a.frame.stack.take argc.toNat).reverse a' = g (a.frame.stack.take argc.toNat).reverse a') :
    (popN argc.toNat >>= f) a = (popN argc.toNat >>= g) a := by
  by_cases hn : argc.toNat ≤ a.frame.stack.length
  · rw [bind_of_ok (popN_of_enough hn), bind_of_ok (popN_of_enough hn), h]
  · obtain ⟨a', ha⟩ := popOnto_of_lack (Nat.lt_of_not_le hn) []
    rw [← popN_toNat] at ha
    rw [bind_of_error ha, bind_of_error ha]

/-- Calls and constructions depend on methods only through the calls that they may make. -/
theorem act_agrees {s : Step} {a : Activation} (hs : s.isCall = true) (h : Invoke.AgreesOn (s.callSet a) i j) :
    act i s a = act j s a := by
  have hargs : ∀ callee this m, s.callSet a callee this (s.arguments a) m := fun _ _ _ => .inl rfl
  have hfound (find : List Ref → FrameM (Option Target)) : callFound i s.argc find a = callFound j s.argc find a := by
    apply popN_bind_congr
    intro a'
    have htarget := funext fun t => (settles_callTarget t fun _ => hargs _).agrees h
    exact congrArg (fun k => (find (s.arguments a) >>= k) a') htarget
  obtain ⟨action, x, y⟩ := s
  cases action with
  | callProperty | callPropVoid | callSuper | callSuperVoid | call => exact bind_congr_left (hfound _)
  | construct =>
    apply popN_bind_congr
    intro a'
    have hf (f : Ref) : instantiate i f (a.frame.stack.take x.toNat).reverse =
        instantiate j f (a.frame.stack.take x.toNat).reverse := (settles_instantiate f fun _ => hargs _).agrees h
    simp only [hf]
  | constructProp =>
    apply popN_bind_congr
    intro a'
    have hf (obj : Ref) (name : String) : instantiateNamed i obj name (a.frame.stack.take y.toNat).reverse =
        instantiateNamed j obj name (a.frame.stack.take y.toNat).reverse :=
      (settles_instantiateNamed obj name (hargs _) fun init _ => .inr ⟨rfl, ⟨init, rfl⟩, rfl, rfl⟩).agrees h
    simp only [hf]
  | _ => cases hs

end FrameM

/-- The program enters a callee, given how some earlier call ends: an error of the callee is one of the program. -/
def Enters (given : Invoke → Prop) (x : Invoke → EStateM Stop σ α) (s : σ) (callee : Callee) (this : Ref)
    (args : List Ref) : Prop :=
  ∃ m, ∀ i, given i → ∀ e m', i callee this args m = .error e m' → ∃ t, x i s = .error e t

namespace Enters

variable {given : Invoke → Prop}

theorem call (callee : Callee) (this : Ref) (args : List Ref) (m : Machine) :
    Enters given (fun i => i callee this args) m callee this args :=
  ⟨m, fun _ _ _ m' h => ⟨m', h⟩⟩

theorem bind {x : Invoke → EStateM Stop σ α} {f : Invoke → α → EStateM Stop σ β}
    (h : Enters given x s callee this args) : Enters given (fun i => x i >>= f i) s callee this args := by
  obtain ⟨m, h⟩ := h
  refine ⟨m, fun i hgiven e m' hi => ?_⟩
  obtain ⟨t, ht⟩ := h i hgiven e m' hi
  exact ⟨t, bind_of_error ht⟩

theorem after {x : Invoke → EStateM Stop σ α} {f : Invoke → α → EStateM Stop σ β}
    (hx : ∀ i, given i → x i s = .ok r t) (h : Enters given (fun i => f i r) t callee this args) :
    Enters given (fun i => x i >>= f i) s callee this args := by
  obtain ⟨m, h⟩ := h
  refine ⟨m, fun i hgiven e m' hi => ?_⟩
  obtain ⟨u, hu⟩ := h i hgiven e m' hi
  exact ⟨u, (bind_of_ok (hx i hgiven)).trans hu⟩

theorem holding {x : Invoke → MachineM α} {refs : List Ref}
    (h : Enters given x { m with held := refs ++ m.held } callee this args) :
    Enters given (fun i => MachineM.holding refs (x i)) m callee this args := by
  obtain ⟨m₁, h⟩ := h
  refine ⟨m₁, fun i hgiven e m' hi => ?_⟩
  obtain ⟨t, ht⟩ := h i hgiven e m' hi
  exact ⟨_, by simp only [MachineM.holding, ht]; rfl⟩

theorem callOut {x : Invoke → MachineM α} {refs : List Ref}
    (h : Enters given x { a.machine with held := a.frame.references ++ refs ++ a.machine.held } callee this args) :
    Enters given (fun i => FrameM.callOut refs (x i)) a callee this args := by
  obtain ⟨m₁, h⟩ := h.holding
  refine ⟨m₁, fun i hgiven e m' hi => ?_⟩
  obtain ⟨t, ht⟩ := h i hgiven e m' hi
  exact ⟨_, by simp only [FrameM.callOut, ht]; rfl⟩

theorem callFunction {m : Machine} (h : m.store.value f = .function callable receiver) :
    Enters given (fun i => MachineM.callFunction i f this args) m (.code callable) (receiver.getD this) args := by
  refine ⟨m, fun i _ e m' hi => ⟨m', ?_⟩⟩
  have hvalue : MachineM.value f m = .ok (m.store.value f) m := rfl
  change (MachineM.value f >>= _) m = _
  rw [bind_of_ok hvalue, h]
  exact hi

end Enters

/-- A class of the document is about to be built on an object, and its initialiser to be called, given how the
binding of the class gets defined. -/
inductive Machine.Initializes (m : Machine) (name : String) (base : Ref) (args : List Ref) :
    (Invoke → Prop) → UInt32 → Prop where
  | intro (hclass : m.classes[name]? = some (.defined index)) (hinst : m.document.instances[index]? = some inst)
    (hbinding : MachineM.onStore (StoreM.property? m.global name)
      { m with store := m.store.update base ({ · with className := name }) } = .ok (some binding) m₁)
    (hplain : m₂.store.IsPlain base) :
    Initializes m name base args
      (fun i => MachineM.holding (base :: args) (MachineM.resolve i m.global name binding) m₁ = .ok resolved m₂)
      inst.init

namespace Enters

theorem buildNamed (h : Machine.Initializes m name base args given init) :
    Enters given (fun i => MachineM.buildNamed i name base args) m (.method init) base args := by
  cases h with
  | @intro _ inst binding m₁ resolved m₂ hclass hinst hbinding hplain =>
    obtain ⟨_, m₃, hset, hplain₃⟩ :=
      MachineM.keeps_update (.isPlain base) (f := ({ · with prototype := some resolved })) (fun _ => rfl) m₂ hplain
    obtain ⟨_, m₄, hcompile, hplain₄⟩ := MachineM.keeps_compile (.isPlain base) inst.init m₃ hplain₃
    obtain ⟨_, m₅, hbuild, -⟩ := MachineM.keeps_buildTraits (.isPlain base) inst.traits none
      (fun _ hi => (Option.not_mem_none _ hi).elim) m₄ hplain₄
    refine after (r := m) (t := m) (fun _ _ => rfl) ?_
    rw [hclass]
    refine after (r := ()) (fun _ _ => rfl) ?_
    refine after (fun _ _ => hbinding) ?_
    refine after (fun _ hgiven => hgiven) ?_
    refine after (fun _ _ => hset) ?_
    rw [hinst]
    refine after (fun _ _ => hcompile) ?_
    refine after (fun _ _ => hbuild) ?_
    exact bind (holding (call (.method inst.init) base args _))

theorem instantiate {a : Activation} (h : a.machine.store.value f = .function callable receiver) :
    Enters given (fun i => FrameM.instantiate i f args) a (.code callable)
      (receiver.getD (a.machine.store.alloc {}).1) args := by
  let a₁ : Activation := { a with machine := { a.machine with store := (a.machine.store.alloc {}).2 } }
  have hf : a₁.machine.store.value f = .function callable receiver := by
    rw [← h]
    apply Store.value_alloc
    rw [h]
    exact nofun
  have hvalue : FrameM.value f a = .ok (.function callable receiver) a := by
    rw [← h]
    rfl
  have hfresh : FrameM.fresh .object a = .ok (a.machine.store.alloc {}).1 a₁ := rfl
  apply after (fun _ _ => hvalue)
  simp only [Value.isFunction, if_true]
  apply after (fun _ _ => hfresh)
  exact bind (callOut (callFunction hf))

theorem callTarget {a : Activation} {t : FrameM.Target} (h : a.machine.store.value t.f = .function callable receiver) :
    Enters given (fun i => FrameM.callTarget i args (some t)) a (.code callable) (receiver.getD t.this) args :=
  callOut (callFunction h)

end Enters

/-- A call or a construction is about to run a callee on a receiver. What a construction names gets defined first. -/
inductive Step.Reaches (a : Activation) : Step → (Invoke → Prop) → Callee → Ref → Prop where
  | call {s : Step} {find : List Ref → FrameM (Option FrameM.Target)} {t : FrameM.Target} {a' : Activation}
    (hs : s.find? = some find) (ht : find (s.arguments a) (a.dropOperands s.argc.toNat) = .ok (some t) a')
    (hf : a'.machine.store.value t.f = .function callable receiver) :
    Reaches a s (fun _ => True) (.code callable) (receiver.getD t.this)
  | construct {count b : UInt32} (hf : a.frame.stack.drop count.toNat = f :: rest)
    (hm : a.machine.store.value f = .function callable receiver) :
    Reaches a ⟨.construct, count, b⟩ (fun _ => True) (.code callable) (receiver.getD (a.machine.store.alloc {}).1)
  | constructProp {index count : UInt32} (hname : FrameM.nameText index (a.dropOperands count.toNat) = .ok name a₁)
    (hobj : a₁.frame.stack = obj :: rest)
    (hr : FrameM.onStore (StoreM.property? obj name) (a₁.dropOperands 1) = .ok (some r) a₂) :
    Reaches a ⟨.constructProp, index, count⟩
      (fun i => FrameM.callOut (obj :: (a.frame.stack.take count.toNat).reverse) (MachineM.resolve i obj name r) a₂ =
        .ok resolved a₃)
      (.construction name) (a₃.machine.store.alloc {}).1

namespace FrameM

theorem pop_of_cons {a : Activation} (h : a.frame.stack = r :: rest) : pop a = .ok r (a.dropOperands 1) := by
  obtain ⟨machine, ⟨method, stack, stackLimit, locals, localLimit, scopes, result⟩⟩ := a
  cases h
  rfl

theorem act_enters {s : Step} {a : Activation} (h : s.Reaches a given callee this)
    (hn : s.argc.toNat ≤ a.frame.stack.length) : Enters given (fun i => act i s) a callee this (s.arguments a) := by
  cases h with
  | @call callable receiver _ find t a' hs ht hf =>
    have hfound : Enters (fun _ => True) (fun i => callFound i s.argc find) a (.code callable) (receiver.getD t.this)
        (s.arguments a) := by
      apply Enters.after (fun _ _ => popN_of_enough hn)
      apply Enters.after (fun _ _ => ht)
      exact Enters.callTarget hf
    obtain ⟨action, x, y⟩ := s
    cases action with
    | callProperty | callPropVoid | callSuper | callSuperVoid | call =>
      cases hs
      exact hfound.bind
    | _ => cases hs
  | construct hf hm =>
    apply Enters.after (fun _ _ => popN_of_enough hn)
    apply Enters.after (fun _ _ => pop_of_cons hf)
    exact Enters.bind (Enters.instantiate hm)
  | @constructProp name a₁ obj rest r a₂ resolved a₃ index count hname hobj hr =>
    have hfresh : fresh .object a₃ = .ok (a₃.machine.store.alloc {}).1
        { a₃ with machine := { a₃.machine with store := (a₃.machine.store.alloc {}).2 } } := rfl
    apply Enters.after (fun _ _ => popN_of_enough hn)
    apply Enters.after (fun _ _ => hname)
    apply Enters.after (fun _ _ => pop_of_cons hobj)
    apply Enters.bind
    apply Enters.after (fun _ _ => hr)
    apply Enters.after (fun _ hgiven => hgiven)
    apply Enters.after (fun _ _ => hfresh)
    exact Enters.callOut (Enters.call ..)

end FrameM

theorem Frame.locals_of_create {config : Config} {id maxStack localCount : UInt32} {f : Frame}
    (h : create config id maxStack localCount this args = .ok f) : f.locals = this :: args := by
  unfold create at h
  cases hlimit : Bounds.mul UInt64.size (max maxStack.toNat 1) (max config.stackSlack 1) with
  | error e =>
    rw [hlimit] at h
    cases h
  | ok limit =>
    rw [hlimit] at h
    cases h
    rfl

namespace MachineM

theorem execute_of_body (hc : compile method m = .ok (some code) m₁) (hb : m₁.document.body? method = some body)
    (hf : Frame.create m₁.config method body.maxStack body.localCount this args = .ok f) (fuel : Nat) :
    execute (fuel + 1) (.method method) this args m =
      inFrame f (FrameM.runFrom (execute fuel) code.code fuel 0) m₁ := by
  have hget : (get : MachineM Machine) m₁ = .ok m₁ m₁ := rfl
  have hframe : (Stop.within (Frame.create m₁.config method body.maxStack body.localCount this args) : MachineM Frame) m₁ =
      .ok f m₁ := by
    rw [hf]
    rfl
  rw [execute, enter, runMethod, bind_of_ok hc]
  dsimp only
  rw [bind_of_ok hget, hb]
  exact bind_of_ok hframe

end MachineM

namespace FrameM

theorem getLocal_argument {f : Frame} (hf : f.locals = this :: args) (hr : args[k]? = some r) {index : UInt32}
    (hk : index.toNat = k + 1) (m : Machine) : getLocal index ⟨m, f⟩ = .ok r ⟨m, f⟩ := by
  apply getLocal_of_some
  rw [hf, hk]
  exact hr

/-- The discipline of the operand stack. Every action, condition and selection replaces as many operands by
as many results as its own form says, whatever it calls and whatever that does, and misses an operand itself
exactly if there are fewer. What a call or a construction passes on are the operands that it took, in the order in
which they were pushed. A function of the machine or of the embedder gets just these, the initialiser of a class
gets what its construction got, and a method has each of them in the local behind its place. -/
theorem helpers_keep_stack_discipline :
    (∀ s a, StackEffect (s.operands a.machine.document.pool) s.action.results (fun i => act i s) a) ∧
    (∀ condition a, StackEffect condition.operands 0 (fun _ => test condition) a) ∧
    (∀ last a, StackEffect 1 0 (fun _ => select last) a) ∧
    (∀ s a, s.isCall = true →
      (∀ i j, Invoke.AgreesOn (s.callSet a) i j → act i s a = act j s a) ∧
      ∀ given callee this, s.Reaches a given callee this → s.argc.toNat ≤ a.frame.stack.length →
        Enters given (fun i => act i s) a callee this (s.arguments a)) ∧
    (∀ name base args,
      (∀ i j, Invoke.AgreesOn (.building base args) i j →
        MachineM.buildNamed i name base args = MachineM.buildNamed j name base args) ∧
      ∀ m given init, m.Initializes name base args given init →
        Enters given (fun i => MachineM.buildNamed i name base args) m (.method init) base args) ∧
    (∀ fuel this args,
      (∀ f, MachineM.execute (fuel + 1) (.code (.builtin f)) this args = MachineM.callBuiltin f args) ∧
      (∀ f m, MachineM.execute (fuel + 1) (.code (.host f)) this args m =
        (m.embedding.functions f this args).run (MachineM.answer (MachineM.execute fuel)) m) ∧
      (∀ name, MachineM.execute (fuel + 1) (.construction name) this args =
        MachineM.buildNamed (MachineM.execute fuel) name this args) ∧
      ∀ method m m₁ code body f, MachineM.compile method m = .ok (some code) m₁ →
        m₁.document.body? method = some body →
        Frame.create m₁.config method body.maxStack body.localCount this args = .ok f →
        MachineM.execute (fuel + 1) (.method method) this args m =
          MachineM.inFrame f (runFrom (MachineM.execute fuel) code.code fuel 0) m₁ ∧
        ∀ (k : Nat) (index : UInt32) r machine, index.toNat = k + 1 → args[k]? = some r →
          getLocal index ⟨machine, f⟩ = .ok r ⟨machine, f⟩) := by
  refine ⟨stackEffect_act, stackEffect_test, stackEffect_select, ?_, ?_, ?_⟩
  · intro s a hs
    exact ⟨fun i j h => act_agrees hs h, fun given callee this h hn => act_enters h hn⟩
  · intro name base args
    refine ⟨fun i j h => ?_, fun m given init h => Enters.buildNamed h⟩
    exact (MachineM.Uses.buildNamed name base (fun init _ => .inr ⟨⟨init, rfl⟩, rfl, rfl⟩)
      fun init _ => .inl ⟨⟨init, rfl⟩, rfl, rfl⟩).agrees h
  · intro fuel this args
    refine ⟨fun _ => rfl, fun _ _ => rfl, fun _ => rfl, ?_⟩
    intro method m m₁ code body f hc hb hf
    refine ⟨MachineM.execute_of_body hc hb hf fuel, ?_⟩
    intro k index r machine hk hr
    exact getLocal_argument (Frame.locals_of_create hf) hr hk machine

def readyToCall : Activation where
  machine :=
    { document := {}, config := {}, global := ⟨0⟩, store := { objects := #[{}, { value := .function (.host ⟨"f"⟩) }] } }
  frame := { method := 0, stack := [⟨4⟩, ⟨3⟩, ⟨2⟩, ⟨1⟩], stackLimit := 8, locals := [], localLimit := 0 }

theorem call_passes_operands_in_order :
    Enters (fun _ => True) (fun i => act i { action := .call, a := 2 }) readyToCall (.code (.host ⟨"f"⟩)) ⟨2⟩ [⟨3⟩, ⟨4⟩] ∧
      MachineM.execute 1 (.code (.host ⟨"f"⟩)) ⟨2⟩ [⟨3⟩, ⟨4⟩] readyToCall.machine =
        (readyToCall.machine.embedding.functions ⟨"f"⟩ ⟨2⟩ [⟨3⟩, ⟨4⟩]).run (MachineM.answer (MachineM.execute 0))
          readyToCall.machine := by
  obtain ⟨-, -, -, hcalls, -, hexecute⟩ := helpers_keep_stack_discipline
  obtain ⟨-, henters⟩ := hcalls { action := .call, a := 2 } readyToCall rfl
  obtain ⟨-, hhost, -⟩ := hexecute 0 ⟨2⟩ [⟨3⟩, ⟨4⟩]
  let target : Target := { f := ⟨1⟩, this := ⟨2⟩, refs := [⟨1⟩, ⟨2⟩, ⟨3⟩, ⟨4⟩] }
  have hreaches : Step.Reaches readyToCall { action := .call, a := 2 } (fun _ => True) (.code (.host ⟨"f"⟩))
      ((none : Option Ref).getD target.this) := .call rfl rfl rfl
  exact ⟨henters _ _ ⟨2⟩ hreaches (by decide), hhost ⟨"f"⟩ readyToCall.machine⟩

end FrameM

end ActionVm
