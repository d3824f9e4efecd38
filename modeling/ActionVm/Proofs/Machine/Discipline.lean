import ActionVm.Proofs.Machine.Exchange
import ActionVm.Proofs.Object.Display

namespace ActionVm

def CallSet.any : CallSet := fun _ _ _ _ => True

namespace FrameM

theorem exchanges_combine (f : Value → Value → Value) (a : Activation) :
    Exchanges 2 1 .emptyPop (fun _ => combine f) a := by
  refine .of_take (c := .any) (.popPair a) fun r => ?_
  exact .bind (.still (.value r.1)) fun _ => .bind (.still (.value r.2)) fun _ => .pushFresh _

theorem exchanges_swap (a : Activation) : Exchanges 2 2 .emptyPop (fun _ => swap) a :=
  .take (.pop a) fun top => .of_take (c := .any) (.pop _) fun below =>
    .bind (.push top) fun _ => .push below

theorem exchanges_dup (a : Activation) : Exchanges 1 2 .emptyPeek (fun _ => peek >>= push) a := by
  obtain ⟨machine, ⟨method, stack, stackLimit, locals, localLimit, scopes, result⟩⟩ := a
  cases stack with
  | nil => exact ⟨nofun, nofun, fun _ => .inl fun _ => ⟨_, rfl⟩⟩
  | cons r rest =>
    have hpush := Settles.push (c := .any) r
    constructor
    · intro _ i x a' h
      obtain ⟨results, hresults, hstack⟩ := hpush.completes (i := i) h
      refine ⟨results ++ [r], ?_, ?_⟩
      · rw [List.length_append, hresults]
        rfl
      · rw [hstack, List.append_assoc]
        rfl
    · intro _ i e a' h hu
      exact hpush.raises (i := i) h hu
    · intro h
      exact absurd h (by simp)

theorem still_findScope? (name : String) : Still (findScope? name) :=
  .bind .get fun _ => .bind .frame fun _ => .pure _

theorem still_incLocal (index : UInt32) : Still (incLocal index) := by
  refine .bind (.getLocal index) fun r => .bind (.value r) fun v => ?_
  cases v with
  | integer i => exact .bind (.fresh _) fun _ => .setLocal index _
  | _ => exact .pure _

theorem exchanges_getProperty (index : UInt32) (a : Activation) :
    Exchanges (a.machine.document.pool.runtimeParts index + 1) 1 .emptyPop (fun i => getProperty i index) a := by
  refine .take (.nameText index a) fun name => .of_take (c := .any) (.pop _) fun obj => ?_
  refine .bind (.still .get) fun a' => ?_
  cases (a'.machine.store.get obj).getters[name]? with
  | some getter => exact .bind (.callOut (.callFunction getter obj fun _ _ _ => trivial) _) fun _ => .push _
  | none =>
    refine .bind (.still (.onStore _)) fun found => ?_
    cases found with
    | some r => exact .bind (.callOut (.resolve obj name r fun _ _ => trivial) _) fun _ => .push _
    | none => exact .pushFresh _

theorem exchanges_setProperty (index : UInt32) (a : Activation) :
    Exchanges (1 + (a.machine.document.pool.runtimeParts index + 1)) 0 .emptyPop (fun i => setProperty i index) a := by
  refine .take (.pop a) fun new => .take (.nameText index (a.dropOperands 1)) fun name =>
    .of_take (c := .any) (.pop _) fun obj => ?_
  refine .bind (.still .get) fun a' => ?_
  cases (a'.machine.store.get obj).setters[name]? with
  | some setter => exact .bind (.callOut (.callFunction setter obj fun _ _ _ => trivial) _) fun _ => .still (.pure _)
  | none => exact .still (.onStore _)

theorem exchanges_initProperty (index : UInt32) (a : Activation) :
    Exchanges (1 + (a.machine.document.pool.runtimeParts index + 1)) 0 .emptyPop (fun _ => initProperty index) a :=
  .take (.pop a) fun _ => .take (.nameText index (a.dropOperands 1)) fun _ => .of_take (c := .any) (.pop _) fun _ =>
    .still (.onStore _)

theorem exchanges_deleteProperty (index : UInt32) (a : Activation) :
    Exchanges (a.machine.document.pool.runtimeParts index + 1) 1 .emptyPop (fun _ => deleteProperty index) a :=
  .take (.nameText index a) fun _ => .of_take (c := .any) (.pop _) fun _ =>
    .bind (.still (.onStore _)) fun _ => .pushFresh _

theorem exchanges_getSlot (id : UInt32) (a : Activation) : Exchanges 1 1 .emptyPop (fun _ => getSlot id) a := by
  refine .of_take (c := .any) (.pop a) fun obj => .bind (.still (.onStore _)) fun found => ?_
  cases found with
  | some r => exact .push r
  | none => exact .pushFresh _

theorem exchanges_setSlot (id : UInt32) (a : Activation) : Exchanges (1 + 1) 0 .emptyPop (fun _ => setSlot id) a :=
  .take (.pop a) fun _ => .of_take (c := .any) (.pop _) fun _ => .still (.onStore _)

theorem exchanges_findProperty (index : UInt32) (a : Activation) :
    Exchanges (a.machine.document.pool.runtimeParts index) 1 .emptyPop (fun _ => findProperty index) a := by
  refine .of_take (c := .any) (.nameText index a) fun name => .bind (.still (still_findScope? name)) fun scope => ?_
  cases scope with
  | some scope => exact .push scope
  | none => exact .bind (.still .global) fun g => .push g

theorem exchanges_findPropStrict (index : UInt32) (a : Activation) :
    Exchanges (a.machine.document.pool.runtimeParts index) 1 .emptyPop (fun _ => findPropStrict index) a := by
  refine .of_take (c := .any) (.nameText index a) fun name => .bind (.still (still_findScope? name)) fun scope => ?_
  cases scope with
  | some scope => exact .push scope
  | none =>
    refine .bind (.still .global) fun g => .bind (.still .get) fun a' => ?_
    split
    · exact .push g
    · exact .pushFresh _

theorem exchanges_getLex (index : UInt32) (a : Activation) :
    Exchanges (a.machine.document.pool.runtimeParts index) 1 .emptyPop (fun i => getLex i index) a := by
  refine .of_take (c := .any) (.nameText index a) fun name => .bind (.still (still_findScope? name)) fun scope => ?_
  cases scope with
  | some scope =>
    have hlast (r : Ref) : Settles .any 1 (fun i => do
        onStore (capture r (← receiver))
        push (← callOut [scope] (MachineM.resolve i scope name r))) :=
      .bind (.still .receiver) fun _ => .bind (.still (.onStore _)) fun _ =>
        .bind (.callOut (.resolve scope name r fun _ _ => trivial) _) fun _ => .push _
    refine .bind (.still (.onStore _)) fun found => ?_
    cases found with
    | some r => exact hlast r
    | none => exact .bind (.still (.fresh _)) hlast
  | none =>
    refine .bind (.still .global) fun g => .bind (.still (.onStore _)) fun found => ?_
    cases found with
    | some r => exact .bind (.callOut (.resolve g name r fun _ _ => trivial) _) fun _ => .push _
    | none => exact .pushFresh _

theorem settles_callTarget (t : Option Target) (h : ∀ callable this m, c (.code callable) this args m) :
    Settles c 0 fun i => callTarget i args t := by
  cases t with
  | none => exact .still (.fresh _)
  | some t => exact .callOut (.callFunction t.f t.this h) _

theorem exchanges_callFound {find : List Ref → FrameM (Option Target)} (argc : UInt32) (a : Activation)
    (h : ∀ args, Exchanges n 0 .emptyPop (fun _ => find args) (a.dropOperands argc.toNat)) :
    Exchanges (argc.toNat + n) 0 .emptyPop (fun i => callFound i argc find) a :=
  .take (.popN argc a) fun args => .bind (h args) fun t => settles_callTarget (c := .any) t fun _ _ _ => trivial

theorem exchanges_findNamed (index : UInt32) (args : List Ref) (a : Activation) :
    Exchanges (a.machine.document.pool.runtimeParts index + 1) 0 .emptyPop (fun _ => findNamed index args) a := by
  refine .take (.nameText index a) fun name => .of_take (c := .any) (.pop _) fun obj => .still ?_
  refine .bind (.onStore _) fun found => ?_
  cases found with
  | none => exact .pure _
  | some callee =>
    refine .bind (.value callee) fun v => ?_
    cases v with
    | function | undefined | deferred => exact .pure _
    | _ =>
      apply Still.bind (.onStore _)
      intro found
      cases found <;> exact .pure _

theorem exchanges_findSuper (index : UInt32) (args : List Ref) (a : Activation) :
    Exchanges (a.machine.document.pool.runtimeParts index + 1) 0 .emptyPop (fun _ => findSuper index args) a := by
  refine .take (.nameText index a) fun name => .of_take (c := .any) (.pop _) fun obj => .still ?_
  refine .bind .get fun a' => ?_
  dsimp only
  split
  · exact .pure _
  · refine .bind (.onStore _) fun found => ?_
    cases found with
    | none => exact .pure _
    | some f =>
      refine .bind (.value f) fun v => ?_
      split
      · exact .pure _
      · exact .pure _

theorem exchanges_findValue (args : List Ref) (a : Activation) :
    Exchanges (1 + 1) 0 .emptyPop (fun _ => findValue args) a :=
  .take (.pop a) fun _ => .of_take (c := .any) (.pop _) fun _ => .still (.pure _)

theorem settles_instantiate (f : Ref) (h : ∀ callable this m, c (.code callable) this args m) :
    Settles c 0 fun i => instantiate i f args := by
  refine .bind (.still (.value f)) fun v => ?_
  cases v.isFunction with
  | true =>
    exact .bind (.still (.fresh _)) fun built => .bind (.callOut (.callFunction f built h) _) fun _ => .still (.pure _)
  | false => exact .still (.onStore (StoreM.copy f))

theorem settles_instantiateNamed (obj : Ref) (name : String) (h : ∀ this m, c (.construction name) this args m)
    (hinit : ∀ init, ∀ m : Machine, c (.method init) m.global [] m) :
    Settles c 0 fun i => instantiateNamed i obj name args := by
  refine .bind (.still (.onStore _)) fun found => ?_
  cases found with
  | none => exact .still (.fresh _)
  | some r =>
    exact .bind (.callOut (.resolve obj name r hinit) _) fun _ => .bind (.still (.fresh _)) fun base =>
      .callOut (.call (h base)) _

theorem exchanges_construct (argc : UInt32) (a : Activation) :
    Exchanges (argc.toNat + 1) 1 .emptyPop (fun i => construct i argc) a :=
  .take (.popN argc a) fun _ => .of_take (.pop _) fun f =>
    .bind (settles_instantiate (c := .any) f fun _ _ _ => trivial) fun built => .push built

theorem exchanges_constructProp (index argc : UInt32) (a : Activation) :
    Exchanges (argc.toNat + (a.machine.document.pool.runtimeParts index + 1)) 1 .emptyPop
      (fun i => constructProp i index argc) a :=
  .take (.popN argc a) fun _ => .take (.nameText index (a.dropOperands argc.toNat)) fun name =>
    .of_take (c := .any) (.pop _) fun obj =>
      .bind (settles_instantiateNamed obj name (fun _ _ => trivial) fun _ _ => trivial) fun built => .push built

theorem onStore_of_ok {act : StoreM α} {a : Activation} (h : MachineM.onStore act a.machine = .ok x m) :
    onStore act a = .ok x { a with machine := m } := by
  simp only [onStore, h]

theorem exchanges_setPairs (obj : Ref) (n : Nat) {a : Activation} (hplain : a.machine.store.IsPlain obj) :
    Exchanges (2 * n) 0 .emptyPop (fun _ => setPairs obj n) a := by
  induction n generalizing a with
  | zero => exact .settle (.still (c := .any) (.pure ()))
  | succ n ih =>
    have hsplit : setPairs obj (n + 1) = pop >>= fun new => (pop >>= textOf) >>= fun name =>
        onStore (StoreM.setProperty obj name new) >>= fun _ => setPairs obj n := by
      simp only [bind_assoc]
      rfl
    let put (name : String) (new : Ref) : Store :=
      a.machine.store.update obj fun o => { o with properties := o.properties.insert name new }
    have hset (name : String) (new : Ref) : MachineM.onStore (StoreM.setProperty obj name new) a.machine =
        .ok () { a.machine with store := put name new } := by
      simp only [MachineM.onStore, StoreM.setProperty_of_plain hplain, put]
    have htext (name : String) (new r : Ref) : (put name new).text? r = none → a.machine.store.text? r = none := by
      have hitems : (put name new).ItemOf = a.machine.store.ItemOf := Store.itemOf_update _ _ fun _ => rfl
      exact (Store.text?_eq_none_congr hitems).mp
    have hneed : 2 * (n + 1) = 1 + (1 + 2 * n) := by omega
    rw [hneed, hsplit]
    refine .take (.pop a) fun new => .take (.popText _) fun name => ?_
    refine .look (onStore_of_ok (a := (a.dropOperands 1).dropOperands 1) (hset name new)) rfl (htext name new) (ih ?_)
    exact hplain.update obj fun _ => rfl

theorem exchanges_newObject (count : UInt32) (a : Activation) :
    Exchanges (2 * count.toNat) 1 .emptyPop (fun _ => newObject count) a := by
  have hfresh : fresh .object a = .ok (a.machine.store.alloc {}).1
      { a with machine := { a.machine with store := (a.machine.store.alloc {}).2 } } := rfl
  refine .look hfresh rfl ?_ (.bind (exchanges_setPairs _ count.toNat ?_) fun _ => .push (c := .any) _)
  · exact fun r => (Store.text?_eq_none_congr (Store.itemOf_alloc _ (by simp))).mp
  · exact a.machine.store.isPlain_alloc

theorem exchanges_newActivation (a : Activation) : Exchanges 0 1 .emptyPop (fun _ => newActivation) a := by
  refine .settle (c := .any) (.bind (.still (.fresh _)) fun built => .bind (.still .get) fun a' => ?_)
  refine .bind (.still .frame) fun f => ?_
  cases a'.machine.document.body? f.method with
  | none => exact .push built
  | some body => exact .bind (.callOut (.own (MachineM.calm_buildTraits ..)) _) fun _ => .push built

theorem exchanges_newClass (index : UInt32) (a : Activation) :
    Exchanges 1 1 .emptyPop (fun i => newClass i index) a :=
  .of_take (c := .any) (.pop a) fun base =>
    .bind (.callOut (.newClass base index fun _ _ _ => trivial) _) fun built => .push built

theorem exchanges_hasNext (objLocal indexLocal : UInt32) (a : Activation) :
    Exchanges 0 1 .emptyPop (fun _ => hasNext objLocal indexLocal) a := by
  refine .settle (c := .any) (.bind (.still (.getLocal objLocal)) fun obj => ?_)
  refine .bind (.still (.getLocal indexLocal)) fun r => .bind (.still (.value r)) fun v => ?_
  refine .bind (.still .get) fun a' => ?_
  dsimp only
  split
  · exact .bind (.still (.fresh _)) fun _ => .bind (.still (.setLocal indexLocal _)) fun _ => .pushFresh _
  · exact .bind (.still (.fresh _)) fun _ => .bind (.still (.setLocal objLocal _)) fun _ =>
      .bind (.still (.fresh _)) fun _ => .bind (.still (.setLocal indexLocal _)) fun _ => .pushFresh _

theorem exchanges_nextName (a : Activation) : Exchanges 2 1 .emptyPop (fun _ => nextName) a := by
  refine .of_take (c := .any) (.popPair a) fun r => ?_
  refine .bind (.still (.value r.2)) fun v => .bind (.still .get) fun a' => ?_
  dsimp only
  split
  · exact .pushFresh _
  · exact .pushFresh _

theorem exchanges_getScopeObject (index : UInt32) (a : Activation) :
    Exchanges 0 1 .emptyPop (fun _ => frame >>= fun f => match f.scopes.reverse[index.toNat]? with
      | some r => push r
      | none => pushFresh .undefined) a := by
  refine .settle (c := .any) (.bind (.still .frame) fun f => ?_)
  cases f.scopes.reverse[index.toNat]? with
  | some r => exact .push r
  | none => exact .pushFresh _

end FrameM

namespace Action

/-- How many operands an action takes, if the name that its first immediate stands for has that many parts
to be taken as well. -/
def operands (action : Action) (a b : UInt32) (parts : Nat) : Nat :=
  match action with
  | getLocal | copyLocal | kill | pushNull | pushUndefined | pushTrue | pushFalse | pushNaN | pushByte | pushShort
  | pushString | pushInt | pushUint | pushDouble | popScope | getGlobalScope | getScopeObject | incLocalI | unaryStub
  | newCatch | trap | newFunction | newActivation | hasNext2 | returnLocal => 0
  | setLocal | pop | dup | pushScope | throw | getSlot | newClass | returnValue => 1
  | swap | add | subtract | multiply | divide | lessThan | greaterThan | binaryStub | nextValue | nextName
  | setSlot => 2
  | findProperty | findPropStrict | getLex => parts
  | getProperty | deleteProperty => parts + 1
  | setProperty | initProperty | setSuper => 1 + (parts + 1)
  | newArray => a.toNat
  | newObject => 2 * a.toNat
  | construct | constructSuper => a.toNat + 1
  | call => a.toNat + 2
  | callProperty | callPropVoid | callSuper | callSuperVoid | constructProp => b.toNat + (parts + 1)

def results : Action → Nat
  | setLocal | copyLocal | kill | pop | pushScope | popScope | incLocalI | unaryStub | throw | constructSuper
  | setSuper | trap | setProperty | initProperty | setSlot | callPropVoid | callSuperVoid | returnValue
  | returnLocal => 0
  | dup | swap => 2
  | _ => 1

/-- How an action tells that an operand is missing. -/
def missing : Action → UInt32 → Fault
  | dup => .emptyPeek
  | _ => .emptyPop

end Action

def Step.operands (s : Step) (p : Pool) : Nat :=
  s.action.operands s.a s.b (p.runtimeParts s.a)

namespace FrameM

theorem exchanges_act (s : Step) (a : Activation) :
    Exchanges (s.operands a.machine.document.pool) s.action.results s.action.missing (fun i => act i s) a := by
  obtain ⟨action, x, y⟩ := s
  cases action with
  | getLocal => exact .settle (c := .any) (.bind (.still (.getLocal x)) fun r => .push r)
  | setLocal => exact .of_take (c := .any) (.pop a) fun r => .still (.setLocal x r)
  | copyLocal => exact .settle (c := .any) (.bind (.still (.getLocal x)) fun r => .still (.setLocal y r))
  | kill => exact .settle (c := .any) (.bind (.still (.fresh _)) fun r => .still (.setLocal x r))
  | pop | throw => exact .of_take (c := .any) (.pop a) fun _ => .still (.pure _)
  | dup => exact exchanges_dup a
  | swap => exact exchanges_swap a
  | pushNull | pushUndefined | pushTrue | pushFalse | pushNaN | pushByte | pushShort | newCatch | newFunction =>
    exact .settle (c := .any) (.pushFresh _)
  | pushString | pushInt | pushUint | pushDouble =>
    exact .settle (c := .any) (.bind (.still .pool) fun _ => .pushFresh _)
  | add | subtract | multiply | divide | lessThan | greaterThan | binaryStub | nextValue =>
    exact exchanges_combine _ a
  | pushScope => exact .of_take (c := .any) (.pop a) fun _ => .still (.modifyFrame fun _ => rfl)
  | popScope =>
    exact .settle (c := .any) (.still (.modifyFrame (f := fun f => { f with scopes := f.scopes.drop 1 }) fun _ => rfl))
  | getGlobalScope =>
    exact .settle (c := .any) (.bind (.still .frame) fun _ => .bind (.still .global) fun _ => .push _)
  | getScopeObject => exact exchanges_getScopeObject x a
  | incLocalI => exact .settle (c := .any) (.still (still_incLocal x))
  | unaryStub => exact .settle (c := .any) (.still (.pure _))
  | constructSuper =>
    exact .take (.popN x a) fun _ => .of_take (c := .any) (.pop _) fun _ => .still (.pure _)
  | trap => exact .settle (c := .any) (.still (.fail fun _ => rfl))
  | getProperty => exact exchanges_getProperty x a
  | setProperty => exact exchanges_setProperty x a
  | initProperty | setSuper => exact exchanges_initProperty x a
  | deleteProperty => exact exchanges_deleteProperty x a
  | getSlot => exact exchanges_getSlot x a
  | setSlot => exact exchanges_setSlot x a
  | findProperty => exact exchanges_findProperty x a
  | findPropStrict => exact exchanges_findPropStrict x a
  | getLex => exact exchanges_getLex x a
  | callProperty =>
    exact .bind (exchanges_callFound y a fun args => exchanges_findNamed x args _) fun r => .push (c := .any) r
  | callPropVoid =>
    exact .bind (exchanges_callFound y a fun args => exchanges_findNamed x args _) fun _ => .still (c := .any) (.pure _)
  | callSuper =>
    exact .bind (exchanges_callFound y a fun args => exchanges_findSuper x args _) fun r => .push (c := .any) r
  | callSuperVoid =>
    exact .bind (exchanges_callFound y a fun args => exchanges_findSuper x args _) fun _ => .still (c := .any) (.pure _)
  | call => exact .bind (exchanges_callFound x a fun args => exchanges_findValue args _) fun r => .push (c := .any) r
  | construct => exact exchanges_construct x a
  | constructProp => exact exchanges_constructProp x y a
  | newObject => exact exchanges_newObject x a
  | newArray => exact .of_take (c := .any) (.popN x a) fun _ => .pushFresh _
  | newActivation => exact exchanges_newActivation a
  | newClass => exact exchanges_newClass x a
  | hasNext2 => exact exchanges_hasNext x y a
  | nextName => exact exchanges_nextName a
  | returnValue => exact .of_take (c := .any) (.pop a) fun r => .still (.modifyFrame fun _ => rfl)
  | returnLocal => exact .settle (c := .any) (.bind (.still (.getLocal x)) fun r => .still (.modifyFrame fun _ => rfl))

end FrameM

def Condition.operands : Condition → Nat
  | isTrue | isFalse => 1
  | _ => 2

namespace FrameM

theorem exchanges_compare (f : Bool → Value → Value → Bool) (a : Activation) :
    Exchanges 2 0 .emptyPop (fun _ => compare f) a := by
  refine .of_take (c := .any) (.popPair a) fun r => ?_
  exact .bind (.still (.value r.1)) fun _ => .bind (.still (.value r.2)) fun _ => .still (.pure _)

theorem exchanges_test (condition : Condition) (a : Activation) :
    Exchanges condition.operands 0 .emptyPop (fun _ => test condition) a := by
  cases condition with
  | isTrue | isFalse =>
    exact .of_take (c := .any) (.pop a) fun r => .bind (.still (.value r)) fun _ => .still (.pure _)
  | eq | ne | strictEq | strictNe | lt | le | gt | ge | nlt | nle | ngt | nge =>
    simp only [test]
    exact exchanges_compare _ a

theorem exchanges_select (last : UInt32) (a : Activation) : Exchanges 1 0 .emptyPop (fun _ => select last) a := by
  refine .of_take (c := .any) (.pop a) fun r => .bind (.still (.value r)) fun v => ?_
  dsimp only
  split
  · exact .still (.pure _)
  · exact .bind (.still (.within _)) fun _ => .still (.pure _)

end FrameM

def Invoke.relabel (g : Stop → Stop) (invoke : Invoke) : Invoke := fun callee this args m =>
  match invoke callee this args m with
  | .ok r m' => .ok r m'
  | .error e m' => .error (g e) m'

theorem Invoke.relabel_id (invoke : Invoke) : invoke.relabel id = invoke := by
  funext callee this args m
  unfold relabel
  cases invoke callee this args m <;> rfl

theorem Invoke.raises_relabel {invoke : Invoke} (h : (invoke.relabel g).Raises e) : ∃ e', e = g e' := by
  obtain ⟨callee, this, args, m, m', h⟩ := h
  unfold relabel at h
  split at h
  · cases h
  · rename_i e' _ _
    cases h
    exact ⟨e', rfl⟩

namespace FrameM

/-- The program itself misses an operand: it says so however the errors of its calls are told. -/
def Misses (x : Invoke → FrameM α) (invoke : Invoke) (a : Activation) : Prop :=
  ∃ e, e.isUnderflow = true ∧ ∀ g, ∃ a', x (invoke.relabel g) a = .error e a'

/-- Whatever its calls do, a program that ends has put `out` results in the place of `need` operands, and it
misses an operand itself if and only if there are fewer, unless it never gets past one of those that are there. -/
structure StackEffect (need out : Nat) (x : Invoke → FrameM α) (a : Activation) : Prop where
  completes : ∀ i r a', x i a = .ok r a' → need ≤ a.frame.stack.length ∧
    ∃ results, results.length = out ∧ a'.frame.stack = results ++ a.frame.stack.drop need
  misses : ∀ i, Misses x i a ↔ a.frame.stack.length < need ∧ ¬Stuck (x i) a
  tells : ∀ i, a.frame.stack.length < need → ¬Stuck (x i) a → ∃ f a', x i a = .error (.fault f) a' ∧
    (f = .emptyPop a.frame.method ∨ f = .emptyPeek a.frame.method)

theorem Exchanges.stackEffect {x : Invoke → FrameM α} (h : Exchanges need out missing x a)
    (hm : missing = .emptyPop ∨ missing = .emptyPeek) : StackEffect need out x a where
  completes i r a' hx := by
    by_cases hn : need ≤ a.frame.stack.length
    · exact ⟨hn, h.completes hn hx⟩
    · obtain hlacks | hstuck := h.lacks (Nat.lt_of_not_le hn)
      · obtain ⟨a₁, ha⟩ := hlacks i
        cases ha.symm.trans hx
      · obtain ⟨-, a₁, ha⟩ := hstuck i
        cases ha.symm.trans hx
  misses i := by
    constructor
    · rintro ⟨e, hu, he⟩
      constructor
      · apply Nat.lt_of_not_le
        intro hn
        -- Were the error one of a call, it would not survive another name for the errors of calls.
        obtain ⟨a', ha⟩ := he fun _ => .outOfFuel
        obtain ⟨e', rfl⟩ := Invoke.raises_relabel (h.raises hn ha hu)
        cases hu
      · rintro ⟨-, a', ha⟩
        obtain ⟨a₁, ha₁⟩ := he id
        rw [Invoke.relabel_id] at ha₁
        cases ha.symm.trans ha₁
        cases hu
    · rintro ⟨hn, hstuck⟩
      have hlacks := (h.lacks hn).resolve_right fun hall => hstuck (hall i)
      refine ⟨.fault (missing a.frame.method), ?_, fun g => hlacks _⟩
      obtain rfl | rfl := hm <;> rfl
  tells i hn hstuck := by
    obtain ⟨a', ha⟩ := (h.lacks hn).resolve_right (fun hall => hstuck (hall i)) i
    refine ⟨_, a', ha, ?_⟩
    obtain rfl | rfl := hm
    · exact .inl rfl
    · exact .inr rfl

theorem stackEffect_act (s : Step) (a : Activation) :
    StackEffect (s.operands a.machine.document.pool) s.action.results (fun i => act i s) a := by
  apply (exchanges_act s a).stackEffect
  cases s.action with
  | dup => exact .inr rfl
  | _ => exact .inl rfl

theorem stackEffect_test (condition : Condition) (a : Activation) :
    StackEffect condition.operands 0 (fun _ => test condition) a :=
  (exchanges_test condition a).stackEffect (.inl rfl)

theorem stackEffect_select (last : UInt32) (a : Activation) : StackEffect 1 0 (fun _ => select last) a :=
  (exchanges_select last a).stackEffect (.inl rfl)

end FrameM

end ActionVm
