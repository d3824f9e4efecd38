import ActionVm.Machine.Traits
import ActionVm.Proofs.Program

namespace ActionVm

def Keeps (P : σ → Prop) (x : EStateM ε σ α) : Prop :=
  ∀ s, P s → ∃ r t, x s = .ok r t ∧ P t

namespace Keeps

variable {P : σ → Prop} {x : EStateM ε σ α}

theorem pure (r : α) : Keeps P (pure r : EStateM ε σ α) :=
  fun s h => ⟨r, s, rfl, h⟩

theorem get : Keeps P (get : EStateM ε σ σ) :=
  fun s h => ⟨s, s, rfl, h⟩

theorem modify {f : σ → σ} (h : ∀ s, P s → P (f s)) : Keeps P (modify f : EStateM ε σ PUnit) :=
  fun s hs => ⟨_, f s, rfl, h s hs⟩

theorem bind {f : α → EStateM ε σ β} (hx : Keeps P x) (hf : ∀ r, Keeps P (f r)) : Keeps P (x >>= f) := by
  intro s h
  obtain ⟨r, t, hr, ht⟩ := hx s h
  obtain ⟨r', u, hr', hu⟩ := hf r t ht
  exact ⟨r', u, (bind_of_ok hr).trans hr', hu⟩

theorem forM {f : β → EStateM ε σ PUnit} {l : List β} (h : ∀ b ∈ l, Keeps P (f b)) : Keeps P (l.forM f) := by
  induction l with
  | nil => exact pure _
  | cons b l ih => exact bind (h b List.mem_cons_self) fun _ => ih fun c hc => h c (List.mem_cons_of_mem _ hc)

theorem forIn {f : β → γ → EStateM ε σ (ForInStep γ)} (h : ∀ b c, Keeps P (f b c)) (l : List β) (c : γ) :
    Keeps P (ForIn.forIn l c f) := by
  induction l generalizing c with
  | nil => exact pure c
  | cons b l ih =>
    rw [List.forIn_cons]
    refine bind (h b c) fun step => ?_
    cases step with
    | done c => exact pure c
    | yield c => exact ih c

end Keeps

namespace Store

theorem get_update_of_ne {s : Store} {f : Object → Object} (h : r ≠ other) : (s.update other f).get r = s.get r := by
  have hne : other.index ≠ r.index := fun he => h (by cases r; cases other; cases he; rfl)
  simp [get, update, Array.getElem?_modify, hne]

theorem get_update (s : Store) (r : Ref) (f : Object → Object) :
    (s.update r f).get r = s.get r ∨ (s.update r f).get r = f (s.get r) := by
  simp only [get, update, Array.getD_eq_getD_getElem?, Array.getElem?_modify, if_true]
  cases s.objects[r.index]? with
  | none => exact .inl rfl
  | some o => exact .inr rfl

theorem get_update_of_lt {s : Store} (h : r.index < s.objects.size) (f : Object → Object) :
    (s.update r f).get r = f (s.get r) := by
  simp [get, update, Array.getElem_modify, h]

theorem value_update {f : Object → Object} (s : Store) (r other : Ref) (hf : ∀ o, (f o).value = o.value) :
    (s.update other f).value r = s.value r := by
  simp only [value, get, update, Array.getD_eq_getD_getElem?, Array.getElem?_modify]
  split
  · cases s.objects[r.index]? with
    | none => rfl
    | some o => exact hf o
  · rfl

theorem get_alloc_of_lt {s : Store} (h : r.index < s.objects.size) (o : Object) : (s.alloc o).2.get r = s.get r := by
  simp [get, alloc, Array.getElem?_push, Nat.ne_of_lt h]

theorem value_push (s : Store) (o : Object) (r : Ref) :
    (s.alloc o).2.value r = if r.index = s.objects.size then o.value else s.value r := by
  simp only [value, get, alloc, Array.getD_eq_getD_getElem?, Array.getElem?_push]
  split <;> rfl

theorem get_allocUndefined (s : Store) (n : Nat) (r : Ref) : (s.allocUndefined n).2.get r = s.get r := by
  simp only [get, allocUndefined, Array.getD_eq_getD_getElem?, Array.getElem?_append, Array.getElem?_replicate]
  split
  · rfl
  · rename_i h
    rw [Array.getElem?_eq_none (Nat.le_of_not_lt h)]
    split <;> rfl

theorem lt_of_value {s : Store} (h : s.value r ≠ .undefined) : r.index < s.objects.size := by
  apply Nat.lt_of_not_le
  intro hle
  apply h
  simp [value, get, hle]

theorem value_alloc {s : Store} (h : s.value r ≠ .undefined) (o : Object) : (s.alloc o).2.value r = s.value r := by
  rw [value, get_alloc_of_lt (lt_of_value h)]
  rfl

def IsPlain (r : Ref) (s : Store) : Prop :=
  s.value r = .object

theorem IsPlain.update {s : Store} {f : Object → Object} (h : s.IsPlain r) (other : Ref)
    (hf : ∀ o, (f o).value = o.value) : (s.update other f).IsPlain r :=
  (s.value_update r other hf).trans h

theorem IsPlain.alloc {s : Store} (h : s.IsPlain r) (o : Object) : (s.alloc o).2.IsPlain r := by
  have hne : s.value r ≠ .undefined := by
    rw [h]
    exact nofun
  exact (value_alloc hne o).trans h

theorem isPlain_alloc (s : Store) : (s.alloc {}).2.IsPlain (s.alloc {}).1 := by
  simp [IsPlain, value, get, alloc]

end Store

/-- A name stands for a stored property, not for an item of an array. -/
def Object.Stores (o : Object) (name : String) : Prop :=
  ∀ items, o.value = .array items → arrayIndex? name = none

namespace StoreM

theorem property?_of_stored {s : Store} (h : (s.get r).property? name = some (.stored v)) :
    property? r name s = .ok (some v) s := by
  have hobject : object r s = .ok (s.get r) s := rfl
  rw [property?, bind_of_ok hobject, h]
  rfl

theorem property?_of_length {s : Store} (h : (s.get r).property? name = some (.length n)) :
    property? r name s = .ok (some ⟨s.objects.size⟩) (s.alloc { value := .integer (Int32.ofNat n) }).2 := by
  have hobject : object r s = .ok (s.get r) s := rfl
  rw [property?, bind_of_ok hobject, h]
  rfl

theorem property?_of_none {s : Store} (h : (s.get r).property? name = none) : property? r name s = .ok none s := by
  have hobject : object r s = .ok (s.get r) s := rfl
  rw [property?, bind_of_ok hobject, h]
  rfl

theorem setProperty_of_stores {s : Store} (h : (s.get r).Stores name) (new : Ref) :
    setProperty r name new s = .ok () (s.update r fun o => { o with properties := o.properties.insert name new }) := by
  have hobject : object r s = .ok (s.get r) s := rfl
  rw [setProperty, bind_of_ok hobject]
  cases hvalue : (s.get r).value with
  | array items =>
    rw [h items hvalue]
    rfl
  | _ => rfl

theorem setProperty_of_plain {s : Store} (h : s.IsPlain r) (name : String) (new : Ref) :
    setProperty r name new s = .ok () (s.update r fun o => { o with properties := o.properties.insert name new }) := by
  apply setProperty_of_stores
  intro items harray
  cases harray.symm.trans h

theorem setProperty_of_name (hn : arrayIndex? name = none) (r new : Ref) (s : Store) :
    setProperty r name new s = .ok () (s.update r fun o => { o with properties := o.properties.insert name new }) :=
  setProperty_of_stores (fun _ _ => hn) new

end StoreM

structure Value.IsSimple (v : Value) : Prop where
  deferred : v.deferred? = none
  references : v.references = []

theorem Value.isSimple_ofInt (n : Int) : (ofInt n).IsSimple := by
  unfold ofInt
  split
  · exact ⟨rfl, rfl⟩
  · exact ⟨rfl, rfl⟩

/-- A property of machines that is kept by what building on a plain object does: new objects that refer to
nothing, changes of the object itself, and translations of methods. -/
structure BuiltOn (r : Ref) (defers : UInt32 → Prop) (P : Machine → Prop) : Prop where
  plain : ∀ {m}, P m → m.store.IsPlain r
  alloc : ∀ {m} {v : Value}, P m → v.IsSimple → P { m with store := (m.store.alloc { value := v }).2 }
  defer : ∀ {m init}, P m → defers init → P { m with store := (m.store.alloc { value := .deferred init }).2 }
  update : ∀ {m f}, P m → (∀ o, (f o).value = o.value) → P { m with store := m.store.update r f }
  note : ∀ {m} (method), P m → P { m with journal := .translated method :: m.journal }
  compile : ∀ {m} (compiled compileCount), P m → P { m with compiled, compileCount }

def MachineM.IsPlain (r : Ref) (m : Machine) : Prop :=
  m.store.IsPlain r

theorem BuiltOn.isPlain (r : Ref) : BuiltOn r (fun _ => True) (MachineM.IsPlain r) where
  plain h := h
  alloc h _ := Store.IsPlain.alloc h _
  defer h _ := Store.IsPlain.alloc h _
  update h hf := Store.IsPlain.update h r hf
  note _ h := h
  compile _ _ h := h

namespace MachineM

theorem onStore_of_store {x : StoreM α} {m : Machine} (h : x m.store = .ok r s) :
    onStore x m = .ok r { m with store := s } := by
  simp only [onStore, h]

variable {P : Machine → Prop}

theorem keeps_fresh (h : BuiltOn r defers P) {v : Value} (hv : v.IsSimple) : Keeps P (fresh v) :=
  fun m hm => ⟨_, { m with store := (m.store.alloc { value := v }).2 }, rfl, h.alloc hm hv⟩

theorem keeps_compile (h : BuiltOn r defers P) (method : UInt32) : Keeps P (compile method) := by
  refine .bind .get fun m => ?_
  split
  · exact .pure _
  · split
    · exact .pure _
    · refine .bind (.bind (.modify fun _ hm => h.note method hm) fun _ => .bind .get fun _ => .pure _) fun translated => ?_
      split
      · exact .bind (.modify fun _ hm => h.compile _ _ hm) fun _ => .pure _
      · exact .bind (.modify fun _ hm => h.compile _ _ hm) fun _ => .pure _

theorem keeps_placeholder (h : BuiltOn r defers P) {init : Option UInt32} (hi : ∀ i ∈ init, defers i) :
    Keeps P (placeholder init) := by
  cases init with
  | none => exact keeps_fresh h ⟨rfl, rfl⟩
  | some init =>
    intro m hm
    exact ⟨_, { m with store := (m.store.alloc { value := .deferred init }).2 }, rfl, h.defer hm (hi init rfl)⟩

theorem keeps_methodValue (h : BuiltOn r defers P) (method : UInt32) : Keeps P (methodValue method) :=
  .bind (keeps_compile h method) fun _ => keeps_fresh h ⟨rfl, rfl⟩

theorem keeps_update (h : BuiltOn r defers P) {f : Object → Object} (hf : ∀ o, (f o).value = o.value) :
    Keeps P (onStore (StoreM.update r f)) :=
  fun m hm => ⟨(), { m with store := m.store.update r f }, rfl, h.update hm hf⟩

theorem keeps_bindSlot (h : BuiltOn r defers P) (id : UInt32) (name : String) : Keeps P (bindSlot r id name) := by
  refine keeps_update h fun o => ?_
  unfold Object.bindSlot
  split <;> rfl

theorem keeps_setProperty (h : BuiltOn r defers P) (name : String) (new : Ref) : Keeps P (setProperty r name new) := by
  intro m hm
  refine ⟨(), { m with store := m.store.update r fun o => { o with properties := o.properties.insert name new } }, ?_, ?_⟩
  · simp only [setProperty, onStore, StoreM.setProperty_of_plain (h.plain hm)]
  · exact h.update hm fun _ => rfl

theorem isSimple_constant (pool : Pool) (index : UInt32) (kind : ConstantKind) : (constant pool index kind).IsSimple := by
  cases kind with
  | uint => exact Value.isSimple_ofInt _
  | _ => exact ⟨rfl, rfl⟩

theorem keeps_buildSlot (h : BuiltOn r defers P) (name : String) (s : SlotTrait) {init : Option UInt32}
    (hi : ∀ i ∈ init, defers i) : Keeps P (buildSlot r name s init) := by
  unfold buildSlot
  split
  · refine .bind .get fun m => ?_
    split
    · exact keeps_bindSlot h s.slotId name
    · exact .bind (keeps_placeholder h hi) fun _ => .bind (keeps_setProperty h name _) fun _ =>
        keeps_bindSlot h s.slotId name
  · split
    · exact .bind .get fun _ => .bind (keeps_fresh h (isSimple_constant _ _ _)) fun _ =>
      .bind (keeps_setProperty h name _) fun _ =>
        keeps_bindSlot h s.slotId name
    · exact .bind (keeps_fresh h ⟨rfl, rfl⟩) fun _ => keeps_setProperty h name _

theorem keeps_buildTrait (h : BuiltOn r defers P) {init : Option UInt32} (hi : ∀ i ∈ init, defers i) (t : Trait) :
    Keeps P (buildTrait r init t) := by
  refine .bind .get fun m => ?_
  dsimp only
  split
  · exact .bind (keeps_placeholder h hi) fun _ => .bind (keeps_setProperty h _ _) fun _ => keeps_bindSlot h _ _
  · exact .bind (keeps_methodValue h _) fun _ => keeps_setProperty h _ _
  · exact .bind (keeps_methodValue h _) fun _ => keeps_update h fun _ => rfl
  · exact .bind (keeps_methodValue h _) fun _ => keeps_update h fun _ => rfl
  · exact .bind (keeps_methodValue h _) fun _ => .bind (keeps_setProperty h _ _) fun _ => keeps_bindSlot h _ _
  · split
    · exact .bind (keeps_placeholder h hi) fun _ => .bind (keeps_setProperty h _ _) fun _ => keeps_bindSlot h _ _
    · exact keeps_buildSlot h _ _ hi
  · exact keeps_buildSlot h _ _ hi

theorem keeps_buildTraits (h : BuiltOn r defers P) (traits : List Trait) (init : Option UInt32)
    (hi : ∀ i ∈ init, defers i) : Keeps P (buildTraits r traits init) :=
  .forM fun t _ => keeps_buildTrait h hi t

end MachineM

end ActionVm
