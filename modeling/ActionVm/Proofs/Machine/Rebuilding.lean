import ActionVm.Proofs.Machine.Policy
import ActionVm.Proofs.Object.Declaring

namespace ActionVm

def deferral : Option UInt32 → Value
  | some init => .deferred init
  | none => .undefined

def SlotTrait.declaration (pool : Pool) (init : Option UInt32) (name : String) (s : SlotTrait) : Declaration :=
  if s.vindex = 0 then .property name (deferral init) true s.slotId
  else
    match ConstantKind.ofByte? s.vkind with
    | some kind => .property name (MachineM.constant pool s.vindex kind) false s.slotId
    | none => .property name .undefined false 0

namespace Trait

def declaration (pool : Pool) (init : Option UInt32) (t : Trait) : Declaration :=
  let name := pool.nameText t.name
  match t.kind with
  | .classDef slotId _ => .property name (deferral init) false slotId
  | .method m => .property name (.function (.method m.method)) false 0
  | .getter m => .getter name (.function (.method m.method))
  | .setter m => .setter name (.function (.method m.method))
  | .function slotId method => .property name (.function (.method method)) false slotId
  | .constant s =>
    if s.vindex = 0 then .property name (deferral init) false s.slotId else s.declaration pool init name
  | .slot s => s.declaration pool init name

def method? (t : Trait) : Option UInt32 :=
  match t.kind with
  | .method m | .getter m | .setter m => some m.method
  | .function _ method => some method
  | .classDef .. | .constant _ | .slot _ => none

end Trait

theorem Store.update_bindSlot_zero (s : Store) (r : Ref) (name : String) : s.update r (·.bindSlot 0 name) = s := by
  have hsame : (fun o : Object => o.bindSlot 0 name) = id := rfl
  rw [hsame, update]
  congr 1
  apply Array.ext
  · exact Array.size_modify
  · intro i _ _
    rw [Array.getElem_modify]
    split <;> rfl

namespace Machine

def withStore (m : Machine) (s : Store) : Machine :=
  { m with store := s }

/-- The machine once a method is compiled, which is done at most once and only with a body. -/
def compiling (m : Machine) (method : UInt32) : Machine :=
  match m.compiled[method]?, m.document.body? method with
  | none, some body => m.withCode method (m.embedding.translator m.config.mode method body).toOption
  | _, _ => m

def Knows (m : Machine) (method : UInt32) : Prop :=
  m.compiled[method]? = none → m.document.body? method = none

def prepared (m : Machine) (t : Trait) : Machine :=
  match t.method? with
  | some method => m.compiling method
  | none => m

section Compiling

variable {m : Machine} {method other : UInt32} {t : Trait} {traits : List Trait}

theorem store_compiling (m : Machine) (method : UInt32) : (m.compiling method).store = m.store := by
  unfold compiling
  split <;> rfl

theorem document_compiling (m : Machine) (method : UInt32) : (m.compiling method).document = m.document := by
  unfold compiling
  split <;> rfl

theorem compiling_of_knows (h : m.Knows method) : m.compiling method = m := by
  unfold compiling
  split
  · rename_i hnew hbody
    cases hbody.symm.trans (h hnew)
  · rfl

theorem Knows.compiling (h : m.Knows other) (method : UInt32) : (m.compiling method).Knows other := by
  intro hnew
  rw [document_compiling]
  apply h
  unfold Machine.compiling at hnew
  split at hnew
  · by_cases he : other = method
    · rw [he, compiled_withCode_self] at hnew
      cases hnew
    · rwa [compiled_withCode_of_ne he] at hnew
  · exact hnew

theorem knows_compiling (m : Machine) (method : UInt32) : (m.compiling method).Knows method := by
  intro hnew
  rw [document_compiling]
  unfold compiling at hnew
  split at hnew
  · rw [compiled_withCode_self] at hnew
    cases hnew
  · rename_i hbody
    cases h : m.document.body? method with
    | none => rfl
    | some body => exact absurd h (hbody body hnew)

theorem compiling_withStore (m : Machine) (method : UInt32) (s : Store) :
    (m.withStore s).compiling method = (m.compiling method).withStore s := by
  unfold compiling withStore
  dsimp only
  cases m.compiled[method]? with
  | some code => rfl
  | none =>
    cases m.document.body? method with
    | none => rfl
    | some body => rfl

theorem store_prepared (m : Machine) (t : Trait) : (m.prepared t).store = m.store := by
  unfold prepared
  split
  · exact m.store_compiling _
  · rfl

theorem document_prepared (m : Machine) (t : Trait) : (m.prepared t).document = m.document := by
  unfold prepared
  split
  · exact m.document_compiling _
  · rfl

theorem prepared_withStore (m : Machine) (t : Trait) (s : Store) :
    (m.withStore s).prepared t = (m.prepared t).withStore s := by
  unfold prepared
  cases t.method? with
  | some method => exact m.compiling_withStore method s
  | none => rfl

theorem document_foldl_prepared (m : Machine) (traits : List Trait) :
    (traits.foldl prepared m).document = m.document := by
  induction traits generalizing m with
  | nil => rfl
  | cons t traits ih => exact (ih _).trans (m.document_prepared t)

theorem foldl_prepared_withStore (m : Machine) (traits : List Trait) (s : Store) :
    traits.foldl prepared (m.withStore s) = (traits.foldl prepared m).withStore s := by
  induction traits generalizing m with
  | nil => rfl
  | cons t traits ih => rw [List.foldl_cons, List.foldl_cons, prepared_withStore, ih]

theorem foldl_prepared_of_knows (h : ∀ t ∈ traits, ∀ method ∈ t.method?, m.Knows method) :
    traits.foldl prepared m = m := by
  induction traits with
  | nil => rfl
  | cons t traits ih =>
    have hhead : m.prepared t = m := by
      unfold prepared
      split
      · exact compiling_of_knows (h t List.mem_cons_self _ ‹_›)
      · rfl
    rw [List.foldl_cons, hhead]
    exact ih fun u hu => h u (List.mem_cons_of_mem _ hu)

theorem Knows.prepared (h : m.Knows method) (t : Trait) : (m.prepared t).Knows method := by
  unfold Machine.prepared
  split
  · exact h.compiling _
  · exact h

theorem Knows.foldl_prepared (h : m.Knows method) (traits : List Trait) :
    (traits.foldl Machine.prepared m).Knows method := by
  induction traits generalizing m with
  | nil => exact h
  | cons t traits ih => exact ih (h.prepared t)

theorem knows_foldl_prepared (m : Machine) (ht : t ∈ traits) (hmethod : method ∈ t.method?) :
    (traits.foldl prepared m).Knows method := by
  induction traits generalizing m with
  | nil => cases ht
  | cons u traits ih =>
    rcases List.mem_cons.1 ht with rfl | htail
    · have hknows : (m.prepared t).Knows method := by
        rw [prepared, hmethod]
        exact m.knows_compiling method
      exact hknows.foldl_prepared traits
    · exact ih _ htail

end Compiling

end Machine

namespace MachineM

section Parts

variable {r : Ref} {name : String} {v : Value} {yields : Bool} {slot : UInt32} {m : Machine}

theorem compile_eq (method : UInt32) (m : Machine) : ∃ code, compile method m = .ok code (m.compiling method) := by
  unfold Machine.compiling
  cases hc : m.compiled[method]? with
  | some code => exact ⟨code, compile_of_known hc⟩
  | none =>
    cases hb : m.document.body? method with
    | none => exact ⟨none, compile_of_bodiless hc hb⟩
    | some body => exact ⟨_, compile_of_new hc hb⟩

theorem fresh_apply (v : Value) (m : Machine) :
    fresh v m = .ok (m.store.alloc { value := v }).1 (m.withStore (m.store.alloc { value := v }).2) :=
  rfl

theorem methodValue_bind (method : UInt32) (f : Ref → MachineM α) (m : Machine) :
    (methodValue method >>= f) m = (fresh (.function (.method method)) >>= f) (m.compiling method) := by
  obtain ⟨code, hcode⟩ := compile_eq method m
  have hvalue : methodValue method m = fresh (.function (.method method)) (m.compiling method) := bind_of_ok hcode
  rw [bind_of_ok (hvalue.trans (fresh_apply ..)), bind_of_ok (fresh_apply ..)]

theorem placeholder_eq (init : Option UInt32) : placeholder init = fresh (deferral init) := by
  cases init <;> rfl

theorem onStore_bind (x : StoreM α) (f : α → StoreM β) (m : Machine) :
    onStore (x >>= f) m = (onStore x >>= fun a => onStore (f a)) m := by
  simp only [onStore, bind, EStateM.bind]
  cases x m.store <;> rfl

theorem onStore_congr {x y : StoreM α} {s : Store} (h : x m.store = y s) :
    onStore x m = onStore y (m.withStore s) := by
  simp only [onStore, h]
  rfl

theorem onStore_property_of_rests (h : (Declaration.property name v yields slot).Rests (m.store.get r)) :
    onStore ((Declaration.property name v yields slot).run r) m = bindSlot r slot name m :=
  onStore_congr (Declaration.run_property_of_rests h)

theorem onStore_property (h : ¬(Declaration.property name v yields slot).Rests (m.store.get r)) :
    onStore ((Declaration.property name v yields slot).run r) m =
      (fresh v >>= fun x => setProperty r name x >>= fun _ => bindSlot r slot name) m := by
  rw [bind_of_ok (fresh_apply ..), onStore_congr (Declaration.run_property h)]
  exact onStore_bind ..

theorem bindSlot_zero (r : Ref) (name : String) : bindSlot r 0 name = pure () := by
  funext m
  have hupdate : StoreM.update r (·.bindSlot 0 name) m.store = .ok () m.store :=
    congrArg (EStateM.Result.ok ()) (m.store.update_bindSlot_zero r name)
  simp only [bindSlot, onStore, hupdate]
  rfl

theorem onStore_overwriting (r : Ref) (name : String) (v : Value) (slot : UInt32) (m : Machine) :
    onStore ((Declaration.property name v false slot).run r) m =
      (fresh v >>= fun x => setProperty r name x >>= fun _ => bindSlot r slot name) m :=
  onStore_property (Declaration.not_rests_of_overwrites rfl)

theorem onStore_unbound (r : Ref) (name : String) (v : Value) (m : Machine) :
    onStore ((Declaration.property name v false 0).run r) m = (fresh v >>= fun x => setProperty r name x) m := by
  simp only [onStore_overwriting, bindSlot_zero, bind_pure_unit]

end Parts

section Traits

variable {r : Ref} {m m' : Machine} {init : Option UInt32} {t : Trait} {traits : List Trait} {s : Store}

theorem buildSlot_eq (r : Ref) (name : String) (s : SlotTrait) (init : Option UInt32) (m : Machine) :
    buildSlot r name s init m = onStore ((s.declaration m.document.pool init name).run r) m := by
  have hget : (get : MachineM Machine) m = .ok m m := rfl
  unfold buildSlot SlotTrait.declaration
  by_cases hv : s.vindex = 0
  · rw [if_pos hv, if_pos hv, bind_of_ok hget]
    by_cases hhas : (m.store.get r).hasProperty name = true
    · rw [onStore_property_of_rests ⟨rfl, hhas⟩, if_pos hhas]
    · rw [onStore_property fun h => hhas h.2, if_neg hhas, placeholder_eq]
  · rw [if_neg hv, if_neg hv]
    cases ConstantKind.ofByte? s.vkind with
    | none => exact (onStore_unbound ..).symm
    | some kind => exact (onStore_overwriting ..).symm

/-- A trait is compiled and then declared. -/
theorem buildTrait_eq (r : Ref) (init : Option UInt32) (t : Trait) (m : Machine) :
    buildTrait r init t m = onStore ((t.declaration m.document.pool init).run r) (m.prepared t) := by
  have hget : (get : MachineM Machine) m = .ok m m := rfl
  rw [buildTrait, bind_of_ok hget]
  unfold Trait.declaration Machine.prepared Trait.method?
  cases t.kind with
  | classDef slotId _ =>
    dsimp only
    rw [placeholder_eq]
    exact (onStore_overwriting ..).symm
  | method f =>
    exact (methodValue_bind ..).trans (onStore_unbound ..).symm
  | getter f =>
    exact (methodValue_bind ..).trans (onStore_bind ..).symm
  | setter f =>
    exact (methodValue_bind ..).trans (onStore_bind ..).symm
  | function slotId method =>
    exact (methodValue_bind ..).trans (onStore_overwriting ..).symm
  | constant s =>
    dsimp only
    split
    · rw [placeholder_eq]
      exact (onStore_overwriting ..).symm
    · exact buildSlot_eq ..
  | slot s => exact buildSlot_eq ..

theorem buildTrait_of_run (h : (t.declaration m.document.pool init).run r m.store = .ok () s) :
    buildTrait r init t m = .ok () ((m.prepared t).withStore s) := by
  rw [← m.store_prepared t] at h
  rw [buildTrait_eq]
  simp only [onStore, h]
  rfl

theorem run_of_buildTrait (h : buildTrait r init t m = .ok () m') :
    ∃ s, (t.declaration m.document.pool init).run r m.store = .ok () s ∧ m' = (m.prepared t).withStore s := by
  cases hrun : (t.declaration m.document.pool init).run r m.store with
  | ok _ s =>
    rw [buildTrait_of_run hrun] at h
    cases h
    exact ⟨s, rfl, rfl⟩
  | error e s =>
    rw [← m.store_prepared t] at hrun
    rw [buildTrait_eq] at h
    simp only [onStore, hrun] at h
    cases h

theorem buildTraits_of_forM
    (h : (traits.map (Trait.declaration m.document.pool init)).forM (Declaration.run r) m.store = .ok () s) :
    buildTraits r traits init m = .ok () ((traits.foldl Machine.prepared m).withStore s) := by
  induction traits generalizing m with
  | nil =>
    cases h
    rfl
  | cons t traits ih =>
    obtain ⟨_, u, ht, htail⟩ := bind_eq_ok.1 h
    have hdocument : ((m.prepared t).withStore u).document = m.document := m.document_prepared t
    rw [← hdocument] at htail
    refine (bind_of_ok (buildTrait_of_run ht)).trans ((ih htail).trans ?_)
    rw [Machine.foldl_prepared_withStore]
    rfl

theorem forM_of_buildTraits (h : buildTraits r traits init m = .ok () m') :
    ∃ s, (traits.map (Trait.declaration m.document.pool init)).forM (Declaration.run r) m.store = .ok () s ∧
      m' = (traits.foldl Machine.prepared m).withStore s := by
  induction traits generalizing m with
  | nil =>
    cases h
    exact ⟨_, rfl, rfl⟩
  | cons t traits ih =>
    obtain ⟨_, n, ht, htail⟩ := bind_eq_ok.1 h
    obtain ⟨u, hrun, rfl⟩ := run_of_buildTrait ht
    obtain ⟨s, hforM, rfl⟩ := ih htail
    have hdocument : ((m.prepared t).withStore u).document = m.document := m.document_prepared t
    rw [hdocument] at hforM
    refine ⟨s, (bind_of_ok hrun).trans hforM, ?_⟩
    rw [Machine.foldl_prepared_withStore]
    rfl

end Traits

end MachineM

theorem SlotTrait.refuses_of_refused {s : SlotTrait} {o : Object} (h : (s.declaration pool init name).Refused o) :
    o.Refuses name := by
  unfold declaration at h
  split at h
  · exact h
  · split at h <;> exact h

theorem Trait.refuses_of_refused {t : Trait} {o : Object} (h : (t.declaration pool init).Refused o) :
    o.Refuses (pool.nameText t.name) := by
  unfold declaration at h
  cases hkind : t.kind with
  | getter f => rw [hkind] at h; exact h.elim
  | setter f => rw [hkind] at h; exact h.elim
  | slot s => rw [hkind] at h; exact s.refuses_of_refused h
  | constant s =>
    rw [hkind] at h
    dsimp only at h
    split at h
    · exact h
    · exact s.refuses_of_refused h
  | _ => rw [hkind] at h; exact h

/-- Building traits on an object succeeds unless it is an array without room for one of their names, and leaves
what they declare. It then succeeds again, and the second time changes nothing that can be read from the object,
from others or from the rest of the machine. -/
theorem traits_build_once {m : Machine} {r : Ref} (hr : r.index < m.store.objects.size) (traits : List Trait)
    (init : Option UInt32) :
    ((∀ t ∈ traits, ¬(m.store.get r).Refuses (m.document.pool.nameText t.name)) →
      ∃ m₁, MachineM.buildTraits r traits init m = .ok () m₁) ∧
    ∀ m₁, MachineM.buildTraits r traits init m = .ok () m₁ →
      Declaration.Declared r (traits.map (Trait.declaration m.document.pool init)) m.store m₁.store ∧
      ∃ m₂, MachineM.buildTraits r traits init m₁ = .ok () m₂ ∧ m₂ = { m₁ with store := m₂.store } ∧
        Store.Rebuilt r m.store m₁.store m₂.store := by
  constructor
  · intro hfits
    have hready (d : Declaration) (hd : d ∈ traits.map (Trait.declaration m.document.pool init)) :
        d.Rests (m.store.get r) ∨ ¬d.Refused (m.store.get r) := by
      obtain ⟨t, ht, rfl⟩ := List.mem_map.1 hd
      exact .inr fun hrefused => hfits t ht (Trait.refuses_of_refused hrefused)
    obtain ⟨s, hs⟩ := Declaration.exists_forM hr hready
    exact ⟨_, MachineM.buildTraits_of_forM hs⟩
  · intro m₁ h
    obtain ⟨s₁, hs₁, rfl⟩ := MachineM.forM_of_buildTraits h
    have hpass := Declaration.pass_of_forM hr hs₁
    have hr₁ : r.index < s₁.objects.size := Nat.lt_of_lt_of_le hr hpass.grows
    obtain ⟨s₂, hs₂⟩ := Declaration.exists_forM hr₁ fun d hd => (hpass.settled hd).imp_right And.right
    have hpass' := Declaration.pass_of_forM hr₁ hs₂
    have hdocument : ((traits.foldl Machine.prepared m).withStore s₁).document = m.document :=
      m.document_foldl_prepared traits
    have hknown : traits.foldl Machine.prepared ((traits.foldl Machine.prepared m).withStore s₁) =
        (traits.foldl Machine.prepared m).withStore s₁ :=
      Machine.foldl_prepared_of_knows fun t ht method hmethod => m.knows_foldl_prepared ht hmethod
    rw [← hdocument] at hs₂
    have hbuilt := MachineM.buildTraits_of_forM (m := (traits.foldl Machine.prepared m).withStore s₁) hs₂
    rw [hknown] at hbuilt
    exact ⟨Declaration.declared hpass, _, hbuilt, rfl, Declaration.rebuilt hpass hpass'⟩

def Trait.redeclared : List Trait :=
  [{ name := 1, kind := .slot { slotId := 1 } },
    { name := 1, kind := .constant { slotId := 2, vindex := 1, vkind := ConstantKind.int.byte } },
    { name := 2, kind := .slot { slotId := 1 } },
    { name := 2, kind := .method { method := 0 } },
    { name := 1, kind := .getter { method := 0 } }]

def Machine.withArray : Machine where
  document := {
    pool := {
      integers := [7]
      strings := ["x", "2"]
      namespaces := [{ kind := Namespace.package, name := 0 }]
      multinames := [.qname 1 1 false, .qname 1 2 false] } }
  config := {}
  store := { objects := #[{ value := .array #[] }] }
  global := ⟨0⟩

theorem redeclared_traits_build_once :
    (⟨0⟩ : Ref).index < Machine.withArray.store.objects.size ∧
    ∃ m₁ m₂, MachineM.buildTraits ⟨0⟩ Trait.redeclared (some 4) Machine.withArray = .ok () m₁ ∧
      (m₁.store.get ⟨0⟩).slot? 1 = some (.named "2") ∧
      MachineM.buildTraits ⟨0⟩ Trait.redeclared (some 4) m₁ = .ok () m₂ ∧
      Store.Rebuilt ⟨0⟩ Machine.withArray.store m₁.store m₂.store := by
  have hr : (⟨0⟩ : Ref).index < Machine.withArray.store.objects.size := by decide
  obtain ⟨hfirst, hsecond⟩ := traits_build_once hr Trait.redeclared (some 4)
  have hnear : ∀ t ∈ Trait.redeclared,
      (arrayIndex? (Machine.withArray.document.pool.nameText t.name)).all (· < 2 ^ 60 - 1) := by decide +kernel
  have hfits (t : Trait) (ht : t ∈ Trait.redeclared) :
      ¬(Machine.withArray.store.get ⟨0⟩).Refuses (Machine.withArray.document.pool.nameText t.name) := by
    rintro ⟨items, i, -, hindex, hle⟩
    have hi := hnear t ht
    rw [hindex, Option.all_some, decide_eq_true_iff] at hi
    exact Nat.not_le_of_lt hi hle
  obtain ⟨m₁, h₁⟩ := hfirst hfits
  obtain ⟨hdeclared, m₂, h₂, -, hrebuilt⟩ := hsecond m₁ h₁
  have hslot : (m₁.store.get ⟨0⟩).slot? 1 = some (.named "2") := (hdeclared.slots 1).trans (by decide +kernel)
  exact ⟨hr, m₁, m₂, h₁, hslot, h₂, hrebuilt⟩

end ActionVm
