import ActionVm.Proofs.Machine.Plain
import Mathlib.Data.List.Induction
import Mathlib.Order.Bounds.Defs

namespace ActionVm

theorem Pool.nameText_of_static {p : Pool} (h : p.staticName? index = some name) : p.nameText index = name := by
  have hstatic := h
  unfold staticName? at h
  unfold nameText
  cases hname : p.multiname? index with
  | none => simp [hname] at h
  | some multiname =>
    cases multiname with
    | any | qname => simpa [hname] using h
    | multiname => simp [hstatic]
    | rtqname | rtqnameL | multinameL => simp [hname] at h

namespace Document

def placesOf (instances : List Instance) (nameOf : Instance → String) (name : String) : Set Nat :=
  {k | ∃ i, instances[k]? = some i ∧ nameOf i = name}

theorem placesOf_append_of_eq {nameOf : Instance → String} (h : nameOf last = name) (l : List Instance) :
    IsGreatest (placesOf (l ++ [last]) nameOf name) l.length := by
  constructor
  · exact ⟨last, by simp, h⟩
  · rintro k ⟨i, hi, -⟩
    obtain ⟨hk, -⟩ := List.getElem?_eq_some_iff.mp hi
    rw [List.length_append, List.length_singleton] at hk
    exact Nat.le_of_lt_succ hk

theorem placesOf_append_of_ne {nameOf : Instance → String} (h : nameOf last ≠ name) (l : List Instance) :
    placesOf (l ++ [last]) nameOf name = placesOf l nameOf name := by
  ext k
  constructor
  · rintro ⟨i, hi, hname⟩
    rw [List.getElem?_append] at hi
    split at hi
    · exact ⟨i, hi, hname⟩
    · obtain rfl := List.mem_singleton.mp (List.mem_of_getElem? hi)
      exact absurd hname h
  · rintro ⟨i, hi, hname⟩
    obtain ⟨hk, -⟩ := List.getElem?_eq_some_iff.mp hi
    exact ⟨i, (List.getElem?_append_left hk).trans hi, hname⟩

theorem placesOf_congr {nameOf nameOf' : Instance → String} (h : ∀ i ∈ l, nameOf i = name ↔ nameOf' i = name) :
    placesOf l nameOf name = placesOf l nameOf' name := by
  ext k
  constructor
  · rintro ⟨i, hi, hname⟩
    exact ⟨i, hi, (h i (List.mem_of_getElem? hi)).mp hname⟩
  · rintro ⟨i, hi, hname⟩
    exact ⟨i, hi, (h i (List.mem_of_getElem? hi)).mpr hname⟩

theorem getElem?_foldl_insert (nameOf : Instance → String) (l : List Instance) (name : String) :
    (∃ j, (l.zipIdx.foldl (fun index (i, n) => index.insert (nameOf i) n) ({} : Std.TreeMap String Nat))[name]? =
        some j ∧ IsGreatest (placesOf l nameOf name) j) ∨ ∀ i ∈ l, nameOf i ≠ name := by
  induction l using List.reverseRecOn with
  | nil => exact .inr (by simp)
  | append_singleton l last ih =>
    rw [List.zipIdx_append, List.foldl_append]
    simp only [List.zipIdx_singleton, List.foldl_cons, List.foldl_nil, Std.TreeMap.getElem?_insert]
    by_cases hlast : nameOf last = name
    · left
      exact ⟨l.length, by simp [hlast], placesOf_append_of_eq hlast l⟩
    · rw [placesOf_append_of_ne hlast, if_neg (by simpa using hlast)]
      obtain hfound | hnone := ih
      · exact .inl hfound
      · right
        intro i hi
        obtain hi | hi := List.mem_append.mp hi
        · exact hnone i hi
        · obtain rfl := List.mem_singleton.mp hi
          exact hlast

/-- The index finds the last class of a name. -/
theorem classByName?_of_mem {d : Document} (h : ∃ i ∈ d.instances, d.className i = name) :
    ∃ j, d.classByName? name = some j ∧ IsGreatest (placesOf d.instances d.className name) j := by
  obtain hfound | hnone := getElem?_foldl_insert d.className d.instances name
  · exact hfound
  · obtain ⟨i, hi, hname⟩ := h
    exact absurd hname (hnone i hi)

theorem className_iff_nameText {d : Document}
    (h : ∀ i ∈ d.instances, d.pool.staticName? i.name = none →
      (d.pool.string i.name = name ↔ d.pool.nameText i.name = name)) :
    ∀ i ∈ d.instances, d.className i = name ↔ d.pool.nameText i.name = name := by
  intro i hi
  unfold className
  cases hstatic : d.pool.staticName? i.name with
  | some static => rw [Pool.nameText_of_static hstatic, Option.getD_some]
  | none => exact h i hi hstatic

end Document

theorem Object.properties_bindSlot (o : Object) (id : UInt32) (name : String) :
    (o.bindSlot id name).properties = o.properties := by
  unfold bindSlot
  split <;> rfl

namespace MachineM

theorem newClass_names {m : Machine} {index : UInt32} (hclass : m.document.classes[index.toNat]? = some info)
    (hinst : m.document.instances[index.toNat]? = some inst) (invoke : Invoke) (base : Ref) :
    ∃ built m₁, (m₁.store.get built).className = m.document.pool.nameText inst.name ∧
      newClass invoke base index m = (do
        let _ ← compile info.init
        buildTraits built info.traits none
        let _ ← holding [base, built] (invoke (.method info.init) built [])
        return built : MachineM Ref) m₁ := by
  let built := (m.store.alloc (m.store.get base)).1
  let copied := { m with store := (m.store.alloc (m.store.get base)).2 }
  let named := { copied with
    store := copied.store.update built ({ · with className := m.document.pool.nameText inst.name }) }
  have hcopy : onStore (StoreM.copy base) m = .ok built copied := rfl
  have hname : onStore (StoreM.setClassName built (m.document.pool.nameText inst.name)) copied = .ok () named := rfl
  refine ⟨built, named, ?_, ?_⟩
  · have hlt : built.index < copied.store.objects.size := by simp [built, copied, Store.alloc]
    exact congrArg Object.className (Store.get_update_of_lt hlt _)
  · have hget : (get : MachineM Machine) m = .ok m m := rfl
    rw [newClass, bind_of_ok hget, bind_of_ok hcopy, hclass]
    dsimp only
    rw [hinst]
    dsimp only
    rw [bind_of_ok hname]

theorem buildTrait_classDef {m : Machine} (hplain : IsPlain r m) (init : Option UInt32) {t : Trait}
    (ht : t.kind = .classDef slotId cls) :
    ∃ m', buildTrait r init t m = .ok () m' ∧
      (m'.store.get r).hasProperty (m.document.pool.nameText t.name) = true := by
  let name := m.document.pool.nameText t.name
  have hget : (get : MachineM Machine) m = .ok m m := rfl
  have hplaceholder : Keeps (IsPlain r) (placeholder init) := keeps_placeholder (.isPlain r) fun _ _ => trivial
  obtain ⟨p, m₁, hp, hplain₁⟩ := hplaceholder m hplain
  let m₂ := { m₁ with store := m₁.store.update r fun o => { o with properties := o.properties.insert name p } }
  let m₃ := { m₂ with store := m₂.store.update r (·.bindSlot slotId name) }
  have hset : setProperty r name p m₁ = .ok () m₂ := by
    simp only [setProperty, onStore, StoreM.setProperty_of_plain hplain₁, m₂]
  have hslot : bindSlot r slotId name m₂ = .ok () m₃ := rfl
  refine ⟨m₃, ?_, ?_⟩
  · rw [buildTrait, bind_of_ok hget, ht]
    dsimp only
    rw [bind_of_ok hp, bind_of_ok hset]
    exact hslot
  · have hlt : r.index < m₁.store.objects.size := by
      apply Store.lt_of_value
      rw [hplain₁]
      simp
    have hlt₂ : r.index < m₂.store.objects.size := by simpa [m₂, Store.update] using hlt
    have hobject : m₃.store.get r = Object.bindSlot _ slotId name := Store.get_update_of_lt hlt₂ _
    have hset₂ : (m₂.store.get r).properties[name]? = some p := by
      rw [Store.get_update_of_lt hlt]
      exact Std.TreeMap.getElem?_insert_self
    rw [hobject, Object.hasProperty, Object.property?, Object.properties_bindSlot, hset₂]
    rfl

end MachineM

namespace Document

/-- A class is indexed under the name that its class object and the property of its declaration have. The index
holds the last class of that name, unless a name is in play that does not resolve without running code: then the
string with its number is to be the same name, or neither is. -/
theorem classes_are_indexed_by_name (d : Document) (k : Nat) (inst : Instance) (hinst : d.instances[k]? = some inst)
    (hstatic : ∀ i ∈ d.instances, d.pool.staticName? i.name = none →
      (d.pool.string i.name = d.pool.nameText inst.name ↔ d.pool.nameText i.name = d.pool.nameText inst.name)) :
    (∃ j, d.classByName? (d.pool.nameText inst.name) = some j ∧
      IsGreatest (placesOf d.instances (fun i => d.pool.nameText i.name) (d.pool.nameText inst.name)) j) ∧
    (∀ invoke base (index : UInt32) (m : Machine) info, m.document = d → index.toNat = k → d.classes[k]? = some info →
      ∃ built m₁, (m₁.store.get built).className = d.pool.nameText inst.name ∧
        MachineM.newClass invoke base index m = (do
          let _ ← MachineM.compile info.init
          MachineM.buildTraits built info.traits none
          let _ ← MachineM.holding [base, built] (invoke (.method info.init) built [])
          return built : MachineM Ref) m₁) ∧
    ∀ r init (t : Trait) slotId cls (m : Machine), m.document = d → m.store.IsPlain r → t.name = inst.name →
      t.kind = .classDef slotId cls →
      ∃ m', MachineM.buildTrait r init t m = .ok () m' ∧
        (m'.store.get r).hasProperty (d.pool.nameText inst.name) = true := by
  refine ⟨?_, ?_, ?_⟩
  · have hsame := className_iff_nameText hstatic
    have hmem := List.mem_of_getElem? hinst
    have hplaces : placesOf d.instances d.className (d.pool.nameText inst.name) =
        placesOf d.instances (fun i => d.pool.nameText i.name) (d.pool.nameText inst.name) :=
      placesOf_congr hsame
    rw [← hplaces]
    exact classByName?_of_mem ⟨inst, hmem, (hsame inst hmem).mpr rfl⟩
  · rintro invoke base index m info rfl rfl hclass
    exact MachineM.newClass_names hclass hinst invoke base
  · rintro r init t slotId cls m rfl hplain hname hkind
    rw [← hname]
    exact MachineM.buildTrait_classDef hplain init hkind

def classesNamed (multinames : List Multiname) : Document where
  pool := {
    strings := ["p", "A", "q"]
    namespaces := [{ kind := Namespace.package, name := 1 }, { kind := Namespace.package, name := 3 }]
    nsSets := [[1], [1, 2]]
    multinames }
  instances := multinames.zipIdx.map fun (_, k) => { name := UInt32.ofNat (k + 1), superName := 0, init := 0 }

def namesakes : Document :=
  classesNamed [.qname 1 2 false, .multiname 2 1 false, .rtqname 2 false]

theorem last_namesake_is_indexed :
    ∃ j, namesakes.classByName? "p.A" = some j ∧
      IsGreatest (placesOf namesakes.instances (fun i => namesakes.pool.nameText i.name) "p.A") j :=
  (classes_are_indexed_by_name namesakes 0 _ rfl (by decide +kernel)).1

/-- A class whose name is in two packages is indexed under the string with the number of that name. -/
theorem ambiguous_class_is_misplaced :
    (classesNamed [.multiname 2 2 false]).pool.nameText 1 = "A" ∧
      (classesNamed [.multiname 2 2 false]).classByName? "A" = none ∧
      (classesNamed [.multiname 2 2 false]).classByName? "p" = some 0 := by
  decide +kernel

end Document

end ActionVm
