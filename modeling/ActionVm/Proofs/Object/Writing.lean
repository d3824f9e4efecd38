import ActionVm.Proofs.Machine.Plain
import Mathlib.Algebra.Group.Nat.Defs

namespace ActionVm

inductive Act where
  | fresh (value : Value)
  | setProperty (r : Ref) (name : String) (value : Ref)
  | removeProperty (r : Ref) (name : String)
  | setSlot (r : Ref) (id : UInt32) (value : Ref)
  | bindSlot (r : Ref) (id : UInt32) (name : String)

def Act.run : Act → StoreM Unit
  | fresh value => discard (StoreM.fresh value)
  | setProperty r name value => StoreM.setProperty r name value
  | removeProperty r name => discard (StoreM.removeProperty r name)
  | setSlot r id value => StoreM.setSlot r id value
  | bindSlot r id name => StoreM.update r (·.bindSlot id name)

namespace Object

/-- An array has no room for the item that a name denotes. -/
def Refuses (o : Object) (name : String) : Prop :=
  ∃ items i, o.value = .array items ∧ arrayIndex? name = some i ∧ 2 ^ 60 - 1 ≤ i

/-- The items of an array and its stored properties share no name. -/
def Separate (o : Object) : Prop :=
  ∀ name ∈ o.properties, o.Stores name

theorem item_or_stores (o : Object) (name : String) :
    (∃ items i, o.value = .array items ∧ arrayIndex? name = some i) ∨ o.Stores name := by
  cases hvalue : o.value with
  | array items =>
    cases hindex : arrayIndex? name with
    | none => exact .inr fun _ _ => hindex
    | some i => exact .inl ⟨items, i, rfl, rfl⟩
  | _ =>
    apply Or.inr
    intro items harray
    cases hvalue.symm.trans harray

section PutItem

variable {o : Object} {items : Array Ref} (h : o.value = .array items) (filling : List Ref) (i : Nat)
  (item : Ref)

include h

theorem putItem_eq :
    o.putItem filling i item = { o with value := .array ((items ++ filling.toArray).setIfInBounds i item) } := by
  obtain ⟨value⟩ := o
  cases h
  have happend : items ++ filling = items ++ filling.toArray := Array.ext' (by simp)
  rw [← happend]
  rfl

theorem properties_putItem : (o.putItem filling i item).properties = o.properties := by
  rw [putItem_eq h]

theorem slot?_putItem (id : UInt32) : (o.putItem filling i item).slot? id = o.slot? id := by
  rw [putItem_eq h]
  rfl

theorem intrinsic?_putItem (name : String) :
    (o.putItem filling i item).intrinsic? name =
      if name = "length" then some (.length (items.size + filling.length))
      else (arrayIndex? name).bind fun j => ((items ++ filling.toArray).setIfInBounds i item)[j]?.map .stored := by
  rw [putItem_eq h]
  simp only [intrinsic?, Array.size_setIfInBounds, Array.size_append, List.size_toArray]

theorem intrinsic?_of_array (name : String) :
    o.intrinsic? name =
      if name = "length" then some (.length items.size)
      else (arrayIndex? name).bind fun j => items[j]?.map .stored := by
  simp only [intrinsic?, h]

end PutItem

theorem property?_of_not_mem {o : Object} (h : name ∉ o.properties) : o.property? name = o.intrinsic? name := by
  rw [property?, Std.TreeMap.getElem?_eq_none h]

theorem getElem?_putItem {items : Array Ref} {filling : List Ref} {i : Nat}
    (hfilling : filling.length = i + 1 - items.size) (v : Ref) (j : Nat) :
    ((items ++ filling.toArray).setIfInBounds i v)[j]? = items[j]? ∨
    (i = j ∧ ((items ++ filling.toArray).setIfInBounds i v)[j]? = some v) ∨
    (items.size ≤ j ∧ j < i ∧ ∃ u ∈ filling, ((items ++ filling.toArray).setIfInBounds i v)[j]? = some u) := by
  rw [Array.getElem?_setIfInBounds]
  by_cases hij : i = j
  · have hroom : i < (items ++ filling.toArray).size := by
      simp only [Array.size_append, List.size_toArray]
      omega
    rw [if_pos hij, if_pos hroom]
    exact .inr (.inl ⟨hij, rfl⟩)
  · rw [if_neg hij, Array.getElem?_append]
    by_cases hold : j < items.size
    · exact .inl (if_pos hold)
    · rw [if_neg hold, List.getElem?_toArray]
      cases hu : filling[j - items.size]? with
      | none => exact .inl (Array.getElem?_eq_none (Nat.le_of_not_lt hold)).symm
      | some u =>
        obtain ⟨hlt, -⟩ := List.getElem?_eq_some_iff.1 hu
        exact .inr (.inr ⟨by omega, by omega, u, List.mem_of_getElem? hu, rfl⟩)

section Items

variable {o : Object} {items : Array Ref} {name : String} {i : Nat} {filling : List Ref}
  (harray : o.value = .array items) (hfilling : filling.length = i + 1 - items.size)

include harray hfilling

theorem property?_putItem_self (h : o.Separate) (hindex : arrayIndex? name = some i) (v : Ref) :
    (o.putItem filling i v).property? name = some (.stored v) := by
  have hmem : name ∉ (o.putItem filling i v).properties := by
    rw [properties_putItem harray]
    intro hmem
    cases hindex.symm.trans (h name hmem items harray)
  have hlength : name ≠ "length" := by
    rintro rfl
    cases hindex
  rw [property?_of_not_mem hmem, intrinsic?_putItem harray, if_neg hlength, hindex, Option.bind_some,
    Array.getElem?_setIfInBounds_self_of_lt]
  · rfl
  · simp only [Array.size_append, List.size_toArray]
    omega

/-- Besides the item itself, an item that is set changes the items that are missing before it and the length. -/
theorem property?_putItem (v : Ref) (other : String) :
    (o.putItem filling i v).property? other = o.property? other ∨
    (arrayIndex? other = some i ∧ (o.putItem filling i v).property? other = some (.stored v)) ∨
    (∃ j, arrayIndex? other = some j ∧ items.size ≤ j ∧ j < i ∧
      ∃ u ∈ filling, (o.putItem filling i v).property? other = some (.stored u)) ∨
    (other = "length" ∧ other ∉ o.properties ∧ items.size ≤ i ∧
      (o.putItem filling i v).property? other = some (.length (i + 1))) := by
  by_cases hmem : other ∈ o.properties
  · apply Or.inl
    simp only [property?, properties_putItem harray, Std.TreeMap.getElem?_eq_some_getElem hmem]
  have hmem' : other ∉ (o.putItem filling i v).properties := by rwa [properties_putItem harray]
  rw [property?_of_not_mem hmem, property?_of_not_mem hmem', intrinsic?_putItem harray,
    intrinsic?_of_array harray]
  by_cases hlength : other = "length"
  · rw [if_pos hlength, if_pos hlength]
    by_cases hnew : items.size ≤ i
    · refine .inr (.inr (.inr ⟨hlength, hmem, hnew, ?_⟩))
      rw [show items.size + filling.length = i + 1 by omega]
    · apply Or.inl
      rw [show items.size + filling.length = items.size by omega]
  · rw [if_neg hlength, if_neg hlength]
    cases hindex : arrayIndex? other with
    | none => exact .inl rfl
    | some j =>
      rw [Option.bind_some, Option.bind_some]
      rcases getElem?_putItem hfilling v j with hold | ⟨rfl, hset⟩ | ⟨hle, hlt, u, hu, hfilled⟩
      · rw [hold]
        exact .inl rfl
      · rw [hset]
        exact .inr (.inl ⟨rfl, rfl⟩)
      · rw [hfilled]
        exact .inr (.inr (.inl ⟨j, rfl, hle, hlt, u, hu, rfl⟩))

end Items

theorem property?_insert_self (o : Object) (name : String) (v : Ref) :
    { o with properties := o.properties.insert name v : Object }.property? name = some (.stored v) := by
  simp only [property?, Std.TreeMap.getElem?_insert_self]

theorem property?_insert_of_ne (o : Object) (h : other ≠ name) (v : Ref) :
    { o with properties := o.properties.insert name v : Object }.property? other = o.property? other := by
  have hne : compare name other ≠ .eq := fun he => h (Std.LawfulEqCmp.eq_of_compare he).symm
  simp only [property?, Std.TreeMap.getElem?_insert, if_neg hne]
  rfl

section Slots

variable {id other : UInt32}

theorem slot?_insert_self (o : Object) (h : id ≠ 0) (slot : Slot) :
    { o with slots := o.slots.insert id slot : Object }.slot? id = some slot := by
  simp only [slot?, if_neg h, Std.TreeMap.getElem?_insert_self]

theorem slot?_insert_of_ne (o : Object) (h : other ≠ id) (slot : Slot) :
    { o with slots := o.slots.insert id slot : Object }.slot? other = o.slot? other := by
  have hne : compare id other ≠ .eq := fun he => h (Std.LawfulEqCmp.eq_of_compare he).symm
  simp only [slot?, Std.TreeMap.getElem?_insert, if_neg hne]

theorem slot?_bindSlot_self (o : Object) (h : id ≠ 0) (name : String) :
    (o.bindSlot id name).slot? id = some (.named name) := by
  rw [bindSlot, if_neg h]
  exact o.slot?_insert_self h _

theorem slot?_bindSlot_of_ne (o : Object) (h : other ≠ id) (name : String) :
    (o.bindSlot id name).slot? other = o.slot? other := by
  unfold bindSlot
  split
  · rfl
  · exact o.slot?_insert_of_ne h _

end Slots

end Object

namespace StoreM

theorem lengthFor_eq (i : Nat) :
    lengthFor i =
      if i < 2 ^ 60 - 1 then .ok (i + 1) else .error (if i < 2 ^ 64 - 1 then .capacity else .sum) := by
  by_cases hsum : i < 2 ^ 64 - 1
  · rw [lengthFor, Bounds.add, UInt64.size, if_pos (by omega), if_pos hsum]
    by_cases hnear : i < 2 ^ 60 - 1
    · rw [if_pos hnear]
      exact if_pos (by omega)
    · rw [if_neg hnear]
      exact if_neg (by omega)
  · rw [lengthFor, Bounds.add, UInt64.size, if_neg (by omega), if_neg hsum, if_neg (by omega)]
    rfl

section Write

variable {s t : Store} {r v : Ref} {name : String} {items : Array Ref} {i : Nat} {id : UInt32}

theorem setProperty_of_item (harray : (s.get r).value = .array items) (hindex : arrayIndex? name = some i)
    (hi : i < 2 ^ 60 - 1) (v : Ref) :
    setProperty r name v s = .ok () ((s.allocUndefined (i + 1 - items.size)).2.update r
      (·.putItem (s.allocUndefined (i + 1 - items.size)).1 i v)) := by
  have hobject : object r s = .ok (s.get r) s := rfl
  rw [setProperty, bind_of_ok hobject, harray, hindex]
  dsimp only
  rw [lengthFor_eq, if_pos hi]
  rfl

theorem setProperty_of_far (harray : (s.get r).value = .array items) (hindex : arrayIndex? name = some i)
    (hfar : ¬i < 2 ^ 60 - 1) (v : Ref) :
    setProperty r name v s = .error (if i < 2 ^ 64 - 1 then .capacity else .sum) s := by
  have hobject : object r s = .ok (s.get r) s := rfl
  rw [setProperty, bind_of_ok hobject, harray, hindex]
  dsimp only
  rw [lengthFor_eq, if_neg hfar]
  rfl

theorem exists_setProperty (h : ¬(s.get r).Refuses name) (v : Ref) :
    ∃ t, setProperty r name v s = .ok () t := by
  rcases (s.get r).item_or_stores name with ⟨items, i, harray, hindex⟩ | hstores
  · have hi : i < 2 ^ 60 - 1 := Nat.lt_of_not_le fun hle => h ⟨items, i, harray, hindex, hle⟩
    exact ⟨_, setProperty_of_item harray hindex hi v⟩
  · exact ⟨_, setProperty_of_stores hstores v⟩

theorem setProperty_cases (h : setProperty r name v s = .ok () t) :
    (∃ items i, (s.get r).value = .array items ∧ arrayIndex? name = some i ∧
      t = (s.allocUndefined (i + 1 - items.size)).2.update r
        (·.putItem (s.allocUndefined (i + 1 - items.size)).1 i v)) ∨
    ((s.get r).Stores name ∧ t = s.update r fun o => { o with properties := o.properties.insert name v }) := by
  rcases (s.get r).item_or_stores name with ⟨items, i, harray, hindex⟩ | hstores
  · by_cases hi : i < 2 ^ 60 - 1
    · rw [setProperty_of_item harray hindex hi] at h
      cases h
      exact .inl ⟨items, i, harray, hindex, rfl⟩
    · rw [setProperty_of_far harray hindex hi] at h
      cases h
  · rw [setProperty_of_stores hstores] at h
    cases h
    exact .inr ⟨hstores, rfl⟩

theorem setSlot_of_named (h : (s.get r).slot? id = some (.named name)) (v : Ref) :
    setSlot r id v s = setProperty r name v s := by
  have hobject : object r s = .ok (s.get r) s := rfl
  rw [setSlot, bind_of_ok hobject, h]

theorem setSlot_of_free (h : ∀ name, (s.get r).slot? id ≠ some (.named name)) (v : Ref) :
    setSlot r id v s =
      .ok () (if id = 0 then s else s.update r fun o => { o with slots := o.slots.insert id (.held v) }) := by
  have hobject : object r s = .ok (s.get r) s := rfl
  rw [setSlot, bind_of_ok hobject]
  cases hslot : (s.get r).slot? id with
  | none => split <;> rfl
  | some slot =>
    cases slot with
    | named name => exact absurd hslot (h name)
    | held _ => split <;> rfl

theorem slot?_of_named (h : (s.get r).slot? id = some (.named name)) : slot? r id s = property? r name s := by
  have hobject : object r s = .ok (s.get r) s := rfl
  rw [slot?, bind_of_ok hobject, h]

theorem slot?_of_held (h : (s.get r).slot? id = some (.held v)) : slot? r id s = .ok (some v) s := by
  have hobject : object r s = .ok (s.get r) s := rfl
  rw [slot?, bind_of_ok hobject, h]
  rfl

end Write

end StoreM

namespace Store

theorem length_allocUndefined (s : Store) (n : Nat) : (s.allocUndefined n).1.length = n := by
  simp [allocUndefined]

theorem le_of_mem_allocUndefined {s : Store} (h : u ∈ (s.allocUndefined n).1) : s.objects.size ≤ u.index := by
  simp only [allocUndefined, List.mem_map, List.mem_range'_1] at h
  obtain ⟨index, ⟨hle, -⟩, rfl⟩ := h
  exact hle

theorem get_of_le {s : Store} (h : s.objects.size ≤ r.index) : s.get r = { value := .undefined } := by
  simp [get, h]

end Store

namespace Act

/-- What an act does to the object at a reference. -/
inductive Alters (r : Ref) : Act → Object → Object → Prop where
  | rest : Alters r act o o
  | made : Alters r (.fresh v) { value := .undefined } { value := v }
  | item (harray : o.value = .array items) : Alters r (.setProperty r name v) o (o.putItem filling i v)
  | stored (h : o.Stores name) :
    Alters r (.setProperty r name v) o { o with properties := o.properties.insert name v }
  | removed : Alters r (.removeProperty r name) o { o with properties := o.properties.erase name }
  | through {id : UInt32} (h : Alters r (.setProperty q name v) o p) : Alters r (.setSlot q id v) o p
  | held {id : UInt32} (h : ∀ name, o.slot? id ≠ some (.named name)) :
    Alters r (.setSlot r id v) o { o with slots := o.slots.insert id (.held v) }
  | bound {id : UInt32} : Alters r (.bindSlot r id name) o (o.bindSlot id name)

section Alters

variable {s t : Store} {r v : Ref} {name : String} {act : Act} {o p : Object} {id : UInt32}

theorem alters_update {f : Object → Object} (h : Alters r act (s.get r) (f (s.get r))) (q : Ref) :
    Alters q act (s.get q) ((s.update r f).get q) := by
  by_cases hq : q = r
  · subst hq
    rcases s.get_update q f with hget | hget
    · rw [hget]
      exact .rest
    · rw [hget]
      exact h
  · rw [Store.get_update_of_ne hq]
    exact .rest

theorem alters_setProperty (h : StoreM.setProperty r name v s = .ok () t) (q : Ref) :
    Alters q (.setProperty r name v) (s.get q) (t.get q) := by
  rcases StoreM.setProperty_cases h with ⟨items, i, harray, -, rfl⟩ | ⟨hstores, rfl⟩
  · rw [← s.get_allocUndefined (i + 1 - items.size) q]
    apply alters_update
    apply Alters.item
    rw [Store.get_allocUndefined]
    exact harray
  · exact alters_update (.stored hstores) q

theorem alters_setSlot (h : StoreM.setSlot r id v s = .ok () t) (q : Ref) :
    Alters q (.setSlot r id v) (s.get q) (t.get q) := by
  by_cases hnamed : ∃ name, (s.get r).slot? id = some (.named name)
  · obtain ⟨name, hnamed⟩ := hnamed
    rw [StoreM.setSlot_of_named hnamed] at h
    exact .through (alters_setProperty h q)
  · have hfree (name : String) : (s.get r).slot? id ≠ some (.named name) := fun he => hnamed ⟨name, he⟩
    rw [StoreM.setSlot_of_free hfree] at h
    cases h
    split
    · exact .rest
    · exact alters_update (.held hfree) q

theorem alters_fresh (s : Store) (value : Value) (q : Ref) :
    Alters q (.fresh value) (s.get q) ((s.alloc { value }).2.get q) := by
  by_cases hq : q.index = s.objects.size
  · have hnew : (s.alloc { value }).2.get q = { value } := by simp [Store.get, Store.alloc, hq]
    rw [Store.get_of_le (Nat.le_of_eq hq.symm), hnew]
    exact .made
  · have hold : (s.alloc { value }).2.get q = s.get q := by
      simp [Store.get, Store.alloc, Array.getElem?_push, hq]
    rw [hold]
    exact .rest

theorem alters (h : act.run s = .ok () t) (q : Ref) : act.Alters q (s.get q) (t.get q) := by
  cases act with
  | fresh value =>
    cases h
    exact alters_fresh s value q
  | setProperty r name v => exact alters_setProperty h q
  | removeProperty r name =>
    cases h
    exact alters_update .removed q
  | setSlot r id v => exact alters_setSlot h q
  | bindSlot r id name =>
    cases h
    exact alters_update .bound q

/-- No act gives an array a stored property with the name of an item. -/
theorem Alters.separate (h : act.Alters r o p) (ho : o.Separate) : p.Separate := by
  induction h with
  | rest => exact ho
  | made =>
    intro name hname
    exact absurd hname Std.TreeMap.not_mem_emptyc
  | item harray =>
    intro name hname items hitems
    rw [Object.properties_putItem harray] at hname
    exact ho name hname _ harray
  | stored hstores =>
    intro name hname
    rcases Std.TreeMap.mem_insert.1 hname with he | hmem
    · rw [← Std.LawfulEqCmp.eq_of_compare he]
      exact hstores
    · exact ho name hmem
  | removed =>
    intro name hname
    exact ho name (Std.TreeMap.mem_of_mem_erase hname)
  | through _ ih => exact ih ho
  | held _ => exact ho
  | bound =>
    unfold Object.bindSlot
    split
    · exact ho
    · exact ho

theorem Alters.slot?_of_named (h : act.Alters r o p) (hne : ∀ other, act ≠ .bindSlot r id other)
    (ho : o.slot? id = some (.named name)) : p.slot? id = some (.named name) := by
  induction h with
  | rest => exact ho
  | made =>
    unfold Object.slot? at ho
    split at ho
    · cases ho
    · simp at ho
  | item harray =>
    rw [Object.slot?_putItem harray]
    exact ho
  | stored _ => exact ho
  | removed => exact ho
  | through _ ih => exact ih (by simp) ho
  | held hfree =>
    rw [Object.slot?_insert_of_ne]
    · exact ho
    · rintro rfl
      exact hfree _ ho
  | bound =>
    rw [Object.slot?_bindSlot_of_ne]
    · exact ho
    · rintro rfl
      exact hne _ rfl

theorem keeps_run {P : Object → Prop} {acts : List Act}
    (hstep : ∀ act ∈ acts, ∀ o p, act.Alters r o p → P o → P p) (hrun : acts.forM run s = .ok () t)
    (h : P (s.get r)) : P (t.get r) := by
  induction acts generalizing s with
  | nil =>
    cases hrun
    exact h
  | cons act acts ih =>
    obtain ⟨⟨⟩, u, hact, hrest⟩ := bind_eq_ok.1 hrun
    have hu : P (u.get r) := hstep act List.mem_cons_self _ _ (alters hact r) h
    exact ih (fun other hother => hstep other (List.mem_cons_of_mem _ hother)) hrest hu

end Alters

end Act

/-- A property changes along with item `i` of an array, although it was not the one that was set. -/
inductive Store.Displaced (s t : Store) (r v : Ref) (items : Array Ref) (i : Nat) (other : String) : Prop where
  | item (hindex : arrayIndex? other = some i) (hread : (t.get r).property? other = some (.stored v))
  | filled (hindex : arrayIndex? other = some j) (hle : items.size ≤ j) (hlt : j < i)
    (hread : (t.get r).property? other = some (.stored u)) (hundefined : t.value u = .undefined)
  | length (hname : other = "length") (hshown : other ∉ (s.get r).properties) (hle : items.size ≤ i)
    (hread : (t.get r).property? other = some (.length (i + 1)))

namespace StoreM

variable {s t : Store} {r v : Ref} {name : String} {id : UInt32}

theorem get_of_setProperty (hlt : r.index < s.objects.size) (h : setProperty r name v s = .ok () t) :
    (∃ items i filling, (s.get r).value = .array items ∧ arrayIndex? name = some i ∧
      filling.length = i + 1 - items.size ∧ (∀ u ∈ filling, t.value u = .undefined) ∧
      t.get r = (s.get r).putItem filling i v) ∨
    ((s.get r).Stores name ∧ t.get r = { s.get r with properties := (s.get r).properties.insert name v }) := by
  rcases setProperty_cases h with ⟨items, i, harray, hindex, rfl⟩ | ⟨hstores, rfl⟩
  · refine .inl ⟨items, i, _, harray, hindex, s.length_allocUndefined _, ?_, ?_⟩
    · intro u hu
      have hle := Store.le_of_mem_allocUndefined hu
      have hne : u ≠ r := by
        rintro rfl
        omega
      rw [Store.value, Store.get_update_of_ne hne, Store.get_allocUndefined, Store.get_of_le hle]
    · rw [Store.get_update_of_lt, Store.get_allocUndefined]
      simp only [Store.allocUndefined, Array.size_append]
      omega
  · exact .inr ⟨hstores, Store.get_update_of_lt hlt _⟩

theorem property?_of_setProperty (hlt : r.index < s.objects.size) (hseparate : (s.get r).Separate)
    (h : setProperty r name v s = .ok () t) : property? r name t = .ok (some v) t := by
  apply property?_of_stored
  rcases get_of_setProperty hlt h with ⟨items, i, filling, harray, hindex, hfilling, -, hget⟩ | ⟨-, hget⟩
  · rw [hget]
    exact Object.property?_putItem_self harray hfilling hseparate hindex v
  · rw [hget]
    exact Object.property?_insert_self ..

theorem property?_of_setProperty_of_ne (hlt : r.index < s.objects.size)
    (h : setProperty r name v s = .ok () t) (hne : other ≠ name) :
    (t.get r).property? other = (s.get r).property? other ∨
      ∃ items i, (s.get r).value = .array items ∧ arrayIndex? name = some i ∧
        s.Displaced t r v items i other := by
  rcases get_of_setProperty hlt h with
    ⟨items, i, filling, harray, hindex, hfilling, hundefined, hget⟩ | ⟨-, hget⟩
  · rw [hget]
    rcases Object.property?_putItem harray hfilling v other with
      hsame | ⟨hother, hread⟩ | ⟨j, hother, hle, hlt, u, hu, hread⟩ | ⟨hother, hmem, hle, hread⟩
    · exact .inl hsame
    · rw [← hget] at hread
      exact .inr ⟨items, i, harray, hindex, .item hother hread⟩
    · rw [← hget] at hread
      exact .inr ⟨items, i, harray, hindex, .filled hother hle hlt hread (hundefined u hu)⟩
    · rw [← hget] at hread
      exact .inr ⟨items, i, harray, hindex, .length hother hmem hle hread⟩
  · rw [hget]
    exact .inl (Object.property?_insert_of_ne _ hne v)

theorem exists_setSlot (h : ∀ name, (s.get r).slot? id = some (.named name) → ¬(s.get r).Refuses name)
    (v : Ref) : ∃ t, setSlot r id v s = .ok () t := by
  by_cases hnamed : ∃ name, (s.get r).slot? id = some (.named name)
  · obtain ⟨name, hnamed⟩ := hnamed
    rw [setSlot_of_named hnamed]
    exact exists_setProperty (h name hnamed) v
  · rw [setSlot_of_free fun name he => hnamed ⟨name, he⟩]
    exact ⟨_, rfl⟩

theorem slot?_of_setSlot (hlt : r.index < s.objects.size) (hseparate : (s.get r).Separate) (hid : id ≠ 0)
    (h : setSlot r id v s = .ok () t) : slot? r id t = .ok (some v) t := by
  by_cases hnamed : ∃ name, (s.get r).slot? id = some (.named name)
  · obtain ⟨name, hnamed⟩ := hnamed
    rw [setSlot_of_named hnamed] at h
    have hkept : (t.get r).slot? id = some (.named name) :=
      (Act.alters_setProperty h r).slot?_of_named (by simp) hnamed
    rw [slot?_of_named hkept]
    exact property?_of_setProperty hlt hseparate h
  · rw [setSlot_of_free fun name he => hnamed ⟨name, he⟩, if_neg hid] at h
    cases h
    apply slot?_of_held
    rw [Store.get_update_of_lt hlt]
    exact Object.slot?_insert_self _ hid _

end StoreM

/-- What can be relied on when an object is written to. -/
structure Store.Lawful (s : Store) (r : Ref) : Prop where
  /-- A property that is set is read back. The others stay as they are, but for items of an array that are
  set or filled along with it, and its length. -/
  setProperty : ∀ name v, ¬(s.get r).Refuses name → ∃ t, StoreM.setProperty r name v s = .ok () t ∧
    StoreM.property? r name t = .ok (some v) t ∧
    ∀ other, other ≠ name → (t.get r).property? other = (s.get r).property? other ∨
      ∃ items i, (s.get r).value = .array items ∧ arrayIndex? name = some i ∧ s.Displaced t r v items i other
  /-- An item for which an array has no room is refused, and nothing changes. -/
  refusal : ∀ name v items i, (s.get r).value = .array items → arrayIndex? name = some i → 2 ^ 60 - 1 ≤ i →
    StoreM.setProperty r name v s = .error (if i < 2 ^ 64 - 1 then .capacity else .sum) s
  setSlot : ∀ id v, id ≠ 0 → (∀ name, (s.get r).slot? id = some (.named name) → ¬(s.get r).Refuses name) →
    ∃ t, StoreM.setSlot r id v s = .ok () t ∧ StoreM.slot? r id t = .ok (some v) t
  /-- A slot that is bound to a name reads that property, whatever happens until it is bound again. -/
  bindSlot : ∀ id name later t, id ≠ 0 → (∀ act ∈ later, ∀ other, act ≠ .bindSlot r id other) →
    (Act.bindSlot r id name :: later).forM Act.run s = .ok () t →
    (t.get r).slot? id = some (.named name) ∧ StoreM.slot? r id t = StoreM.property? r name t
  /-- No stored property of an array has the name of an item. -/
  separate : ∀ items, (s.get r).value = .array items → ∀ name ∈ (s.get r).properties, arrayIndex? name = none

/-- Objects are lawful after every run of acts since they were made. -/
theorem objects_are_lawful {s₀ s : Store} {acts : List Act} (hrun : acts.forM Act.run s₀ = .ok () s) {r : Ref}
    (hnew : s₀.objects.size ≤ r.index) (hlt : r.index < s.objects.size) : s.Lawful r := by
  have hseparate : (s.get r).Separate := by
    apply Act.keeps_run (fun act _ o p h => h.separate) hrun
    rw [Store.get_of_le hnew]
    intro name hname
    exact absurd hname Std.TreeMap.not_mem_emptyc
  constructor
  case setProperty =>
    intro name v hnear
    obtain ⟨t, ht⟩ := StoreM.exists_setProperty hnear v
    exact ⟨t, ht, StoreM.property?_of_setProperty hlt hseparate ht,
      fun other hne => StoreM.property?_of_setProperty_of_ne hlt ht hne⟩
  case refusal =>
    intro name v items i harray hindex hfar
    exact StoreM.setProperty_of_far harray hindex (Nat.not_lt_of_le hfar) v
  case setSlot =>
    intro id v hid hnear
    obtain ⟨t, ht⟩ := StoreM.exists_setSlot hnear v
    exact ⟨t, ht, StoreM.slot?_of_setSlot hlt hseparate hid ht⟩
  case bindSlot =>
    intro id name later t hid hlater ht
    have hbound : ((s.update r (·.bindSlot id name)).get r).slot? id = some (.named name) := by
      rw [Store.get_update_of_lt hlt]
      exact Object.slot?_bindSlot_self _ hid name
    have hkept : (t.get r).slot? id = some (.named name) :=
      Act.keeps_run (fun act hact o p h => h.slot?_of_named (hlater act hact)) ht hbound
    exact ⟨hkept, StoreM.slot?_of_named hkept⟩
  case separate =>
    intro items harray name hname
    exact hseparate name hname items harray

def Act.growth : List Act :=
  [.fresh (.array #[]), .bindSlot ⟨0⟩ 1 "+2", .setSlot ⟨0⟩ 1 ⟨0⟩, .setProperty ⟨0⟩ "length" ⟨1⟩]

theorem grown_array_is_lawful :
    ∃ s, Act.growth.forM Act.run {} = .ok () s ∧ s.value ⟨0⟩ = .array #[⟨1⟩, ⟨2⟩, ⟨0⟩] ∧ s.Lawful ⟨0⟩ := by
  have hrun : ∃ s, Act.growth.forM Act.run {} = .ok () s ∧ s.value ⟨0⟩ = .array #[⟨1⟩, ⟨2⟩, ⟨0⟩] := ⟨_, rfl, rfl⟩
  obtain ⟨s, hrun, hvalue⟩ := hrun
  have hlt : 0 < s.objects.size := Store.lt_of_value (r := ⟨0⟩) (by simp [hvalue])
  exact ⟨s, hrun, hvalue, objects_are_lawful hrun (Nat.le_refl 0) hlt⟩

/-- An array refuses an item although its index can be counted to. -/
theorem far_item_is_refused :
    arrayIndex? "1152921504606846975" = some (2 ^ 60 - 1) ∧ 2 ^ 60 - 1 < 2 ^ 64 - 1 ∧
    ∃ s, [Act.fresh (.integer 1), .fresh (.array #[⟨0⟩]), .fresh .null,
      .setProperty ⟨1⟩ "1152921504606846975" ⟨2⟩].forM Act.run {} = .error .capacity s :=
  ⟨by decide, by decide, _, rfl⟩

end ActionVm
