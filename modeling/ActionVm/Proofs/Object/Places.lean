import ActionVm.Proofs.Object.Writing

namespace ActionVm

inductive Place where
  | property (name : String)
  | item (i : Nat)
  | getter (name : String)
  | setter (name : String)
  deriving DecidableEq

def Place.ofName (array : Bool) (name : String) : Place :=
  match array, arrayIndex? name with
  | true, some i => .item i
  | _, _ => .property name

namespace Object

def isArray (o : Object) : Bool :=
  match o.value with
  | .array _ => true
  | _ => false

def ref? (o : Object) : Place → Option Ref
  | .property name => o.properties[name]?
  | .item i => match o.value with
    | .array items => items[i]?
    | _ => none
  | .getter name => o.getters[name]?
  | .setter name => o.setters[name]?

/-- What stays of an object while its properties, accessors and slots are declared. -/
structure SameShape (o p : Object) : Prop where
  isArray : p.isArray = o.isArray
  value : o.isArray = false → p.value = o.value
  className : p.className = o.className
  prototype : p.prototype = o.prototype

theorem SameShape.refl (o : Object) : SameShape o o :=
  ⟨rfl, fun _ => rfl, rfl, rfl⟩

theorem SameShape.trans {o p q : Object} (h : SameShape o p) (h' : SameShape p q) : SameShape o q where
  isArray := h'.isArray.trans h.isArray
  value ho := (h'.value (h.isArray.trans ho)).trans (h.value ho)
  className := h'.className.trans h.className
  prototype := h'.prototype.trans h.prototype

theorem isArray_of_value {o : Object} (h : o.value = .array items) : o.isArray = true := by
  rw [isArray, h]

theorem exists_of_isArray {o : Object} (h : o.isArray = true) : ∃ items, o.value = .array items := by
  unfold isArray at h
  split at h
  · exact ⟨_, ‹_›⟩
  · cases h

theorem ref?_item {o : Object} (h : o.value = .array items) (i : Nat) : o.ref? (.item i) = items[i]? := by
  simp only [ref?, h]

theorem ref?_item_of_not_isArray {o : Object} (h : o.isArray = false) (i : Nat) : o.ref? (.item i) = none := by
  cases hvalue : o.value with
  | array items => cases h.symm.trans (isArray_of_value hvalue)
  | _ => simp only [ref?, hvalue]

theorem ofName_of_index {o : Object} (h : o.value = .array items) (hindex : arrayIndex? name = some i) :
    Place.ofName o.isArray name = .item i := by
  simp only [Place.ofName, isArray_of_value h, hindex]

theorem ofName_of_stores {o : Object} (h : o.Stores name) : Place.ofName o.isArray name = .property name := by
  unfold Place.ofName
  split
  · rename_i harray hindex
    obtain ⟨items, hitems⟩ := exists_of_isArray harray
    cases hindex.symm.trans (h items hitems)
  · rfl

theorem ref?_bindSlot (o : Object) (id : UInt32) (name : String) (place : Place) :
    (o.bindSlot id name).ref? place = o.ref? place := by
  unfold bindSlot
  split
  · rfl
  · cases place <;> rfl

theorem sameShape_bindSlot (o : Object) (id : UInt32) (name : String) : SameShape o (o.bindSlot id name) := by
  unfold bindSlot
  split <;> exact ⟨rfl, fun _ => rfl, rfl, rfl⟩

theorem slot?_bindSlot (o : Object) (id other : UInt32) (name : String) :
    (o.bindSlot id name).slot? other = if id = other ∧ other ≠ 0 then some (.named name) else o.slot? other := by
  by_cases he : other = id
  · subst he
    by_cases hzero : other = 0
    · rw [bindSlot, if_pos hzero, if_neg fun h => h.2 hzero]
    · rw [o.slot?_bindSlot_self hzero, if_pos ⟨rfl, hzero⟩]
  · rw [o.slot?_bindSlot_of_ne he, if_neg fun h => he h.1.symm]

theorem isSome_intrinsic? {o : Object} {name : String} :
    (o.intrinsic? name).isSome ↔ (∃ i, arrayIndex? name = some i ∧ (o.ref? (.item i)).isSome) ∨
      (name = "length" ∧ (o.isArray = true ∨ ∃ s, o.value = .text s)) := by
  unfold intrinsic?
  split
  · rename_i items hvalue
    by_cases hlength : name = "length"
    · simp [hlength, isArray_of_value hvalue]
    · rw [if_neg hlength]
      cases hindex : arrayIndex? name with
      | none => simp [hlength]
      | some i => simp [hlength, ref?_item hvalue]
  · rename_i s hvalue
    have hitem (i : Nat) : o.ref? (.item i) = none := by simp only [ref?, hvalue]
    by_cases hlength : name = "length" <;> simp [hlength, hitem, hvalue]
  · rename_i harray htext
    have hvalue : o.isArray = false := by
      cases h : o.isArray with
      | false => rfl
      | true =>
        obtain ⟨items, hitems⟩ := exists_of_isArray h
        exact absurd hitems (harray items)
    have hother (s : String) : o.value ≠ .text s := htext s
    simp [ref?_item_of_not_isArray hvalue, hvalue, hother]

theorem hasProperty_iff {o : Object} {name : String} :
    o.hasProperty name = true ↔ (o.ref? (.property name)).isSome ∨
      (∃ i, arrayIndex? name = some i ∧ (o.ref? (.item i)).isSome) ∨
      (name = "length" ∧ (o.isArray = true ∨ ∃ s, o.value = .text s)) := by
  rw [← isSome_intrinsic?, hasProperty, property?, ref?]
  cases o.properties[name]? with
  | none => simp
  | some x => simp

theorem refuses_iff {o : Object} {name : String} :
    o.Refuses name ↔ o.isArray = true ∧ ∃ i, arrayIndex? name = some i ∧ 2 ^ 60 - 1 ≤ i := by
  constructor
  · rintro ⟨items, i, harray, hindex, hle⟩
    exact ⟨isArray_of_value harray, i, hindex, hle⟩
  · rintro ⟨harray, i, hindex, hle⟩
    obtain ⟨items, hitems⟩ := exists_of_isArray harray
    exact ⟨items, i, hitems, hindex, hle⟩

end Object

inductive Property.Rel (R : Ref → Ref → Prop) : Property → Property → Prop where
  | stored (h : R x y) : Rel R (.stored x) (.stored y)
  | length : Rel R (.length n) (.length n)

namespace Object

theorem isSome_eq_of_rel {R : Ref → Ref → Prop} (h : Option.Rel R a b) : a.isSome = b.isSome := by
  cases h <;> rfl

theorem rel_map_stored {R : Ref → Ref → Prop} (h : Option.Rel R a b) :
    Option.Rel (Property.Rel R) (a.map .stored) (b.map .stored) := by
  cases h with
  | none => exact .none
  | some hR => exact .some (.stored hR)

section Rel

variable {R : Ref → Ref → Prop} {o p : Object} (h : ∀ place, Option.Rel R (o.ref? place) (p.ref? place))

include h

theorem size_eq_of_rel (ho : o.value = .array items) (hp : p.value = .array items') : items.size = items'.size := by
  have hitem (i : Nat) : Option.Rel R items[i]? items'[i]? := by
    rw [← ref?_item ho, ← ref?_item hp]
    exact h (.item i)
  rcases Nat.lt_trichotomy items.size items'.size with hlt | heq | hlt
  · have hlast := hitem items.size
    rw [Array.getElem?_eq_none (Nat.le_refl _), Array.getElem?_eq_getElem hlt] at hlast
    cases hlast
  · exact heq
  · have hlast := hitem items'.size
    rw [Array.getElem?_eq_none (Nat.le_refl _), Array.getElem?_eq_getElem hlt] at hlast
    cases hlast

theorem rel_intrinsic? (hshape : SameShape o p) (name : String) :
    Option.Rel (Property.Rel R) (o.intrinsic? name) (p.intrinsic? name) := by
  cases ho : o.isArray with
  | true =>
    obtain ⟨items, hitems⟩ := exists_of_isArray ho
    obtain ⟨items', hitems'⟩ := exists_of_isArray (hshape.isArray.trans ho)
    rw [intrinsic?_of_array hitems, intrinsic?_of_array hitems', size_eq_of_rel h hitems hitems']
    split
    · exact .some .length
    · cases arrayIndex? name with
      | none => exact .none
      | some i =>
        have hitem := h (.item i)
        rw [ref?_item hitems, ref?_item hitems'] at hitem
        exact rel_map_stored hitem
  | false =>
    unfold intrinsic?
    rw [hshape.value ho]
    cases hvalue : o.value with
    | array items => cases ho.symm.trans (isArray_of_value hvalue)
    | text s =>
      dsimp only
      split
      · exact .some .length
      · exact .none
    | _ => exact .none

theorem rel_property? (hshape : SameShape o p) (name : String) :
    Option.Rel (Property.Rel R) (o.property? name) (p.property? name) := by
  have hstored : Option.Rel R o.properties[name]? p.properties[name]? := h (.property name)
  unfold property?
  generalize o.properties[name]? = a at hstored ⊢
  generalize p.properties[name]? = b at hstored ⊢
  cases hstored with
  | none => exact rel_intrinsic? h hshape name
  | some hR => exact .some (.stored hR)

theorem propertyNames_eq_of_rel : o.propertyNames = p.propertyNames := by
  have hmem (name : String) : name ∈ o.properties.keys ↔ name ∈ p.properties.keys := by
    have hstored : o.properties[name]?.isSome = p.properties[name]?.isSome := isSome_eq_of_rel (h (.property name))
    rw [Std.TreeMap.mem_keys, Std.TreeMap.mem_keys, Std.TreeMap.mem_iff_isSome_getElem?,
      Std.TreeMap.mem_iff_isSome_getElem?, hstored]
  have hperm := (List.perm_ext_iff_of_nodup Std.TreeMap.nodup_keys Std.TreeMap.nodup_keys).2 hmem
  refine List.Perm.eq_of_pairwise ?_ Std.TreeMap.ordered_keys Std.TreeMap.ordered_keys hperm
  intro a b _ _ hab hba
  exact absurd hba (Std.OrientedCmp.not_lt_of_lt hab)

end Rel

end Object

namespace Store

theorem size_update (s : Store) (r : Ref) (f : Object → Object) : (s.update r f).objects.size = s.objects.size := by
  simp [update]

theorem size_alloc (s : Store) (o : Object) : (s.alloc o).2.objects.size = s.objects.size + 1 := by
  simp [alloc]

theorem size_allocUndefined (s : Store) (n : Nat) : (s.allocUndefined n).2.objects.size = s.objects.size + n := by
  simp [allocUndefined]

theorem get_alloc_self (s : Store) (o : Object) : (s.alloc o).2.get (s.alloc o).1 = o := by
  simp [get, alloc]

/-- What happens when a reference is put at a place of an object. Other places change only if they were
missing, like that place itself. -/
structure Puts (r : Ref) (place : Place) (x : Ref) (s t : Store) : Prop where
  grows : s.objects.size ≤ t.objects.size
  others : ∀ q, q ≠ r → t.get q = s.get q
  shape : (s.get r).SameShape (t.get r)
  slots : ∀ id, (t.get r).slot? id = (s.get r).slot? id
  new : (t.get r).ref? place = some x
  rest : ∀ other, other ≠ place → (t.get r).ref? other = (s.get r).ref? other ∨
    ((s.get r).ref? place = none ∧ (s.get r).ref? other = none)

section Puts

variable {s t : Store} {r x : Ref} (hlt : r.index < s.objects.size)

include hlt

theorem puts_update {f : Object → Object} {place : Place} (hshape : (s.get r).SameShape (f (s.get r)))
    (hslots : ∀ id, (f (s.get r)).slot? id = (s.get r).slot? id) (hnew : (f (s.get r)).ref? place = some x)
    (hrest : ∀ other, other ≠ place → (f (s.get r)).ref? other = (s.get r).ref? other) :
    Puts r place x s (s.update r f) := by
  have hget : (s.update r f).get r = f (s.get r) := get_update_of_lt hlt f
  refine ⟨Nat.le_of_eq (s.size_update r f).symm, fun q hq => get_update_of_ne hq, ?_, ?_, ?_, ?_⟩
  · rw [hget]
    exact hshape
  · rw [hget]
    exact hslots
  · rw [hget]
    exact hnew
  · rw [hget]
    exact fun other hother => .inl (hrest other hother)

theorem puts_getter (name : String) :
    Puts r (.getter name) x s (s.update r fun o => { o with getters := o.getters.insert name x }) := by
  refine puts_update hlt ⟨rfl, fun _ => rfl, rfl, rfl⟩ (fun _ => rfl) Std.TreeMap.getElem?_insert_self ?_
  intro other hother
  cases other with
  | getter key => exact getElem?_insert_of_ne _ (fun he => hother (congrArg Place.getter he)) x
  | _ => rfl

theorem puts_setter (name : String) :
    Puts r (.setter name) x s (s.update r fun o => { o with setters := o.setters.insert name x }) := by
  refine puts_update hlt ⟨rfl, fun _ => rfl, rfl, rfl⟩ (fun _ => rfl) Std.TreeMap.getElem?_insert_self ?_
  intro other hother
  cases other with
  | setter key => exact getElem?_insert_of_ne _ (fun he => hother (congrArg Place.setter he)) x
  | _ => rfl

theorem puts_stored (name : String) :
    Puts r (.property name) x s (s.update r fun o => { o with properties := o.properties.insert name x }) := by
  refine puts_update hlt ⟨rfl, fun _ => rfl, rfl, rfl⟩ (fun _ => rfl) Std.TreeMap.getElem?_insert_self ?_
  intro other hother
  cases other with
  | property key => exact getElem?_insert_of_ne _ (fun he => hother (congrArg Place.property he)) x
  | _ => rfl

/-- Items that are missing before the new one are filled in if that one is missing itself. -/
theorem puts_item (harray : (s.get r).value = .array items) (i : Nat) :
    Puts r (.item i) x s ((s.allocUndefined (i + 1 - items.size)).2.update r
      (·.putItem (s.allocUndefined (i + 1 - items.size)).1 i x)) := by
  have hfilling := s.length_allocUndefined (i + 1 - items.size)
  have hsize := s.size_allocUndefined (i + 1 - items.size)
  have hlt' : r.index < (s.allocUndefined (i + 1 - items.size)).2.objects.size := by omega
  have hget := get_update_of_lt hlt' (·.putItem (s.allocUndefined (i + 1 - items.size)).1 i x)
  rw [get_allocUndefined, Object.putItem_eq harray] at hget
  constructor
  · rw [size_update]
    omega
  · intro q hq
    rw [get_update_of_ne hq, get_allocUndefined]
  · rw [hget]
    refine ⟨(Object.isArray_of_value harray).symm, fun h => ?_, rfl, rfl⟩
    cases h.symm.trans (Object.isArray_of_value harray)
  · rw [hget]
    exact fun _ => rfl
  · rw [hget, Object.ref?_item rfl, Array.getElem?_setIfInBounds_self_of_lt]
    simp only [Array.size_append, List.size_toArray]
    omega
  · rw [hget]
    intro other hother
    cases other with
    | item j =>
      rw [Object.ref?_item rfl, Object.ref?_item harray, Object.ref?_item harray]
      rcases Object.getElem?_putItem hfilling x j with hold | ⟨rfl, -⟩ | ⟨hle, hj, -⟩
      · exact .inl hold
      · exact absurd rfl hother
      · exact .inr ⟨Array.getElem?_eq_none (by omega), Array.getElem?_eq_none hle⟩
    | _ => exact .inl rfl

theorem puts_setProperty (h : StoreM.setProperty r name x s = .ok () t) :
    Puts r (Place.ofName (s.get r).isArray name) x s t := by
  rcases StoreM.setProperty_cases h with ⟨items, i, harray, hindex, rfl⟩ | ⟨hstores, rfl⟩
  · rw [Object.ofName_of_index harray hindex]
    exact puts_item hlt harray i
  · rw [Object.ofName_of_stores hstores]
    exact puts_stored hlt name

end Puts

end Store

end ActionVm
