import ActionVm.Proofs.Object.Places

namespace ActionVm

namespace Store

/-- The same object, or one that is newer than `s` and has become another one with equal parts. -/
def Remade (s t u : Store) (x y : Ref) : Prop :=
  x = y ∨ (s.objects.size ≤ x.index ∧ t.get x = u.get y)

/-- An object is declared a second time, after which it is as it was after the first. -/
structure Rebuilt (r : Ref) (s t u : Store) : Prop where
  names : (u.get r).propertyNames = (t.get r).propertyNames
  properties : ∀ name, Option.Rel (Property.Rel (Remade s t u)) ((t.get r).property? name) ((u.get r).property? name)
  getters : ∀ name : String, Option.Rel (Remade s t u) (t.get r).getters[name]? (u.get r).getters[name]?
  setters : ∀ name : String, Option.Rel (Remade s t u) (t.get r).setters[name]? (u.get r).setters[name]?
  slots : ∀ id, (u.get r).slot? id = (t.get r).slot? id
  shape : (t.get r).SameShape (u.get r)
  others : ∀ q, q ≠ r → q.index < t.objects.size → u.get q = t.get q
  untouched : ∀ name, (t.get r).property? name = (s.get r).property? name →
    (∀ x, (s.get r).property? name = some (.stored x) → x.index < s.objects.size) →
    (u.get r).property? name = (s.get r).property? name

end Store

/-- What a trait comes down to. A property that yields leaves one that is there. -/
inductive Declaration where
  | property (name : String) (value : Value) (yields : Bool) (slot : UInt32)
  | getter (name : String) (value : Value)
  | setter (name : String) (value : Value)

namespace Declaration

def run (r : Ref) : Declaration → StoreM Unit
  | property name value yields slot => do
    unless yields && (← StoreM.object r).hasProperty name do
      StoreM.setProperty r name (← StoreM.fresh value)
    StoreM.update r (·.bindSlot slot name)
  | getter name value => do StoreM.setGetter r name (← StoreM.fresh value)
  | setter name value => do StoreM.setSetter r name (← StoreM.fresh value)

def value : Declaration → Value
  | property _ value _ _ | getter _ value | setter _ value => value

def place (array : Bool) : Declaration → Place
  | property name .. => .ofName array name
  | getter name _ => .getter name
  | setter name _ => .setter name

def overwrites : Declaration → Bool
  | property _ _ yields _ => !yields
  | getter .. | setter .. => true

def binds? (id : UInt32) : Declaration → Option String
  | property name _ _ slot => if slot = id ∧ id ≠ 0 then some name else none
  | getter .. | setter .. => none

def Rests (o : Object) : Declaration → Prop
  | property name _ yields _ => yields = true ∧ o.hasProperty name = true
  | getter .. | setter .. => False

/-- An array has no room for the item that the declaration stands for. -/
def Refused (o : Object) : Declaration → Prop
  | property name .. => o.Refuses name
  | getter .. | setter .. => False

/-- What a declaration does. If it writes, its place holds a new object with its value. -/
structure Declares (r : Ref) (d : Declaration) (s t : Store) : Prop where
  grows : s.objects.size ≤ t.objects.size
  others : ∀ q, q ≠ r → q.index < s.objects.size → t.get q = s.get q
  shape : (s.get r).SameShape (t.get r)
  slots : ∀ id, (t.get r).slot? id = ((d.binds? id).map .named).or ((s.get r).slot? id)
  rests : d.Rests (s.get r) → ∀ place, (t.get r).ref? place = (s.get r).ref? place
  fits : d.Rests (s.get r) ∨ ¬d.Refused (s.get r)
  new : ¬d.Rests (s.get r) → ∃ x, (t.get r).ref? (d.place (s.get r).isArray) = some x ∧
    s.objects.size ≤ x.index ∧ x.index < t.objects.size ∧ t.get x = { value := d.value }
  rest : ∀ other, other ≠ d.place (s.get r).isArray → (t.get r).ref? other = (s.get r).ref? other ∨
    ((s.get r).ref? (d.place (s.get r).isArray) = none ∧ (s.get r).ref? other = none)

section Step

variable {r : Ref} {d : Declaration} {s t : Store}

theorem declares_of_puts (hlt : r.index < s.objects.size) (hrests : ¬d.Rests (s.get r))
    (hfits : ¬d.Refused (s.get r)) (hslot : ∀ id, d.binds? id = none)
    (h : Store.Puts r (d.place (s.get r).isArray) (s.alloc { value := d.value }).1
      (s.alloc { value := d.value }).2 t) :
    Declares r d s t := by
  have hr : (s.alloc { value := d.value }).2.get r = s.get r := Store.get_alloc_of_lt hlt _
  have hsize := s.size_alloc { value := d.value }
  have hgrows := h.grows
  have hne : (s.alloc { value := d.value }).1 ≠ r := by
    rintro rfl
    exact Nat.lt_irrefl _ hlt
  have hshape := h.shape
  have hslots := h.slots
  have hrest := h.rest
  rw [hr] at hshape hslots hrest
  refine ⟨by omega, ?_, hshape, ?_, fun h => absurd h hrests, .inr hfits, fun _ => ?_, hrest⟩
  · intro q hq hlt'
    rw [h.others q hq, Store.get_alloc_of_lt hlt']
  · intro id
    rw [hslots, hslot]
    rfl
  · have hlt' : s.objects.size < t.objects.size := by omega
    refine ⟨_, h.new, Nat.le_refl _, hlt', ?_⟩
    rw [h.others _ hne, Store.get_alloc_self]

theorem binds?_of_no_slot (name : String) (value : Value) (yields : Bool) (id : UInt32) :
    (property name value yields 0).binds? id = none :=
  if_neg fun h => h.2 h.1.symm

theorem declares_of_rests {name : String} {value : Value} {yields : Bool}
    (h : (property name value yields 0).Rests (s.get r)) : Declares r (property name value yields 0) s s where
  grows := Nat.le_refl _
  others _ _ _ := rfl
  shape := .refl _
  slots id := by
    rw [binds?_of_no_slot]
    rfl
  rests _ _ := rfl
  fits := .inl h
  new hrests := absurd h hrests
  rest _ _ := .inl rfl

theorem Declares.bindSlot {name : String} {value : Value} {yields : Bool} (hlt : r.index < s.objects.size)
    (h : Declares r (property name value yields 0) s t) (slot : UInt32) :
    Declares r (property name value yields slot) s (t.update r (·.bindSlot slot name)) := by
  have hr := Store.get_update_of_lt (Nat.lt_of_lt_of_le hlt h.grows) (·.bindSlot slot name)
  have hsize := t.size_update r (·.bindSlot slot name)
  have href (place : Place) := (t.get r).ref?_bindSlot slot name place
  refine ⟨hsize ▸ h.grows, ?_, ?_, ?_, ?_, h.fits, ?_, ?_⟩
  · intro q hq hlt'
    rw [Store.get_update_of_ne hq, h.others q hq hlt']
  · rw [hr]
    exact h.shape.trans (Object.sameShape_bindSlot ..)
  · intro id
    have hslots := h.slots id
    rw [binds?_of_no_slot] at hslots
    rw [hr, Object.slot?_bindSlot, hslots, binds?]
    split <;> rfl
  · intro hrests place
    rw [hr, href]
    exact h.rests hrests place
  · intro hrests
    obtain ⟨x, hx, hle, hx', hget⟩ := h.new hrests
    refine ⟨x, ?_, hle, hsize ▸ hx', ?_⟩
    · rw [hr, href]
      exact hx
    · rw [Store.get_update_of_ne ?_, hget]
      · rfl
      · rintro rfl
        exact Nat.not_le_of_lt hlt hle
  · intro other hother
    rw [hr, href]
    exact h.rest other hother

theorem not_refuses_of_setProperty (h : StoreM.setProperty r name x s = .ok () t) : ¬(s.get r).Refuses name := by
  rintro ⟨items, i, harray, hindex, hle⟩
  rw [StoreM.setProperty_of_far harray hindex (Nat.not_lt_of_le hle)] at h
  cases h

theorem run_property_of_rests {name : String} {value : Value} {yields : Bool} {slot : UInt32}
    (h : (property name value yields slot).Rests (s.get r)) :
    (property name value yields slot).run r s = .ok () (s.update r (·.bindSlot slot name)) := by
  have hobject : StoreM.object r s = .ok (s.get r) s := rfl
  rw [run, bind_of_ok hobject, h.1, h.2]
  rfl

theorem run_property {name : String} {value : Value} {yields : Bool} {slot : UInt32}
    (h : ¬(property name value yields slot).Rests (s.get r)) :
    (property name value yields slot).run r s =
      (StoreM.setProperty r name (s.alloc { value }).1 >>= fun _ => StoreM.update r (·.bindSlot slot name))
        (s.alloc { value }).2 := by
  have hobject : StoreM.object r s = .ok (s.get r) s := rfl
  have hwrites : (yields && (s.get r).hasProperty name) = false := by
    cases hyields : yields && (s.get r).hasProperty name with
    | false => rfl
    | true =>
      rw [Bool.and_eq_true] at hyields
      exact absurd hyields h
  rw [run, bind_of_ok hobject, hwrites]
  rfl

theorem declares (hlt : r.index < s.objects.size) (h : d.run r s = .ok () t) : Declares r d s t := by
  have hlt' (o : Object) : r.index < (s.alloc o).2.objects.size := by
    rw [Store.size_alloc]
    omega
  cases d with
  | getter name value =>
    cases h
    exact declares_of_puts hlt id id (fun _ => rfl) (Store.puts_getter (hlt' _) name)
  | setter name value =>
    cases h
    exact declares_of_puts hlt id id (fun _ => rfl) (Store.puts_setter (hlt' _) name)
  | property name value yields slot =>
    by_cases hrests : (property name value yields slot).Rests (s.get r)
    · rw [run_property_of_rests hrests] at h
      cases h
      exact (declares_of_rests hrests).bindSlot hlt slot
    · rw [run_property hrests] at h
      obtain ⟨_, u, hset, hbind⟩ := bind_eq_ok.1 h
      cases hbind
      have hputs := Store.puts_setProperty (hlt' _) hset
      have hfits := not_refuses_of_setProperty hset
      rw [Store.get_alloc_of_lt hlt] at hputs hfits
      have hput : Declares r (property name value yields 0) s u :=
        declares_of_puts hlt hrests hfits (binds?_of_no_slot name value yields) hputs
      exact hput.bindSlot hlt slot

theorem exists_run (hlt : r.index < s.objects.size) (h : d.Rests (s.get r) ∨ ¬d.Refused (s.get r)) :
    ∃ t, d.run r s = .ok () t := by
  cases d with
  | getter name value => exact ⟨_, rfl⟩
  | setter name value => exact ⟨_, rfl⟩
  | property name value yields slot =>
    by_cases hrests : (property name value yields slot).Rests (s.get r)
    · exact ⟨_, run_property_of_rests hrests⟩
    · have hfits := h.resolve_left hrests
      rw [← Store.get_alloc_of_lt hlt { value }] at hfits
      obtain ⟨u, hset⟩ := StoreM.exists_setProperty hfits (s.alloc { value }).1
      rw [run_property hrests, bind_of_ok hset]
      exact ⟨_, rfl⟩

end Step

section Settled

variable {r : Ref} {d e : Declaration} {s t : Store}

theorem rests_of_isSome {o : Object} (h : d.overwrites = false) (hsome : (o.ref? (d.place o.isArray)).isSome) :
    d.Rests o := by
  cases d with
  | getter name value => cases h
  | setter name value => cases h
  | property name value yields slot =>
    refine ⟨by simpa [overwrites] using h, Object.hasProperty_iff.2 ?_⟩
    rcases o.item_or_stores name with ⟨items, i, harray, hindex⟩ | hstores
    · rw [place, Object.ofName_of_index harray hindex] at hsome
      exact .inr (.inl ⟨i, hindex, hsome⟩)
    · rw [place, Object.ofName_of_stores hstores] at hsome
      exact .inl hsome

theorem not_rests_of_overwrites {o : Object} (h : d.overwrites = true) : ¬d.Rests o := by
  cases d with
  | getter name value => exact id
  | setter name value => exact id
  | property name value yields slot =>
    rintro ⟨rfl, -⟩
    cases h

theorem Declares.isSome (h : Declares r d s t) {place : Place} (hsome : ((s.get r).ref? place).isSome) :
    ((t.get r).ref? place).isSome := by
  by_cases hrests : d.Rests (s.get r)
  · rw [h.rests hrests]
    exact hsome
  by_cases hplace : place = d.place (s.get r).isArray
  · obtain ⟨x, hx, -⟩ := h.new hrests
    rw [hplace, hx]
    rfl
  · rcases h.rest place hplace with hsame | ⟨-, hnone⟩
    · rw [hsame]
      exact hsome
    · rw [hnone] at hsome
      cases hsome

theorem Declares.hasProperty (h : Declares r d s t) (hname : (s.get r).hasProperty name = true) :
    (t.get r).hasProperty name = true := by
  rw [Object.hasProperty_iff] at hname ⊢
  rcases hname with hstored | ⟨i, hindex, hitem⟩ | ⟨hlength, harray | ⟨text, htext⟩⟩
  · exact .inl (h.isSome hstored)
  · exact .inr (.inl ⟨i, hindex, h.isSome hitem⟩)
  · exact .inr (.inr ⟨hlength, .inl (h.shape.isArray.trans harray)⟩)
  · have hvalue : (s.get r).isArray = false := by rw [Object.isArray, htext]
    exact .inr (.inr ⟨hlength, .inr ⟨text, (h.shape.value hvalue).trans htext⟩⟩)

theorem Declares.rests_of_rests (h : Declares r d s t) (he : e.Rests (s.get r)) : e.Rests (t.get r) := by
  cases e with
  | property name value yields slot => exact ⟨he.1, h.hasProperty he.2⟩
  | getter name value => exact he
  | setter name value => exact he

theorem Declares.refused_iff (h : Declares r d s t) : e.Refused (t.get r) ↔ e.Refused (s.get r) := by
  cases e with
  | property name value yields slot => simp only [Refused, Object.refuses_iff, h.shape.isArray]
  | getter name value => exact .rfl
  | setter name value => exact .rfl

/-- A declaration succeeds, and no place is missing for it. -/
def Settled (o : Object) (d : Declaration) : Prop :=
  d.Rests o ∨ ((o.ref? (d.place o.isArray)).isSome ∧ ¬d.Refused o)

theorem Declares.settled (h : Declares r d s t) : d.Settled (t.get r) := by
  by_cases hrests : d.Rests (s.get r)
  · exact .inl (h.rests_of_rests hrests)
  · obtain ⟨x, hx, -⟩ := h.new hrests
    rw [Settled, h.shape.isArray, hx, h.refused_iff]
    exact .inr ⟨rfl, h.fits.resolve_left hrests⟩

theorem Declares.settled_of_settled (h : Declares r d s t) (he : e.Settled (s.get r)) : e.Settled (t.get r) := by
  rcases he with hrests | ⟨hsome, hfits⟩
  · exact .inl (h.rests_of_rests hrests)
  · rw [Settled, h.shape.isArray, h.refused_iff]
    exact .inr ⟨h.isSome hsome, hfits⟩

theorem Declares.kept (h : Declares r d s t) {place : Place}
    (hspared : ¬(d.overwrites = true ∧ d.place (s.get r).isArray = place)) (hx : (s.get r).ref? place = some x) :
    (t.get r).ref? place = some x := by
  by_cases hrests : d.Rests (s.get r)
  · rw [h.rests hrests, hx]
  have hplace : place ≠ d.place (s.get r).isArray := by
    rintro rfl
    have hyields : d.overwrites = false := by
      rw [← Bool.not_eq_true]
      exact fun hover => hspared ⟨hover, rfl⟩
    exact hrests (rests_of_isSome hyields (by rw [hx]; rfl))
  rcases h.rest place hplace with hsame | ⟨-, hnone⟩
  · rw [hsame, hx]
  · cases hx.symm.trans hnone

theorem Declares.missing (h : Declares r d s t) (hsettled : d.Settled (s.get r)) {place : Place}
    (hnone : (s.get r).ref? place = none) : (t.get r).ref? place = none := by
  by_cases hrests : d.Rests (s.get r)
  · rw [h.rests hrests, hnone]
  have hsome := (hsettled.resolve_left hrests).1
  have hplace : place ≠ d.place (s.get r).isArray := by
    rintro rfl
    rw [hnone] at hsome
    cases hsome
  rcases h.rest place hplace with hsame | ⟨hmissing, -⟩
  · rw [hsame, hnone]
  · rw [hmissing] at hsome
    cases hsome

end Settled

inductive Pass (r : Ref) : List Declaration → Store → Store → Prop where
  | nil : Pass r [] s s
  | cons (hlt : r.index < s.objects.size) (hd : Declares r d s u) (h : Pass r ds u t) : Pass r (d :: ds) s t

def lastValue? (array : Bool) (place : Place) : List Declaration → Option Value
  | [] => none
  | d :: ds =>
    (lastValue? array place ds).or
      (if d.overwrites = true ∧ d.place array = place then some d.value else none)

def lastName? (id : UInt32) : List Declaration → Option String
  | [] => none
  | d :: ds => (lastName? id ds).or (d.binds? id)

/-- What a list of declarations leaves on an object. The last one that overwrites a place has its value there, the
last one that binds a slot has its name there, what is never overwritten stays, and nothing that is declared is
missing. -/
structure Declared (r : Ref) (ds : List Declaration) (s t : Store) : Prop where
  written : ∀ place v, lastValue? (s.get r).isArray place ds = some v →
    ∃ x, (t.get r).ref? place = some x ∧ s.objects.size ≤ x.index ∧ t.get x = { value := v }
  kept : ∀ place x, lastValue? (s.get r).isArray place ds = none → (s.get r).ref? place = some x →
    (t.get r).ref? place = some x
  slots : ∀ id, (t.get r).slot? id = ((lastName? id ds).map .named).or ((s.get r).slot? id)
  there : ∀ d ∈ ds, d.Settled (t.get r)

section Pass

variable {r : Ref} {e : Declaration} {ds : List Declaration} {s t u : Store} {place : Place}

theorem pass_of_forM (hlt : r.index < s.objects.size) (h : ds.forM (run r) s = .ok () t) : Pass r ds s t := by
  induction ds generalizing s with
  | nil =>
    cases h
    exact .nil
  | cons d ds ih =>
    obtain ⟨_, u, hd, hds⟩ := bind_eq_ok.1 h
    have hdeclares := declares hlt hd
    exact .cons hlt hdeclares (ih (Nat.lt_of_lt_of_le hlt hdeclares.grows) hds)

theorem exists_forM (hlt : r.index < s.objects.size)
    (h : ∀ d ∈ ds, d.Rests (s.get r) ∨ ¬d.Refused (s.get r)) : ∃ t, ds.forM (run r) s = .ok () t := by
  induction ds generalizing s with
  | nil => exact ⟨s, rfl⟩
  | cons d ds ih =>
    obtain ⟨u, hu⟩ := exists_run hlt (h d List.mem_cons_self)
    have hdeclares := declares hlt hu
    have hrest (e : Declaration) (he : e ∈ ds) : e.Rests (u.get r) ∨ ¬e.Refused (u.get r) := by
      rw [hdeclares.refused_iff]
      exact (h e (List.mem_cons_of_mem _ he)).imp_left hdeclares.rests_of_rests
    obtain ⟨t, ht⟩ := ih (Nat.lt_of_lt_of_le hlt hdeclares.grows) hrest
    exact ⟨t, (bind_of_ok hu).trans ht⟩

namespace Pass

theorem grows (h : Pass r ds s t) : s.objects.size ≤ t.objects.size := by
  induction h with
  | nil => exact Nat.le_refl _
  | cons _ hd _ ih => exact Nat.le_trans hd.grows ih

theorem others (h : Pass r ds s t) {q : Ref} (hq : q ≠ r) (hlt : q.index < s.objects.size) : t.get q = s.get q := by
  induction h with
  | nil => rfl
  | cons _ hd _ ih => exact (ih (Nat.lt_of_lt_of_le hlt hd.grows)).trans (hd.others q hq hlt)

theorem shape (h : Pass r ds s t) : (s.get r).SameShape (t.get r) := by
  induction h with
  | nil => exact .refl _
  | cons _ hd _ ih => exact hd.shape.trans ih

theorem slot? (h : Pass r ds s t) (id : UInt32) :
    (t.get r).slot? id = ((lastName? id ds).map .named).or ((s.get r).slot? id) := by
  induction h with
  | nil => rfl
  | cons _ hd _ ih => rw [ih, hd.slots, lastName?, Option.map_or, Option.or_assoc]

theorem kept (h : Pass r ds s t) (hlast : lastValue? (s.get r).isArray place ds = none)
    (hx : (s.get r).ref? place = some x) : (t.get r).ref? place = some x := by
  induction h with
  | nil => exact hx
  | cons _ hd _ ih =>
    rw [lastValue?, Option.or_eq_none_iff] at hlast
    obtain ⟨hlater, hhead⟩ := hlast
    rw [← hd.shape.isArray] at hlater
    refine ih hlater (hd.kept (fun hover => ?_) hx)
    rw [if_pos hover] at hhead
    cases hhead

theorem written (h : Pass r ds s t) (hlast : lastValue? (s.get r).isArray place ds = some v) :
    ∃ x, (t.get r).ref? place = some x ∧ s.objects.size ≤ x.index ∧ x.index < t.objects.size ∧
      t.get x = { value := v } := by
  induction h with
  | nil => cases hlast
  | cons hlt hd htail ih =>
    rw [lastValue?, Option.or_eq_some_iff] at hlast
    rw [← hd.shape.isArray] at hlast
    rcases hlast with hlater | ⟨hnone, hhead⟩
    · obtain ⟨x, hx, hle, hrest⟩ := ih hlater
      exact ⟨x, hx, Nat.le_trans hd.grows hle, hrest⟩
    · split at hhead
      · rename_i hover
        obtain ⟨hover, rfl⟩ := hover
        cases hhead
        obtain ⟨x, hx, hle, hlt', hget⟩ := hd.new (not_rests_of_overwrites hover)
        rw [← hd.shape.isArray] at hx
        have hne : x ≠ r := by
          rintro rfl
          exact Nat.not_le_of_lt hlt hle
        -- No later declaration overwrites the place, and no other object is written at all.
        exact ⟨x, htail.kept hnone hx, hle, Nat.lt_of_lt_of_le hlt' htail.grows,
          (htail.others hne hlt').trans hget⟩
      · cases hhead

theorem settled_of_settled (h : Pass r ds s t) (he : e.Settled (s.get r)) : e.Settled (t.get r) := by
  induction h with
  | nil => exact he
  | cons _ hd _ ih => exact ih (hd.settled_of_settled he)

theorem settled (h : Pass r ds s t) (he : e ∈ ds) : e.Settled (t.get r) := by
  induction h with
  | nil => cases he
  | cons _ hd htail ih =>
    rcases List.mem_cons.1 he with rfl | hmem
    · exact htail.settled_of_settled hd.settled
    · exact ih hmem

theorem missing (h : Pass r ds s t) (hsettled : ∀ d ∈ ds, d.Settled (s.get r))
    (hnone : (s.get r).ref? place = none) : (t.get r).ref? place = none := by
  induction h with
  | nil => exact hnone
  | cons _ hd _ ih =>
    have hhead := hsettled _ List.mem_cons_self
    refine ih (fun e he => ?_) (hd.missing hhead hnone)
    exact hd.settled_of_settled (hsettled e (List.mem_cons_of_mem _ he))

end Pass

theorem declared (h : Pass r ds s t) : Declared r ds s t where
  written place v hlast := by
    obtain ⟨x, hx, hle, -, hget⟩ := h.written hlast
    exact ⟨x, hx, hle, hget⟩
  kept place x := h.kept
  slots := h.slot?
  there _ := h.settled

/-- A second pass puts equal values at the places that the first one wrote. -/
theorem remade_of_pass (h : Pass r ds s t) (h' : Pass r ds t u) (place : Place) :
    Option.Rel (Store.Remade s t u) ((t.get r).ref? place) ((u.get r).ref? place) := by
  cases hlast : lastValue? (s.get r).isArray place ds with
  | some v =>
    obtain ⟨x, hx, hle, -, hget⟩ := h.written hlast
    rw [← h.shape.isArray] at hlast
    obtain ⟨y, hy, -, -, hget'⟩ := h'.written hlast
    rw [hx, hy]
    exact .some (.inr ⟨hle, hget.trans hget'.symm⟩)
  | none =>
    rw [← h.shape.isArray] at hlast
    cases hx : (t.get r).ref? place with
    | some x =>
      rw [h'.kept hlast hx]
      exact .some (.inl rfl)
    | none =>
      rw [h'.missing (fun _ => h.settled) hx]
      exact .none

theorem slot?_of_pass (h : Pass r ds s t) (h' : Pass r ds t u) (id : UInt32) :
    (u.get r).slot? id = (t.get r).slot? id := by
  rw [h'.slot?, h.slot?, ← Option.or_assoc, Option.or_self]

theorem rebuilt (h : Pass r ds s t) (h' : Pass r ds t u) : Store.Rebuilt r s t u := by
  have hplaces := remade_of_pass h h'
  have hproperties (name : String) := Object.rel_property? hplaces h'.shape name
  refine ⟨(Object.propertyNames_eq_of_rel hplaces).symm, hproperties, fun name => hplaces (.getter name),
    fun name => hplaces (.setter name), slot?_of_pass h h', h'.shape, fun q => h'.others, ?_⟩
  intro name hsame hold
  rw [← hsame] at hold ⊢
  have hname := hproperties name
  generalize (t.get r).property? name = before at hname hold ⊢
  generalize (u.get r).property? name = now at hname ⊢
  cases hname with
  | none => rfl
  | some hrel =>
    cases hrel with
    | length => rfl
    | stored hremade =>
      rcases hremade with rfl | ⟨hle, -⟩
      · rfl
      · exact absurd (hold _ rfl) (Nat.not_lt_of_le hle)

end Pass

end Declaration

end ActionVm
