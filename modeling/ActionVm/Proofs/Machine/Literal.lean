import ActionVm.Proofs.Machine.Iteration
import ActionVm.Proofs.Object.Display
import ActionVm.Proofs.Object.Places
import Mathlib.Tactic.IntervalCases

namespace ActionVm

/-- The operands that pairs of a name and a value make, the top first. -/
def operandsOf (pairs : List (Ref × Ref)) : List Ref :=
  (pairs.flatMap fun p => [p.1, p.2]).reverse

theorem operandsOf_append (pairs : List (Ref × Ref)) (p : Ref × Ref) :
    operandsOf (pairs ++ [p]) = p.2 :: p.1 :: operandsOf pairs := by
  simp [operandsOf]

def collect (text : Ref → Option String) (pairs : List (Ref × Ref)) (properties : Std.TreeMap String Ref) :
    Std.TreeMap String Ref :=
  pairs.foldr (fun p m => (text p.1).elim m (m.insert · p.2)) properties

theorem getElem?_collect (text : Ref → Option String) (pairs : List (Ref × Ref)) (name : String) :
    (collect text pairs {})[name]? = (pairs.find? fun p => text p.1 = some name).map (·.2) := by
  induction pairs with
  | nil => rfl
  | cons p pairs ih =>
    by_cases h : text p.1 = some name
    · simp [collect, h]
    · rw [List.find?_cons_of_neg (by simpa using h), ← ih]
      cases htext : text p.1 with
      | none => simp [collect, htext]
      | some other =>
        have hne : name ≠ other := fun he => h (by rw [htext, he])
        rw [← getElem?_insert_of_ne (collect text pairs {}) hne p.2]
        simp [collect, htext]

theorem mem_collect {text : Ref → Option String} {pairs : List (Ref × Ref)} {name : String} :
    name ∈ collect text pairs {} ↔ ∃ p ∈ pairs, text p.1 = some name := by
  rw [Std.TreeMap.mem_iff_isSome_getElem?, getElem?_collect, Option.isSome_map, List.find?_isSome]
  simp

theorem Store.update_alloc (s : Store) (o : Object) (f : Object → Object) :
    (s.alloc o).2.update (s.alloc o).1 f = (s.alloc (f o)).2 := by
  simp only [update, alloc, mk.injEq]
  ext i h h'
  · simp
  · rw [Array.getElem_modify, Array.getElem_push, Array.getElem_push]
    grind

namespace Activation

def withObject (a : Activation) (properties : Std.TreeMap String Ref) : Activation :=
  { a with machine := { a.machine with store := (a.machine.store.alloc { properties }).2 } }

/-- The text of an object beside the new one. -/
def textBeside (a : Activation) : Ref → Option String :=
  (a.withObject {}).machine.store.text?

theorem get_withObject_self (a : Activation) (properties : Std.TreeMap String Ref) :
    (a.withObject properties).machine.store.get a.next = { properties } :=
  Store.get_alloc_self ..

theorem get_withObject_of_ne {a : Activation} (h : r ≠ a.next) (properties : Std.TreeMap String Ref) :
    (a.withObject properties).machine.store.get r = a.machine.store.get r := by
  have hne : r.index ≠ a.machine.store.objects.size := fun he => h (congrArg Ref.mk he)
  simp [withObject, Store.get, Store.alloc, Array.getElem?_push, hne]

theorem sameLook_withObject {a : Activation} (h : r ≠ a.next) (properties : Std.TreeMap String Ref) :
    a.machine.store.SameLook (a.withObject properties).machine.store r := by
  rw [Store.SameLook, Store.value, Store.value, get_withObject_of_ne h]
  exact ⟨rfl, rfl⟩

theorem text?_withObject (a : Activation) (properties : Std.TreeMap String Ref) :
    (a.withObject properties).machine.store.text? = a.textBeside := by
  funext r
  apply Store.text?_congr
  intro part _
  by_cases hpart : part = a.next
  · subst hpart
    rw [Store.SameLook, Store.value, Store.value, get_withObject_self, get_withObject_self]
    exact ⟨rfl, rfl⟩
  · obtain ⟨hvalue, hname⟩ := sameLook_withObject hpart properties
    obtain ⟨hvalue', hname'⟩ := sameLook_withObject hpart {}
    exact ⟨hvalue.trans hvalue'.symm, hname.trans hname'.symm⟩

theorem isSome_textBeside (a : Activation) : (a.textBeside r).isSome ↔ Acc a.machine.store.ItemOf r := by
  have hitems : (a.withObject {}).machine.store.ItemOf = a.machine.store.ItemOf :=
    Store.itemOf_alloc a.machine.store (by simp)
  rw [textBeside, Store.isSome_text?_iff, hitems]

theorem textBeside_of_apart {a : Activation} (h : ¬Relation.ReflTransGen a.machine.store.ItemOf a.next r) :
    a.textBeside r = a.machine.store.text? r := by
  apply Store.text?_congr
  intro part hpart
  apply sameLook_withObject
  rintro rfl
  exact h hpart

/-- A new object was made whose properties are the pairs. -/
structure MapsPairs (a : Activation) (pairs : List (Ref × Ref)) (b : Activation) : Prop where
  frame : b.frame = a.frame
  machine : b.machine = { a.machine with store := b.machine.store }
  size : b.machine.store.objects.size = a.machine.store.objects.size + 1
  others : ∀ r, r ≠ a.next → b.machine.store.get r = a.machine.store.get r
  bare : ∃ properties, b.machine.store.get a.next = { properties }
  names : ∀ name, name ∈ (b.machine.store.get a.next).propertyNames ↔
    ∃ p ∈ pairs, b.machine.store.text? p.1 = some name
  earliest : ∀ name, (b.machine.store.get a.next).properties[name]? =
    (pairs.find? fun p => b.machine.store.text? p.1 = some name).map (·.2)
  texts : ∀ r, ¬Relation.ReflTransGen a.machine.store.ItemOf a.next r →
    b.machine.store.text? r = a.machine.store.text? r

theorem mapsPairs_withObject (a : Activation) (pairs : List (Ref × Ref)) :
    a.MapsPairs pairs (a.withObject (collect a.textBeside pairs {})) where
  frame := rfl
  machine := rfl
  size := Store.size_alloc ..
  others _ h := get_withObject_of_ne h _
  bare := ⟨_, a.get_withObject_self _⟩
  names name := by
    rw [get_withObject_self, text?_withObject, Object.mem_propertyNames]
    exact mem_collect
  earliest name := by
    rw [get_withObject_self, text?_withObject]
    exact getElem?_collect ..
  texts r hr := by
    rw [text?_withObject]
    exact textBeside_of_apart hr

end Activation

namespace FrameM

def pushPairs (pairs : List (Ref × Ref)) : FrameM Unit :=
  pairs.forM fun p => do
    push p.1
    push p.2

theorem pushPairs_eq_ok {a c : Activation} (h : pushPairs pairs a = .ok () c) :
    c = a.withOperands (operandsOf pairs) ∧ (pairs ≠ [] → a.frame.stack.length < a.frame.stackLimit) := by
  induction pairs generalizing a with
  | nil =>
    cases h
    exact ⟨rfl, fun hne => absurd rfl hne⟩
  | cons p pairs ih =>
    obtain ⟨_, b, hpair, hrest⟩ := bind_eq_ok.mp h
    obtain ⟨_, d, hname, hvalue⟩ := bind_eq_ok.mp hpair
    obtain ⟨hroom, rfl⟩ := push_eq_ok hname
    obtain ⟨-, rfl⟩ := push_eq_ok hvalue
    obtain ⟨rfl, -⟩ := ih hrest
    refine ⟨?_, fun _ => hroom⟩
    simp [Activation.withOperands, operandsOf]

theorem setPairs_withObject {a : Activation} {p : Ref × Ref} (h : a.textBeside p.1 = some name) (properties)
    (rest : List Ref) (n : Nat) :
    setPairs a.next (n + 1) ((a.withObject properties).withOperands (p.2 :: p.1 :: rest)) =
      setPairs a.next n ((a.withObject (properties.insert name p.2)).withOperands rest) := by
  have hplain : (a.withObject properties).machine.store.IsPlain a.next := by
    rw [Store.IsPlain, Store.value, Activation.get_withObject_self]
  have hupdate : (a.withObject properties).machine.store.update a.next
      (fun o => { o with properties := o.properties.insert name p.2 }) =
      (a.withObject (properties.insert name p.2)).machine.store := Store.update_alloc ..
  have hstore := StoreM.setProperty_of_plain hplain name p.2
  rw [hupdate] at hstore
  have hset : onStore (StoreM.setProperty a.next name p.2) ((a.withObject properties).withOperands rest) =
      .ok () ((a.withObject (properties.insert name p.2)).withOperands rest) :=
    onStore_of_store (a := (a.withObject properties).withOperands rest) hstore
  rw [← a.text?_withObject properties] at h
  have htext : textOf p.1 ((a.withObject properties).withOperands rest) =
      .ok name ((a.withObject properties).withOperands rest) := textOf_of_some h
  rw [setPairs, bind_of_ok (pop_withOperands ..), bind_of_ok (pop_withOperands ..), bind_of_ok htext, bind_of_ok hset]

theorem setPairs_operandsOf {a : Activation} {pairs : List (Ref × Ref)}
    (h : ∀ p ∈ pairs, (a.textBeside p.1).isSome) (properties) :
    setPairs a.next pairs.length ((a.withObject properties).withOperands (operandsOf pairs)) =
      .ok () (a.withObject (collect a.textBeside pairs properties)) := by
  induction pairs using List.reverseRecOn generalizing properties with
  | nil => rfl
  | append_singleton pairs p ih =>
    obtain ⟨name, hname⟩ := Option.isSome_iff_exists.mp (h p (by simp))
    have hrest := ih fun q hq => h q (List.mem_append_left _ hq)
    rw [List.length_append, List.length_singleton, operandsOf_append, setPairs_withObject hname, hrest]
    simp [collect, hname]

/-- The last pair whose name has no text is never got past. -/
theorem setPairs_endless {a : Activation} {pairs : List (Ref × Ref)} (h : ∃ p ∈ pairs, a.textBeside p.1 = none)
    (properties) :
    ∃ b, setPairs a.next pairs.length ((a.withObject properties).withOperands (operandsOf pairs)) =
      .error .endless b := by
  induction pairs using List.reverseRecOn generalizing properties with
  | nil => simp at h
  | append_singleton pairs p ih =>
    rw [List.length_append, List.length_singleton, operandsOf_append]
    cases hname : a.textBeside p.1 with
    | some name =>
      rw [setPairs_withObject hname]
      apply ih
      obtain ⟨q, hq, hnone⟩ := h
      obtain hq | rfl : q ∈ pairs ∨ q = p := by simpa using hq
      · exact ⟨q, hq, hnone⟩
      · cases hname.symm.trans hnone
    | none =>
      rw [← a.text?_withObject properties] at hname
      have htext : textOf p.1 ((a.withObject properties).withOperands (operandsOf pairs)) =
          .error .endless ((a.withObject properties).withOperands (operandsOf pairs)) := textOf_of_none hname
      rw [setPairs, bind_of_ok (pop_withOperands ..), bind_of_ok (pop_withOperands ..)]
      exact ⟨_, bind_of_error htext⟩

theorem newObject_operandsOf {count : UInt32} (hcount : count.toNat = pairs.length) (a : Activation) :
    newObject count (a.withOperands (operandsOf pairs)) =
      (setPairs a.next pairs.length >>= fun _ => push a.next) ((a.withObject {}).withOperands (operandsOf pairs)) := by
  have hfresh : fresh .object (a.withOperands (operandsOf pairs)) =
      .ok a.next ((a.withObject {}).withOperands (operandsOf pairs)) := rfl
  rw [newObject, bind_of_ok hfresh, hcount]

/-- Pairs of a name and a value that are on the stack become the properties of a new object. Its names are their
texts, and the value of a name is that of the first pair that was pushed with this text. If an array among the
names contains itself, its text has no end, and then no object ever gets made. -/
theorem newObject_maps_pairs {a c : Activation} {count : UInt32} {pairs : List (Ref × Ref)}
    (hcount : count.toNat = pairs.length) (hpushed : pushPairs pairs a = .ok () c) :
    ((∀ p ∈ pairs, Acc a.machine.store.ItemOf p.1) →
      ∃ b, a.MapsPairs pairs b ∧ newObject count c = push a.next b ∧
        (pairs ≠ [] ∨ a.frame.stack.length < a.frame.stackLimit →
          newObject count c = .ok () (b.withOperands [a.next]))) ∧
    ((∃ p ∈ pairs, ¬Acc a.machine.store.ItemOf p.1) → ∃ b, newObject count c = .error .endless b) := by
  obtain ⟨rfl, hfirst⟩ := pushPairs_eq_ok hpushed
  rw [newObject_operandsOf hcount a]
  constructor
  · intro hnames
    have hset := setPairs_operandsOf (fun p hp => a.isSome_textBeside.mpr (hnames p hp)) {}
    rw [bind_of_ok hset]
    refine ⟨_, a.mapsPairs_withObject pairs, rfl, fun hroom => ?_⟩
    have hlt := hroom.elim hfirst id
    exact push_of_room (a := a.withObject _) hlt a.next
  · rintro ⟨p, hp, hname⟩
    have hnone : a.textBeside p.1 = none := Option.not_isSome_iff_eq_none.mp (mt a.isSome_textBeside.mp hname)
    obtain ⟨b, hset⟩ := setPairs_endless ⟨p, hp, hnone⟩ {}
    exact ⟨b, bind_of_error hset⟩

end FrameM

namespace Activation

def naming : Activation where
  machine :=
    { document := {}
      config := {}
      global := ⟨0⟩
      store := { objects := #[{}, { value := .integer 1 }, { value := .text "1" }, { value := .array #[⟨2⟩] },
        { value := .text "a" }, { value := .array #[⟨5⟩] }] } }
  frame := { method := 0, stack := [⟨0⟩], stackLimit := 9, locals := [], localLimit := 0 }

theorem itemOf_naming (h : naming.machine.store.ItemOf item r) : item = ⟨2⟩ ∧ r = ⟨3⟩ ∨ item = ⟨5⟩ ∧ r = ⟨5⟩ := by
  have hlt := Store.index_lt_of_itemOf h
  obtain ⟨items, hvalue, hitem⟩ := h
  obtain ⟨i⟩ := r
  change i < 6 at hlt
  interval_cases i
  · cases hvalue
  · cases hvalue
  · cases hvalue
  · cases hvalue
    exact .inl ⟨Array.mem_singleton.mp hitem, rfl⟩
  · cases hvalue
  · cases hvalue
    exact .inr ⟨Array.mem_singleton.mp hitem, rfl⟩

theorem acc_naming (h : r ≠ ⟨5⟩) : Acc naming.machine.store.ItemOf r := by
  have htext : Acc naming.machine.store.ItemOf ⟨2⟩ := by
    refine Acc.intro _ fun item hitem => ?_
    rcases itemOf_naming hitem with ⟨-, hr⟩ | ⟨-, hr⟩ <;> cases hr
  refine Acc.intro r fun item hitem => ?_
  obtain ⟨rfl, -⟩ | ⟨-, hr⟩ := itemOf_naming hitem
  · exact htext
  · exact absurd hr h

theorem not_acc_naming : ¬Acc naming.machine.store.ItemOf ⟨5⟩ := by
  intro h
  have hself : naming.machine.store.ItemOf ⟨5⟩ ⟨5⟩ := ⟨#[⟨5⟩], rfl, Array.mem_singleton.mpr rfl⟩
  exact Store.not_transGen_self h.transGen (.single hself)

theorem apart_naming (h : r.index < 6) : ¬Relation.ReflTransGen naming.machine.store.ItemOf naming.next r := by
  intro hpart
  obtain rfl | ⟨x, hitem, -⟩ := hpart.cases_head
  · exact absurd h (by decide)
  · rcases itemOf_naming hitem with ⟨hnext, -⟩ | ⟨hnext, -⟩ <;> exact absurd hnext (by decide)

end Activation

theorem FrameM.newObject_maps_clashing_names :
    (∃ b c, pushPairs [(⟨1⟩, ⟨0⟩), (⟨2⟩, ⟨1⟩), (⟨4⟩, ⟨2⟩), (⟨3⟩, ⟨3⟩)] .naming = .ok () c ∧
      newObject 4 c = .ok () b ∧ b.frame.stack = [⟨6⟩, ⟨0⟩] ∧
      (∀ name, name ∈ (b.machine.store.get ⟨6⟩).propertyNames ↔ name = "1" ∨ name = "a") ∧
      (b.machine.store.get ⟨6⟩).properties["1"]? = some ⟨0⟩ ∧
      (b.machine.store.get ⟨6⟩).properties["a"]? = some ⟨2⟩) ∧
    ∃ b c, pushPairs [(⟨5⟩, ⟨0⟩), (⟨4⟩, ⟨2⟩)] .naming = .ok () c ∧ newObject 2 c = .error .endless b := by
  have hpushed : pushPairs [(⟨1⟩, ⟨0⟩), (⟨2⟩, ⟨1⟩), (⟨4⟩, ⟨2⟩), (⟨3⟩, ⟨3⟩)] .naming =
      .ok () (Activation.naming.withOperands [⟨3⟩, ⟨3⟩, ⟨2⟩, ⟨4⟩, ⟨1⟩, ⟨2⟩, ⟨0⟩, ⟨1⟩]) := rfl
  have hself : pushPairs [(⟨5⟩, ⟨0⟩), (⟨4⟩, ⟨2⟩)] .naming =
      .ok () (Activation.naming.withOperands [⟨2⟩, ⟨4⟩, ⟨0⟩, ⟨5⟩]) := rfl
  have hcount : (4 : UInt32).toNat = 4 := rfl
  have htwo : (2 : UInt32).toNat = 2 := rfl
  have hother : ∀ p ∈ ([(⟨1⟩, ⟨0⟩), (⟨2⟩, ⟨1⟩), (⟨4⟩, ⟨2⟩), (⟨3⟩, ⟨3⟩)] : List (Ref × Ref)), p.1 ≠ ⟨5⟩ := by decide
  obtain ⟨b, hmaps, -, hnew⟩ :=
    (newObject_maps_pairs hcount hpushed).1 fun p hp => Activation.acc_naming (hother p hp)
  have hsame (i : Nat) (hi : i < 6) := hmaps.texts ⟨i⟩ (Activation.apart_naming hi)
  have hnumber : b.machine.store.text? ⟨1⟩ = some "1" := (hsame 1 (by decide)).trans (by decide +kernel)
  have htwin : b.machine.store.text? ⟨2⟩ = some "1" := (hsame 2 (by decide)).trans (by decide +kernel)
  have harray : b.machine.store.text? ⟨3⟩ = some "1" := (hsame 3 (by decide)).trans (by decide +kernel)
  have hother : b.machine.store.text? ⟨4⟩ = some "a" := (hsame 4 (by decide)).trans (by decide +kernel)
  have hstack : b.frame.stack = [⟨0⟩] := congrArg Frame.stack hmaps.frame
  refine ⟨⟨_, _, hpushed, hnew (.inl (by simp)), ?_, ?_, ?_, ?_⟩, ?_⟩
  · rw [Activation.withOperands, hstack]
    rfl
  · intro name
    refine (hmaps.names name).trans ?_
    simp only [List.exists_mem_cons_iff, List.not_mem_nil, false_and, exists_false, hnumber, htwin, hother, harray]
    grind
  · exact (hmaps.earliest "1").trans (by simp [hnumber])
  · exact (hmaps.earliest "a").trans (by simp [hnumber, htwin, hother])
  · obtain ⟨b, hendless⟩ := (newObject_maps_pairs htwo hself).2 ⟨_, List.mem_cons_self, Activation.not_acc_naming⟩
    exact ⟨b, _, hself, hendless⟩

end ActionVm
