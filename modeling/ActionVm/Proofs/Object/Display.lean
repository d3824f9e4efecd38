import ActionVm.Proofs.Machine.Plain
import Mathlib.Data.Finset.Card
import Mathlib.Logic.Relation

namespace ActionVm.Store

def ItemOf (s : Store) (item r : Ref) : Prop :=
  ∃ items, s.value r = .array items ∧ item ∈ items

def SameLook (s t : Store) (r : Ref) : Prop :=
  t.value r = s.value r ∧ (t.get r).className = (s.get r).className

theorem display_of_items {s t : Store} (h : s.SameLook t r)
    (hitems : ∀ item, s.ItemOf item r → t.display n item = s.display m item) :
    t.display (n + 1) r = s.display (m + 1) r := by
  rw [display, display, h.1, h.2]
  cases hvalue : s.value r with
  | array items =>
    have hmap : items.toList.mapM (t.display n) = items.toList.mapM (s.display m) := by
      apply mapM_congr_left
      intro item hitem
      exact hitems item ⟨items, hvalue, Array.mem_toList_iff.mp hitem⟩
    simp only [hmap]
  | _ => rfl

theorem isSome_display_succ {s : Store} :
    (s.display (depth + 1) r).isSome ↔ ∀ item, s.ItemOf item r → (s.display depth item).isSome := by
  rw [display]
  cases hvalue : s.value r with
  | array items => simp [isSome_mapM, ItemOf, hvalue]
  | _ => simp [ItemOf, hvalue]

theorem display_of_le {s : Store} (h : (s.display n r).isSome) (hle : n ≤ m) : s.display m r = s.display n r := by
  induction n generalizing r m with
  | zero => cases h
  | succ n ih =>
    obtain ⟨m, rfl⟩ := Nat.exists_eq_succ_of_ne_zero (Nat.ne_zero_of_lt hle)
    exact display_of_items ⟨rfl, rfl⟩ fun item hitem =>
      ih (isSome_display_succ.mp h item hitem) (Nat.le_of_succ_le_succ hle)

theorem acc_of_isSome {s : Store} (h : (s.display depth r).isSome) : Acc s.ItemOf r := by
  induction depth generalizing r with
  | zero => cases h
  | succ depth ih => exact Acc.intro r fun item hitem => ih (isSome_display_succ.mp h item hitem)

theorem not_transGen_self {R : α → α → Prop} (h : Acc (Relation.TransGen R) a) : ¬Relation.TransGen R a a := by
  induction h with
  | intro a _ ih =>
    intro hself
    exact ih a hself hself

/-- Arrays that do not contain themselves nest no deeper than there are arrays. -/
theorem isSome_display_of_acc {s : Store} (hacc : Acc s.ItemOf r) (arrays : Finset Nat)
    (harrays : ∀ part item, Relation.ReflTransGen s.ItemOf part r → s.ItemOf item part → part.index ∈ arrays)
    (hdepth : arrays.card < depth) : (s.display depth r).isSome := by
  induction hacc generalizing arrays depth with
  | intro r hitems ih =>
    obtain ⟨depth, rfl⟩ := Nat.exists_eq_succ_of_ne_zero (Nat.ne_zero_of_lt hdepth)
    refine isSome_display_succ.mpr fun item hitem => ?_
    have hr := harrays r item .refl hitem
    have hcard := Finset.card_erase_lt_of_mem hr
    apply ih item hitem (arrays.erase r.index) _ (by omega)
    intro part inner hpart hinner
    refine Finset.mem_erase.mpr ⟨?_, harrays part inner (hpart.tail hitem) hinner⟩
    -- the array is not among the parts of its items
    intro hindex
    obtain rfl : part = r := by
      cases part
      cases r
      exact congrArg Ref.mk hindex
    exact not_transGen_self (Acc.intro part hitems).transGen (Relation.TransGen.tail' hpart hitem)

theorem index_lt_of_itemOf {s : Store} (h : s.ItemOf item r) : r.index < s.objects.size := by
  obtain ⟨items, hvalue, -⟩ := h
  by_contra hlt
  simp [value, get, hlt] at hvalue

/-- An object has a text exactly if no array that it consists of contains itself. -/
theorem isSome_text?_iff {s : Store} : (s.text? r).isSome ↔ Acc s.ItemOf r := by
  refine ⟨acc_of_isSome, fun h => ?_⟩
  apply isSome_display_of_acc h (Finset.range s.objects.size)
  · intro part item _ hitem
    exact Finset.mem_range.mpr (index_lt_of_itemOf hitem)
  · rw [Finset.card_range]
    exact Nat.lt_succ_self _

theorem text?_eq_none_congr {s t : Store} (h : t.ItemOf = s.ItemOf) : t.text? r = none ↔ s.text? r = none := by
  rw [← Option.not_isSome_iff_eq_none, ← Option.not_isSome_iff_eq_none, isSome_text?_iff, isSome_text?_iff, h]

theorem itemOf_update {f : Object → Object} (s : Store) (r : Ref) (hf : ∀ o, (f o).value = o.value) :
    (s.update r f).ItemOf = s.ItemOf := by
  funext item other
  rw [ItemOf, ItemOf, value_update s other r hf]

theorem itemOf_alloc (s : Store) {o : Object} (ho : ∀ items, o.value ≠ .array items) :
    (s.alloc o).2.ItemOf = s.ItemOf := by
  funext item r
  rw [ItemOf, ItemOf, value_push]
  split
  · rename_i hnew
    refine propext ⟨fun ⟨items, hvalue, _⟩ => absurd hvalue (ho items), fun h => ?_⟩
    have hlt := index_lt_of_itemOf h
    omega
  · rfl

theorem display_congr {s t : Store} (depth : Nat)
    (h : ∀ part, Relation.ReflTransGen s.ItemOf part r → s.SameLook t part) :
    t.display depth r = s.display depth r := by
  induction depth generalizing r with
  | zero => rfl
  | succ depth ih => exact display_of_items (h r .refl) fun item hitem => ih fun part hpart => h part (hpart.tail hitem)

/-- A text depends only on the look of what the object consists of, and not on how many objects there are. -/
theorem text?_congr {s t : Store} (h : ∀ part, Relation.ReflTransGen s.ItemOf part r → s.SameLook t part) :
    t.text? r = s.text? r := by
  have hdisplay (depth : Nat) := display_congr depth h
  have hboth : (t.text? r).isSome ↔ (s.text? r).isSome := by
    constructor
    · intro ht
      rw [text?, hdisplay] at ht
      exact isSome_text?_iff.mpr (acc_of_isSome ht)
    · intro hs
      rw [text?, ← hdisplay] at hs
      exact isSome_text?_iff.mpr (acc_of_isSome hs)
  by_cases hs : (s.text? r).isSome
  · have ht := hboth.mpr hs
    rw [text?, hdisplay] at ht
    rw [text?, text?, hdisplay]
    rcases Nat.le_total s.objects.size t.objects.size with hle | hle
    · exact display_of_le hs (Nat.succ_le_succ hle)
    · exact (display_of_le ht (Nat.succ_le_succ hle)).symm
  · rw [Option.not_isSome_iff_eq_none.mp hs, Option.not_isSome_iff_eq_none.mp (mt hboth.mp hs)]

end ActionVm.Store
