import ActionVm.Object.Store
import Std.Data.HashSet

namespace ActionVm

namespace Value

def references : Value → List Ref
  | array items => items.toList
  | function _ receiver => receiver.toList
  | _ => []

end Value

namespace Slot

def references : Slot → List Ref
  | named _ => []
  | held value => [value]

end Slot

namespace Object

def references (o : Object) : List Ref :=
  o.value.references ++ o.properties.values ++ o.slots.values.flatMap Slot.references
    ++ o.getters.values ++ o.setters.values

end Object

namespace Store

def unseen (s : Store) (seen : Std.HashSet Nat) : Nat :=
  (List.range s.objects.size).countP fun i => !seen.contains i

theorem unseen_insert_lt {s : Store} {seen : Std.HashSet Nat} {i : Nat} (hi : i < s.objects.size)
    (hs : seen.contains i = false) : s.unseen (seen.insert i) < s.unseen seen := by
  have hsplit : List.range s.objects.size =
      (List.range s.objects.size).take i ++ i :: (List.range s.objects.size).drop (i + 1) := by
    conv => lhs; rw [← List.take_append_drop i (List.range s.objects.size)]
    rw [List.drop_eq_getElem_cons (by simpa using hi), List.getElem_range]
  have hle (l : List Nat) :
      l.countP (fun j => !(seen.insert i).contains j) ≤ l.countP fun j => !seen.contains j :=
    List.countP_mono_left fun j _ hj => by
      simp only [Std.HashSet.contains_insert, Bool.not_or, Bool.and_eq_true] at hj
      exact hj.2
  unfold unseen
  rw [hsplit, List.countP_append, List.countP_append, List.countP_cons_of_neg (by simp),
    List.countP_cons_of_pos (by simp [hs])]
  exact Nat.add_lt_add_of_le_of_lt (hle _) (Nat.lt_succ_of_le (hle _))

/-- Whether the work list leads to an object. Each object is looked into once. -/
def reaches (s : Store) (target : Ref) (seen : Std.HashSet Nat) : List Ref → Bool
  | [] => false
  | r :: work =>
    if r = target then true
    else if _h : r.index < s.objects.size ∧ seen.contains r.index = false then
      s.reaches target (seen.insert r.index) ((s.get r).references ++ work)
    else s.reaches target seen work
termination_by work => (s.unseen seen, work.length)
decreasing_by
  · exact .left _ _ (unseen_insert_lt _h.1 _h.2)
  · exact .right _ (Nat.lt_succ_self _)

def isCyclic (s : Store) (r : Ref) : Bool :=
  s.reaches r {} (s.get r).references

/-- Whether an object is alive. The roots lead to it, or a cycle does: what is counted by its references is never
released once it refers to itself. -/
def isHeld (s : Store) (roots : List Ref) (r : Ref) : Bool :=
  s.reaches r {} roots ||
    (List.range s.objects.size).any fun i => s.isCyclic ⟨i⟩ && s.reaches r {} [⟨i⟩]

def prototype? (s : Store) (roots : List Ref) (r : Ref) : Option Ref :=
  (s.get r).prototype.filter (s.isHeld roots)

end Store

end ActionVm
