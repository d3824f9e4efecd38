import ActionVm.Bytes.Basic
import Mathlib.Algebra.Group.Int.Defs
import Mathlib.Algebra.Group.Nat.Defs

namespace ActionVm.Bytes

/-- Groups whose last byte is the first one with a clear top bit, `limit` of them at most. -/
inductive Terminated : Nat → Bytes → Prop
  | last (h : b < 128) : Terminated (limit + 1) [b]
  | more (h : ¬b < 128) (ht : Terminated (limit + 1) rest) : Terminated (limit + 2) (b :: rest)

theorem Terminated.ne_nil (h : Terminated limit groups) : groups ≠ [] := by
  cases h <;> exact List.cons_ne_nil _ _

theorem Terminated.length_le (h : Terminated limit groups) : groups.length ≤ limit := by
  induction h with
  | last _ => exact Nat.succ_le_succ (Nat.zero_le _)
  | more _ _ ih => exact Nat.succ_le_succ ih

theorem toNat_lastGroup {n : Nat} (h : n < 128) : (UInt8.ofNat n).toNat = n := by
  rw [UInt8.toNat_ofNat']
  omega

theorem lastGroup_lt {n : Nat} (h : n < 128) : UInt8.ofNat n < 128 := by
  rw [UInt8.lt_iff_toNat_lt, toNat_lastGroup h]
  exact h

theorem toNat_moreGroup {n : Nat} (h : n < 128) : (UInt8.ofNat (n + 128)).toNat = n + 128 := by
  rw [UInt8.toNat_ofNat']
  omega

theorem not_moreGroup_lt {n : Nat} (h : n < 128) : ¬UInt8.ofNat (n + 128) < 128 := by
  rw [UInt8.lt_iff_toNat_lt, toNat_moreGroup h]
  exact Nat.not_lt_of_le (Nat.le_add_left 128 n)

theorem terminated_varintGroups (h : n < 128 ^ (limit + 1)) :
    Terminated (limit + 1) (varintGroups (limit + 1) n) := by
  induction limit generalizing n with
  | zero =>
    have hn : n < 128 := by simpa using h
    rw [varintGroups, if_pos hn]
    exact .last (lastGroup_lt hn)
  | succ limit ih =>
    rw [varintGroups]
    split
    · rename_i hn
      exact .last (lastGroup_lt hn)
    · have hrest : n / 128 < 128 ^ (limit + 1) := Nat.div_lt_of_lt_mul (by rwa [← Nat.pow_succ'])
      exact .more (not_moreGroup_lt (Nat.mod_lt n (by decide))) (ih hrest)

theorem groupValue_varintGroups (h : n < 128 ^ limit) : groupValue (varintGroups limit n) = n := by
  induction limit generalizing n with
  | zero =>
    rw [Nat.pow_zero, Nat.lt_one_iff] at h
    rw [h]
    rfl
  | succ limit ih =>
    rw [varintGroups]
    split
    · rename_i hn
      rw [groupValue, groupValue, toNat_lastGroup hn]
      omega
    · have hrest : n / 128 < 128 ^ limit := Nat.div_lt_of_lt_mul (by rwa [← Nat.pow_succ'])
      rw [groupValue, ih hrest, toNat_moreGroup (Nat.mod_lt n (by decide))]
      omega

theorem terminated_varint (v : UInt32) : Terminated 5 (varint v) :=
  terminated_varintGroups (Nat.lt_trans v.toNat_lt (by decide))

theorem groupValue_varint (v : UInt32) : groupValue (varint v) = v.toNat :=
  groupValue_varintGroups (Nat.lt_trans v.toNat_lt (by decide))

theorem lastGroup_le (groups : Bytes) :
    (groups.getLastD 0).toNat % 128 * 128 ^ (groups.length - 1) ≤ groupValue groups := by
  induction groups with
  | nil => simp [groupValue]
  | cons b rest ih =>
    cases rest with
    | nil => simp [groupValue]
    | cons c rest =>
      rw [List.getLastD_cons, List.getLastD_cons] at *
      rw [groupValue]
      simp only [List.length_cons, Nat.add_sub_cancel] at ih ⊢
      rw [Nat.pow_succ', Nat.mul_left_comm]
      exact Nat.le_trans (Nat.mul_le_mul_left 128 ih) (Nat.le_add_left _ _)

theorem lastGroup_varint {v : UInt32} (h : (varint v).length = 5) :
    ¬15 < ((varint v).getLastD 0).toNat % 128 := by
  have hle := lastGroup_le (varint v)
  have hlt := v.toNat_lt
  rw [groupValue_varint, h] at hle
  omega

theorem shiftLeft_groups (count : Nat) : ((1 <<< (7 * count) : Nat) : Int) = 128 ^ count := by
  rw [Nat.one_shiftLeft, Nat.pow_mul]
  exact Int.natCast_pow 128 count

/-- The number that groups denote when bit 6 of the last one is the sign. -/
def signedValue (groups : Bytes) : Int :=
  groupValue groups - if 64 ≤ (groups.getLastD 0).toNat % 128 then 128 ^ groups.length else 0

theorem signedValue_cons (b : UInt8) (h : rest ≠ []) :
    signedValue (b :: rest) = (b.toNat % 128 : Nat) + 128 * signedValue rest := by
  obtain ⟨c, rest, rfl⟩ := List.exists_cons_of_ne_nil h
  simp only [signedValue, groupValue, List.getLastD_cons, List.length_cons]
  split
  · push_cast
    rw [Int.pow_succ]
    omega
  · push_cast
    omega

theorem signedValue_lastGroup {n : Int}
    (h : (n / 128 = 0 ∧ (n % 128).toNat < 64) ∨ (n / 128 = -1 ∧ 64 ≤ (n % 128).toNat)) :
    signedValue [UInt8.ofNat (n % 128).toNat] = n := by
  have hgroup : (n % 128).toNat < 128 := by omega
  simp only [signedValue, groupValue, List.getLastD_cons, List.getLastD_nil, List.length_singleton,
    toNat_lastGroup hgroup]
  split <;> omega

theorem signedGroups_spec (hl : -(64 * 128 ^ limit) ≤ n) (hr : n < 64 * 128 ^ limit) :
    Terminated (limit + 1) (signedGroups (limit + 1) n) ∧
      signedValue (signedGroups (limit + 1) n) = n := by
  induction limit generalizing n with
  | zero =>
    have hgroup : (n % 128).toNat < 128 := by omega
    have hlast : (n / 128 = 0 ∧ (n % 128).toNat < 64) ∨ (n / 128 = -1 ∧ 64 ≤ (n % 128).toNat) := by
      omega
    rw [signedGroups, if_pos hlast]
    exact ⟨.last (lastGroup_lt hgroup), signedValue_lastGroup hlast⟩
  | succ limit ih =>
    have hgroup : (n % 128).toNat < 128 := by omega
    rw [signedGroups]
    split
    · rename_i hlast
      exact ⟨.last (lastGroup_lt hgroup), signedValue_lastGroup hlast⟩
    · -- The quotient has the sign of the number, and one group less.
      have hpow : (128 : Int) ^ (limit + 1) = 128 * 128 ^ limit := Int.pow_succ' ..
      obtain ⟨ht, hv⟩ := ih (n := n / 128) (by omega) (by omega)
      refine ⟨.more (not_moreGroup_lt hgroup) ht, ?_⟩
      rw [signedValue_cons _ ht.ne_nil, hv, toNat_moreGroup hgroup]
      omega

theorem terminated_signedVarint (v : Int32) : Terminated 5 (signedVarint v) :=
  (signedGroups_spec (by have := v.le_toInt; omega) (by have := v.toInt_lt; omega)).1

theorem signedValue_signedVarint (v : Int32) : signedValue (signedVarint v) = v.toInt :=
  (signedGroups_spec (by have := v.le_toInt; omega) (by have := v.toInt_lt; omega)).2

end ActionVm.Bytes
