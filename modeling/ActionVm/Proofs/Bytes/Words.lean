import ActionVm.Bytes.Basic
import Mathlib.Algebra.Group.Int.Defs
import Mathlib.Algebra.Group.Nat.Defs

namespace ActionVm.Bytes

theorem split?_eq_some {bytes taken rest : Bytes} :
    split? n bytes = some (taken, rest) ↔ bytes = taken ++ rest ∧ taken.length = n := by
  induction n generalizing bytes taken with
  | zero =>
    simp only [split?, Option.some.injEq, Prod.mk.injEq, List.length_eq_zero_iff]
    constructor
    · rintro ⟨rfl, rfl⟩
      exact ⟨rfl, rfl⟩
    · rintro ⟨rfl, rfl⟩
      exact ⟨rfl, rfl⟩
  | succ n ih =>
    cases bytes with
    | nil =>
      refine ⟨nofun, ?_⟩
      rintro ⟨h, hlen⟩
      rw [(List.append_eq_nil_iff.mp h.symm).1] at hlen
      cases hlen
    | cons b bytes =>
      simp only [split?, Option.map_eq_some_iff, Prod.exists, Prod.mk.injEq]
      constructor
      · rintro ⟨taken, rest, h, rfl, rfl⟩
        obtain ⟨rfl, rfl⟩ := ih.mp h
        exact ⟨rfl, rfl⟩
      · rintro ⟨h, hlen⟩
        cases taken with
        | nil => cases hlen
        | cons c taken =>
          obtain ⟨rfl, rfl⟩ := List.cons.inj h
          exact ⟨taken, rest, ih.mpr ⟨rfl, Nat.succ.inj hlen⟩, rfl, rfl⟩

@[simp] theorem length_littleEndian (width n : Nat) : (littleEndian width n).length = width := by
  induction width generalizing n with
  | zero => rfl
  | succ width ih => rw [littleEndian, List.length_cons, ih]

theorem value_littleEndian (width n : Nat) : value (littleEndian width n) = n % 256 ^ width := by
  induction width generalizing n with
  | zero => rw [littleEndian, value, Nat.pow_zero, Nat.mod_one]
  | succ width ih =>
    have hsplit : n % 256 ^ (width + 1) = n % 256 + 256 * (n / 256 % 256 ^ width) := by
      rw [Nat.pow_succ', Nat.mod_mul]
    rw [littleEndian, value, ih, UInt8.toNat_ofNat', hsplit]

theorem split?_littleEndian (width n : Nat) (rest : Bytes) :
    split? width (littleEndian width n ++ rest) = some (littleEndian width n, rest) :=
  split?_eq_some.mpr ⟨rfl, length_littleEndian width n⟩

theorem value_ofUInt16 (v : UInt16) : UInt16.ofNat (value (ofUInt16 v)) = v := by
  have hlt : v.toNat < 256 ^ 2 := v.toNat_lt
  rw [ofUInt16, value_littleEndian, Nat.mod_eq_of_lt hlt, UInt16.ofNat_toNat]

theorem value_ofUInt32 (v : UInt32) : UInt32.ofNat (value (ofUInt32 v)) = v := by
  have hlt : v.toNat < 256 ^ 4 := v.toNat_lt
  rw [ofUInt32, value_littleEndian, Nat.mod_eq_of_lt hlt, UInt32.ofNat_toNat]

theorem value_ofUInt64 (v : UInt64) : UInt64.ofNat (value (ofUInt64 v)) = v := by
  have hlt : v.toNat < 256 ^ 8 := v.toNat_lt
  rw [ofUInt64, value_littleEndian, Nat.mod_eq_of_lt hlt, UInt64.ofNat_toNat]

theorem value_ofInt32 {v : Int} (hl : -2 ^ 31 ≤ v) (hr : v < 2 ^ 31) :
    (UInt32.ofNat (value (ofInt32 v))).toInt32.toInt = v := by
  have hsize : (UInt32.size : Int) = 2 ^ 32 := rfl
  have hmod : ((v % 2 ^ 32).toNat : Int) = v % (2 ^ 32 : Nat) := by omega
  have hlt : (v % 2 ^ 32).toNat < 256 ^ 4 := by omega
  rw [ofInt32, hsize, value_littleEndian, Nat.mod_eq_of_lt hlt, UInt32.toInt32_ofNat', Int32.toInt_ofNat', hmod]
  exact (Int.emod_bmod ..).trans (Int.bmod_eq_of_le (by omega) (by omega))

/-- Overwriting a field leaves what stands before and behind it. -/
theorem toList_patch {code : Array UInt8} {before old new behind : Bytes}
    (h : code.toList = before ++ old ++ behind) (hlen : old.length = new.length) :
    (patch code before.length new).toList = before ++ new ++ behind := by
  induction new generalizing code before old with
  | nil =>
    obtain rfl := List.length_eq_zero_iff.mp hlen
    exact h
  | cons b new ih =>
    cases old with
    | nil => cases hlen
    | cons c old =>
      have hset : (code.setIfInBounds before.length b).toList = (before ++ [b]) ++ old ++ behind := by
        rw [Array.toList_setIfInBounds, h]
        simp
      have hnext := ih hset (Nat.succ.inj hlen)
      rw [List.length_append, List.length_singleton] at hnext
      simpa [patch] using hnext

end ActionVm.Bytes
