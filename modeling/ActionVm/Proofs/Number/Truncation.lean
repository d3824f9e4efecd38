import ActionVm.Object.Coercion
import Mathlib

namespace ActionVm

/-- A rational number without its places after the point. -/
def towardZero (x : ℚ) : ℤ :=
  if x < 0 then ⌈x⌉ else ⌊x⌋

theorem towardZero_of_nonneg {x : ℚ} (h : 0 ≤ x) : towardZero x = ⌊x⌋ :=
  if_neg (not_lt.mpr h)

theorem towardZero_neg {x : ℚ} (h : 0 ≤ x) : towardZero (-x) = -⌊x⌋ := by
  rcases h.eq_or_lt with rfl | hpos
  · simp [towardZero]
  · rw [towardZero, if_pos (neg_lt_zero.mpr hpos), Int.ceil_neg]

namespace Double

/-- The magnitude of a finite number: the exponent bits choose a power of two, and the fraction is counted
from one, or from zero where the exponent bits are all clear. -/
def size (d : Double) : ℚ :=
  if d.biased = 0 then d.fraction / 2 ^ (52 : ℤ) * 2 ^ (-1022 : ℤ)
  else (1 + d.fraction / 2 ^ (52 : ℤ)) * 2 ^ ((d.biased : ℤ) - 1023)

def exact (d : Double) : ℚ :=
  if d.isNegative then -d.size else d.size

theorem size_eq (d : Double) : d.size = d.significand * 2 ^ d.exponent := by
  unfold size significand exponent
  by_cases h : d.biased = 0
  · rw [if_pos h, if_pos h, h, div_mul_eq_mul_div, mul_div_assoc, ← zpow_sub₀ two_ne_zero]
    norm_num
  · have hmax : max d.biased 1 = d.biased := by omega
    have hsplit : (d.biased : ℤ) - 1023 = 52 + (d.biased - 1075) := by ring
    rw [if_neg h, if_neg h, hmax, hsplit, zpow_add₀ two_ne_zero, ← mul_assoc, add_mul,
      div_mul_cancel₀ _ (zpow_ne_zero _ two_ne_zero)]
    norm_num [add_comm]

theorem size_nonneg (d : Double) : 0 ≤ d.size := by
  rw [size_eq]
  positivity

theorem significand_lt (d : Double) : d.significand < 2 ^ 53 := by
  have hfraction : d.fraction < 2 ^ 52 := Nat.mod_lt _ (by decide)
  unfold significand
  split <;> omega

theorem wholePart_eq (d : Double) :
    d.wholePart = if 0 ≤ d.exponent then d.significand * 2 ^ d.exponent.toNat
      else d.significand / 2 ^ (-d.exponent).toNat := by
  rw [wholePart, Nat.shiftLeft_eq, Nat.shiftRight_eq_div_pow]

theorem floor_size (d : Double) : ⌊d.size⌋ = d.wholePart := by
  rw [size_eq, wholePart_eq]
  split
  · rename_i h
    obtain ⟨n, hn⟩ := Int.eq_ofNat_of_zero_le h
    rw [hn, zpow_natCast, Int.toNat_natCast]
    have hcast : (d.significand : ℚ) * 2 ^ n = ((d.significand * 2 ^ n : ℕ) : ℚ) := by
      push_cast
      rfl
    rw [hcast, Int.floor_natCast]
  · rename_i h
    obtain ⟨n, hn⟩ := Int.eq_ofNat_of_zero_le (by omega : 0 ≤ -d.exponent)
    have hexp : d.exponent = -(n : ℤ) := by omega
    rw [hn, hexp, zpow_neg, zpow_natCast, Int.toNat_natCast, ← div_eq_mul_inv]
    have hcast : (d.significand : ℚ) / 2 ^ n = (d.significand : ℚ) / ((2 ^ n : ℕ) : ℚ) := by
      push_cast
      rfl
    rw [hcast, Rat.floor_natCast_div_natCast]
    rfl

/-- Truncating on the bits is truncating the exact value. -/
theorem truncate_eq (d : Double) : d.truncate = towardZero d.exact := by
  unfold truncate exact
  split
  · rw [towardZero_neg d.size_nonneg, floor_size]
  · rw [towardZero_of_nonneg d.size_nonneg, floor_size]

theorem even_wholePart {d : Double} (h : 2 ^ 53 ≤ d.wholePart) : 2 ∣ d.wholePart := by
  have hlt := d.significand_lt
  rw [wholePart_eq] at h ⊢
  split
  · rename_i hexp
    rw [if_pos hexp] at h
    cases hn : d.exponent.toNat with
    | zero =>
      rw [hn] at h
      omega
    | succ n =>
      exact Dvd.dvd.mul_left (dvd_pow_self 2 (Nat.succ_ne_zero n)) _
  · rename_i hexp
    rw [if_neg hexp] at h
    have hle := Nat.div_le_self d.significand (2 ^ (-d.exponent).toNat)
    omega

theorem not_isFinite {d : Double} (h : d.isNaN ∨ d.isInfinite) : d.isFinite = false := by
  have hbiased : d.biased = 2047 := by
    rcases h with h | h
    · exact (of_decide_eq_true h).1
    · exact (of_decide_eq_true h).1
  simp [isFinite, hbiased]

theorem toInt32_cases {d : Double} (h : d.isFinite = true) :
    (-2 ^ 63 ≤ towardZero d.exact ∧ towardZero d.exact < 2 ^ 63 ∧ d.toInt32 = Int32.ofInt (towardZero d.exact)) ∨
    (2 ^ 63 ≤ towardZero d.exact ∧ 2 ∣ towardZero d.exact ∧ d.toInt32 = -1) ∨
    (towardZero d.exact < -2 ^ 63 ∧ d.toInt32 = 0) := by
  unfold toInt32
  rw [if_pos h, ← truncate_eq]
  rcases lt_or_ge d.truncate (2 ^ 63) with hhigh | hhigh
  · rcases lt_or_ge d.truncate (-2 ^ 63) with hlow | hlow
    · right; right
      refine ⟨hlow, ?_⟩
      have hclamp : max (-0x8000000000000000) (min 0x7fffffffffffffff d.truncate) = -2 ^ 63 := by omega
      rw [hclamp]
      rfl
    · left
      refine ⟨hlow, hhigh, ?_⟩
      congr 1
      omega
  · right; left
    refine ⟨hhigh, ?_, ?_⟩
    · unfold truncate at hhigh ⊢
      split at hhigh
      · omega
      · rename_i hsign
        rw [if_neg hsign]
        have := even_wholePart (d := d) (by omega)
        omega
    · have hclamp : max (-0x8000000000000000) (min 0x7fffffffffffffff d.truncate) = 2 ^ 63 - 1 := by omega
      rw [hclamp]
      rfl

end Double

/-- A value that is no integer gives the truncated number modulo `2 ^ 32` if and only if that number fits into
64 bits, or lies below and is a multiple of `2 ^ 32`. Above it gives `-1`, which is never right, and below it
gives 0. What is not finite gives 0. -/
theorem toInt_wraps_within_word {v : Value} (hv : ∀ i, v ≠ .integer i) :
    (v.toNumber.isNaN ∨ v.toNumber.isInfinite → v.toInt = 0) ∧
    (v.toNumber.isFinite →
      (v.toInt.toInt ≡ towardZero v.toNumber.exact [ZMOD 2 ^ 32] ↔
        (-2 ^ 63 ≤ towardZero v.toNumber.exact ∧ towardZero v.toNumber.exact < 2 ^ 63) ∨
        (towardZero v.toNumber.exact < -2 ^ 63 ∧ 2 ^ 32 ∣ towardZero v.toNumber.exact)) ∧
      (2 ^ 63 ≤ towardZero v.toNumber.exact → v.toInt = -1) ∧
      (towardZero v.toNumber.exact < -2 ^ 63 → v.toInt = 0)) := by
  have hint : v.toInt = v.toNumber.toInt32 := by
    cases v with
    | integer i => exact absurd rfl (hv i)
    | _ => rfl
  rw [hint]
  refine ⟨fun h => ?_, fun h => ?_⟩
  · rw [Double.toInt32, if_neg (by simp [Double.not_isFinite h])]
  · rcases Double.toInt32_cases h with ⟨hlow, hhigh, hval⟩ | ⟨hhigh, heven, hval⟩ | ⟨hlow, hval⟩
    · have hcongr : (Int32.ofInt (towardZero v.toNumber.exact)).toInt ≡ towardZero v.toNumber.exact [ZMOD 2 ^ 32] := by
        rw [Int32.toInt_ofInt]
        exact Int.bmod_emod
      refine ⟨?_, fun h => absurd h (by omega), fun h => absurd h (by omega)⟩
      rw [hval]
      exact iff_of_true hcongr (.inl ⟨hlow, hhigh⟩)
    · refine ⟨?_, fun _ => hval, fun h => absurd h (by omega)⟩
      rw [hval]
      refine iff_of_false ?_ (by omega)
      intro hcongr
      have hone : (-1 : Int32).toInt = -1 := by decide
      rw [hone, Int.ModEq] at hcongr
      omega
    · refine ⟨?_, fun h => absurd h (by omega), fun _ => hval⟩
      rw [hval]
      have hzero : (0 : Int32).toInt = 0 := by decide
      rw [hzero, Int.ModEq]
      omega

/-- A text that stands for a number outside of 32 bits. -/
theorem toInt_wraps_text :
    towardZero (Value.text " -4294967298.75 ").toNumber.exact = -4294967298 ∧
    (Value.text " -4294967298.75 ").toInt.toInt ≡ -4294967298 [ZMOD 2 ^ 32] := by
  have hfinite : (Value.text " -4294967298.75 ").toNumber.isFinite := by decide +kernel
  have htruncate : towardZero (Value.text " -4294967298.75 ").toNumber.exact = -4294967298 := by
    rw [← Double.truncate_eq]
    decide +kernel
  have hwraps := ((toInt_wraps_within_word (v := .text " -4294967298.75 ") (by simp)).2 hfinite).1
  rw [htruncate] at hwraps
  exact ⟨htruncate, hwraps.mpr (.inl (by decide))⟩

/-- The number `2 ^ 63` gives `-1`, although it is a multiple of `2 ^ 32`. -/
theorem toInt_misses_two_pow_63 :
    ∃ v : Value, (∀ i, v ≠ .integer i) ∧ v.toNumber.isFinite ∧ v.toNumber.exact = 2 ^ (63 : ℤ) ∧ v.toInt = -1 ∧
      ¬v.toInt.toInt ≡ towardZero v.toNumber.exact [ZMOD 2 ^ 32] := by
  have hexact : (⟨0x43e0000000000000⟩ : Double).exact = 2 ^ (63 : ℤ) := by
    have hsign : (⟨0x43e0000000000000⟩ : Double).isNegative = false := by decide
    have hsignificand : (⟨0x43e0000000000000⟩ : Double).significand = 2 ^ 52 := by decide
    have hexponent : (⟨0x43e0000000000000⟩ : Double).exponent = 11 := by decide
    rw [Double.exact, hsign, Double.size_eq, hsignificand, hexponent]
    norm_num
  refine ⟨.number ⟨0x43e0000000000000⟩, by simp, by decide, hexact, by decide, ?_⟩
  have htruncate : towardZero (Value.number ⟨0x43e0000000000000⟩).toNumber.exact = 2 ^ 63 := by
    rw [← Double.truncate_eq]
    decide
  have hval : (Value.number ⟨0x43e0000000000000⟩).toInt.toInt = -1 := by decide
  rw [htruncate, hval]
  decide

end ActionVm
