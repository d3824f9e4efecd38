import ActionVm.Text.Utf8

namespace ActionVm.Utf8

section Character

variable {v : Nat} {rest : Bytes} {p : Pending}

theorem toNat_byte {n : Nat} (h : n < 256) : (UInt8.ofNat n).toNat = n := by
  rw [UInt8.toNat_ofNat', Nat.mod_eq_of_lt h]

def Pending.Admits (p : Pending) (next : Nat) : Prop :=
  p.low.toNat ≤ next ∧ next ≤ p.high.toNat

theorem Pending.admits_tail (bits owed v : Nat) : ({ bits, owed } : Pending).Admits (v % 64 + 0x80) := by
  simp only [Pending.Admits, UInt8.reduceToNat]
  omega

theorem Pending.Admits.step (h : p.Admits (v % 64 + 0x80)) (hbits : p.bits = v / 64) :
    step (some p) (UInt8.ofNat (v % 64 + 0x80)) =
      if p.owed ≤ 1 then ([Char.ofNat v], none) else ([], some { bits := v, owed := p.owed - 1 }) := by
  have hb : (UInt8.ofNat (v % 64 + 0x80)).toNat = v % 64 + 0x80 := toNat_byte (by omega)
  have hv : v / 64 * 64 + (v % 64 + 0x80) % 64 = v := by omega
  have hrange : p.low ≤ UInt8.ofNat (v % 64 + 0x80) ∧ UInt8.ofNat (v % 64 + 0x80) ≤ p.high := by
    rw [UInt8.le_iff_toNat_le, UInt8.le_iff_toNat_le, hb]
    exact h
  rw [Utf8.step, if_pos hrange, hb, hbits, hv]

theorem Pending.Admits.decodeFrom_last (h : p.Admits (v % 64 + 0x80)) (hbits : p.bits = v / 64)
    (howed : p.owed = 1) :
    decodeFrom (some p) (UInt8.ofNat (v % 64 + 0x80) :: rest) = Char.ofNat v :: decodeFrom none rest := by
  rw [decodeFrom, h.step hbits, howed]
  rfl

theorem Pending.Admits.decodeFrom_more (h : p.Admits (v % 64 + 0x80)) (hbits : p.bits = v / 64)
    (howed : p.owed = more + 2) :
    decodeFrom (some p) (UInt8.ofNat (v % 64 + 0x80) :: rest) =
      decodeFrom (some { bits := v, owed := more + 1 }) rest := by
  rw [decodeFrom, h.step hbits, howed, if_neg (by omega)]
  rfl

def Starts (b : UInt8) (bits owed next : Nat) : Prop :=
  ∃ p : Pending, lead b = ([], some p) ∧ p.bits = bits ∧ p.owed = owed ∧ p.Admits next

theorem decodeFrom_lead (h : lead b = ([], some p)) :
    decodeFrom none (b :: rest) = decodeFrom (some p) rest := by
  rw [decodeFrom, step, h]
  rfl

theorem lead_of_lt (h : b.toNat < 0x80) : lead b = ([Char.ofNat b.toNat], none) :=
  if_pos (UInt8.lt_iff_toNat_lt.mpr h)

theorem starts_two (hl : 0x80 ≤ v) (hr : v ≤ 0x7FF) :
    Starts (UInt8.ofNat (v / 64 % 32 + 0xC0)) (v / 64) 1 (v % 64 + 0x80) := by
  have hb : (UInt8.ofNat (v / 64 % 32 + 0xC0)).toNat = v / 64 + 0xC0 :=
    (toNat_byte (by omega)).trans (by omega)
  have hbits : (v / 64 + 0xC0) % 32 = v / 64 := by omega
  refine ⟨{ bits := v / 64, owed := 1 }, ?_, rfl, rfl, Pending.admits_tail ..⟩
  simp only [lead, UInt8.lt_iff_toNat_lt, hb, hbits, UInt8.reduceToNat]
  rw [if_neg (by omega), if_neg (by omega), if_pos (by omega)]

/-- Three bytes: 0xE0 leaves out what two bytes hold, 0xED the surrogates. -/
theorem starts_three (hl : 0x800 ≤ v) (hr : v ≤ 0xFFFF) (hvalid : v.isValidChar) :
    Starts (UInt8.ofNat (v / 4096 % 16 + 0xE0)) (v / 4096) 2 (v / 64 % 64 + 0x80) := by
  have hb : (UInt8.ofNat (v / 4096 % 16 + 0xE0)).toNat = v / 4096 + 0xE0 :=
    (toNat_byte (by omega)).trans (by omega)
  have hbits : (v / 4096 + 0xE0) % 16 = v / 4096 := by omega
  refine ⟨⟨v / 4096, 2, if v / 4096 = 0 then 0xA0 else 0x80, if v / 4096 = 13 then 0x9F else 0xBF⟩,
    ?_, rfl, rfl, ?_⟩
  · simp only [lead, UInt8.lt_iff_toNat_lt, ← UInt8.toNat_inj, hb, hbits, UInt8.reduceToNat]
    rw [if_neg (by omega), if_neg (by omega), if_neg (by omega)]
    by_cases h₀ : v / 4096 = 0
    · rw [if_pos (by omega), if_pos h₀, if_neg (by omega), h₀]
    · rw [if_neg (by omega), if_neg h₀]
      by_cases h₁ : v / 4096 = 13
      · rw [if_pos (by omega), if_pos h₁, h₁]
      · rw [if_neg (by omega), if_neg h₁, if_pos (by omega)]
  · constructor <;> dsimp only <;> split <;> simp only [UInt8.reduceToNat] <;> omega

/-- Four bytes: 0xF0 leaves out what three bytes hold, 0xF4 what is above the last code point. -/
theorem starts_four (hl : 0x10000 ≤ v) (hr : v < 0x110000) :
    Starts (UInt8.ofNat (v / 262144 % 8 + 0xF0)) (v / 262144) 3 (v / 4096 % 64 + 0x80) := by
  have hb : (UInt8.ofNat (v / 262144 % 8 + 0xF0)).toNat = v / 262144 + 0xF0 :=
    (toNat_byte (by omega)).trans (by omega)
  have hbits : (v / 262144 + 0xF0) % 8 = v / 262144 := by omega
  refine ⟨⟨v / 262144, 3, if v / 262144 = 0 then 0x90 else 0x80, if v / 262144 = 4 then 0x8F else 0xBF⟩,
    ?_, rfl, rfl, ?_⟩
  · simp only [lead, UInt8.lt_iff_toNat_lt, ← UInt8.toNat_inj, hb, hbits, UInt8.reduceToNat]
    rw [if_neg (by omega), if_neg (by omega), if_neg (by omega), if_neg (by omega), if_neg (by omega),
      if_neg (by omega)]
    by_cases h₀ : v / 262144 = 0
    · rw [if_pos (by omega), if_pos h₀, if_neg (by omega), h₀]
    · rw [if_neg (by omega), if_neg h₀]
      by_cases h₁ : v / 262144 = 4
      · rw [if_neg (by omega), if_pos (by omega), if_pos h₁, h₁]
      · rw [if_pos (by omega), if_neg h₁]
  · constructor <;> dsimp only <;> split <;> simp only [UInt8.reduceToNat] <;> omega

end Character

theorem decodeFrom_utf8EncodeChar (c : Char) (rest : Bytes) :
    decodeFrom none (String.utf8EncodeChar c ++ rest) = c :: decodeFrom none rest := by
  have hc : Char.ofNat c.val.toNat = c := Char.ofNat_toNat c
  have hvalid : c.val.toNat.isValidChar := c.valid
  have hlt : c.val.toNat < 0x110000 := by omega
  rw [String.utf8EncodeChar]
  generalize c.val.toNat = v at hc hvalid hlt ⊢
  split
  · have hb : (UInt8.ofNat v).toNat = v := toNat_byte (by omega)
    rw [List.singleton_append, decodeFrom, step, lead_of_lt (by omega), hb, hc]
    rfl
  split
  · obtain ⟨p, hlead, hbits, howed, h⟩ := starts_two (v := v) (by omega) (by omega)
    rw [List.cons_append, decodeFrom_lead hlead, List.singleton_append,
      h.decodeFrom_last hbits howed, hc]
  split
  · obtain ⟨p, hlead, hbits, howed, h⟩ := starts_three (v := v) (by omega) (by omega) hvalid
    rw [List.cons_append, decodeFrom_lead hlead, List.cons_append,
      h.decodeFrom_more (by omega) howed, List.singleton_append,
      (Pending.admits_tail ..).decodeFrom_last rfl rfl, hc]
  · obtain ⟨p, hlead, hbits, howed, h⟩ := starts_four (v := v) (by omega) hlt
    rw [List.cons_append, decodeFrom_lead hlead, List.cons_append,
      h.decodeFrom_more (by omega) howed, List.cons_append,
      (Pending.admits_tail ..).decodeFrom_more (by dsimp only; omega) rfl, List.singleton_append,
      (Pending.admits_tail ..).decodeFrom_last rfl rfl, hc]

theorem decodeFrom_flatMap (chars : List Char) :
    decodeFrom none (chars.flatMap String.utf8EncodeChar) = chars := by
  induction chars with
  | nil => rfl
  | cons c chars ih => rw [List.flatMap_cons, decodeFrom_utf8EncodeChar, ih]

/-- Reading undoes writing. -/
theorem decode_encode (text : String) : decode (encode text) = text := by
  rw [decode, encode, decodeFrom_flatMap, String.ofList_toList]

theorem any_of_lead {n : Nat} (hl : 128 ≤ n) (hr : n < 256) (rest : Bytes) :
    (UInt8.ofNat n :: rest).any (128 ≤ ·) = true := by
  have hle : 128 ≤ UInt8.ofNat n := by
    rw [UInt8.le_iff_toNat_le, toNat_byte hr]
    exact hl
  rw [List.any_cons, decide_eq_true hle, Bool.true_or]

theorem any_utf8EncodeChar (c : Char) : (String.utf8EncodeChar c).any (128 ≤ ·) = decide (128 ≤ c.toNat) := by
  rw [String.utf8EncodeChar, Char.toNat]
  generalize c.val.toNat = v
  by_cases hv : v ≤ 0x7F
  · have hb : (UInt8.ofNat v).toNat = v := toNat_byte (by omega)
    simp [hv, UInt8.le_iff_toNat_le, hb]
  · have hle : 128 ≤ v := by omega
    rw [if_neg hv, decide_eq_true hle]
    split
    · exact any_of_lead (by omega) (by omega) _
    split
    · exact any_of_lead (by omega) (by omega) _
    · exact any_of_lead (by omega) (by omega) _

theorem any_encode (text : String) : (encode text).any (128 ≤ ·) = text.toList.any (128 ≤ ·.toNat) := by
  rw [encode, List.any_flatMap]
  simp only [any_utf8EncodeChar]

def size (chars : List Char) : Nat :=
  (chars.flatMap String.utf8EncodeChar).length

theorem size_append (l l' : List Char) : size (l ++ l') = size l + size l' := by
  rw [size, List.flatMap_append, List.length_append]
  rfl

theorem size_singleton (c : Char) : size [c] = c.utf8Size := by
  rw [size, List.flatMap_singleton, String.length_utf8EncodeChar]

def taken : Option Pending → Nat
  | none => 0
  | some _ => 1

theorem lead_cases (b : UInt8) :
    (b.toNat < 0x80 ∧ lead b = ([Char.ofNat b.toNat], none)) ∨ lead b = ([replacement], none) ∨
      ∃ p, lead b = ([], some p) := by
  by_cases hb : b < 0x80
  · exact .inl ⟨UInt8.lt_iff_toNat_lt.mp hb, if_pos hb⟩
  · right
    rw [lead, if_neg hb]
    repeat' split
    all_goals first | exact .inl rfl | exact .inr ⟨_, rfl⟩

theorem utf8Size_ofNat {n : Nat} (h : n < 128) : (Char.ofNat n).utf8Size = 1 := by
  have hvalid : n.isValidChar := .inl (by omega)
  rw [Char.utf8Size_eq_one_iff, UInt32.le_iff_toNat_le, Char.ofNat, dif_pos hvalid]
  exact Nat.le_of_lt_succ h

theorem size_lead (b : UInt8) : size (lead b).1 + 3 * taken (lead b).2 ≤ 3 := by
  obtain ⟨hb, h⟩ | h | ⟨p, h⟩ := lead_cases b
  · rw [h, size_singleton, utf8Size_ofNat hb]
    exact Nat.le_add_right 1 2
  · rw [h, size_singleton]
    decide
  · rw [h]
    exact Nat.le_refl 3

theorem size_step (pending : Option Pending) (b : UInt8) :
    size (step pending b).1 + 3 * taken (step pending b).2 ≤ 3 * (taken pending + 1) := by
  cases pending with
  | none => exact size_lead b
  | some p =>
    rw [step]
    split
    · split
      · have hle := Char.utf8Size_le_four (Char.ofNat (p.bits * 64 + b.toNat % 64))
        rw [size_singleton]
        exact Nat.le_trans hle (Nat.le_add_right 4 2)
      · exact Nat.le_add_right 3 3
    · have hbroken : size (replacement :: (lead b).1) = 3 + size (lead b).1 := size_append [replacement] _
      show size (replacement :: (lead b).1) + 3 * taken (lead b).2 ≤ 3 + 3
      rw [hbroken, Nat.add_assoc]
      exact Nat.add_le_add_left (size_lead b) 3

theorem size_decodeFrom (pending : Option Pending) (bytes : Bytes) :
    size (decodeFrom pending bytes) ≤ 3 * (taken pending + bytes.length) := by
  induction bytes generalizing pending with
  | nil =>
    cases pending with
    | none => exact Nat.le_refl 0
    | some p => exact Nat.le_refl 3
  | cons b bytes ih =>
    have hstep := size_step pending b
    have hrest := ih (step pending b).2
    rw [decodeFrom, size_append, List.length_cons]
    omega

/-- Writing what was read takes three times the bytes at most. -/
theorem length_encode_decode (bytes : Bytes) : (encode (decode bytes)).length ≤ 3 * bytes.length := by
  have h := size_decodeFrom none bytes
  rw [taken, Nat.zero_add] at h
  rw [encode, decode, String.toList_ofList]
  exact h

end ActionVm.Utf8
