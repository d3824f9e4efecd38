import ActionVm.Proofs.Bytes.Words

namespace ActionVm

def extent (size : α → Nat) : List α → Nat
  | [] => 0
  | a :: rest => size a + extent size rest

/-- Where the last of the entries with a property starts, when the first one starts at an offset. -/
def lastStart (size : α → Nat) (p : α → Bool) (offset : Nat) : List α → Option Nat
  | [] => none
  | a :: rest => (lastStart size p (offset + size a) rest).or (if p a then some offset else none)

@[simp] theorem extent_append (size : α → Nat) (l more : List α) :
    extent size (l ++ more) = extent size l + extent size more := by
  induction l with
  | nil => simp [extent]
  | cons a rest ih => simp [extent, ih, Nat.add_assoc]

theorem length_flatMap_of_size {size : α → Nat} {f : α → Bytes} (h : ∀ a, (f a).length = size a) (l : List α) :
    (l.flatMap f).length = extent size l := by
  induction l with
  | nil => rfl
  | cons a rest ih => simp [extent, h, ih]

theorem lastStart_append (size : α → Nat) (p : α → Bool) (offset : Nat) (l more : List α) :
    lastStart size p offset (l ++ more) =
      (lastStart size p (offset + extent size l) more).or (lastStart size p offset l) := by
  induction l generalizing offset with
  | nil => simp [lastStart, extent]
  | cons a rest ih => simp [lastStart, extent, ih, Nat.add_assoc, Option.or_assoc]

theorem lastStart_le {size : α → Nat} {p : α → Bool} {l : List α} (h : lastStart size p offset l = some found) :
    found ≤ offset + extent size l := by
  induction l generalizing offset with
  | nil => cases h
  | cons a rest ih =>
    rw [extent]
    rcases Option.or_eq_some_iff.mp h with h | ⟨-, h⟩
    · have := ih h
      omega
    · split at h
      · cases h
        omega
      · cases h

/-- How entries become code. Each has bytes that are known at once and, if it refers to something, a field
behind them that is filled in at the end. -/
structure Patchwork (α ρ : Type) where
  head : α → Bytes
  reference? : α → Option ρ
  width : Nat

namespace Patchwork

variable (P : Patchwork α ρ)

def size (a : α) : Nat :=
  (P.head a).length + (P.reference? a).elim 0 fun _ => P.width

/-- The bytes of an entry before its field is filled in. -/
def blank (a : α) : Bytes :=
  P.head a ++ (P.reference? a).elim [] fun _ => Bytes.littleEndian P.width 0

def bytes (fill : Nat → ρ → Bytes) (start : Nat) (a : α) : Bytes :=
  P.head a ++ (P.reference? a).elim [] (fill (start + (P.head a).length))

def assemble (fill : Nat → ρ → Bytes) (start : Nat) : List α → Bytes
  | [] => []
  | a :: rest => P.bytes fill start a ++ assemble fill (start + P.size a) rest

def fields (start : Nat) : List α → List (Nat × ρ)
  | [] => []
  | a :: rest =>
    (P.reference? a).toList.map (start + (P.head a).length, ·) ++ fields (start + P.size a) rest

@[simp] theorem length_blank (a : α) : (P.blank a).length = P.size a := by
  rw [blank, size, List.length_append]
  cases P.reference? a with
  | none => rfl
  | some r => rw [Option.elim_some, Option.elim_some, Bytes.length_littleEndian]

@[simp] theorem length_flatMap_blank (l : List α) : (l.flatMap P.blank).length = extent P.size l :=
  length_flatMap_of_size P.length_blank l

theorem fields_append (start : Nat) (l more : List α) :
    P.fields start (l ++ more) = P.fields start l ++ P.fields (start + extent P.size l) more := by
  induction l generalizing start with
  | nil => rfl
  | cons a rest ih => simp [fields, ih, extent, Nat.add_assoc]

theorem within_fields {l : List α} (h : f ∈ P.fields start l) :
    start ≤ f.1 ∧ f.1 + P.width ≤ start + extent P.size l := by
  induction l generalizing start with
  | nil => cases h
  | cons a rest ih =>
    rw [extent]
    rcases List.mem_append.mp h with h | h
    · obtain ⟨r, hr, rfl⟩ := List.mem_map.mp h
      have hsize : P.size a = (P.head a).length + P.width := by
        rw [size, Option.mem_toList.mp hr]
        rfl
      omega
    · have := ih h
      omega

theorem apart_fields (start : Nat) (l : List α) :
    (P.fields start l).Pairwise fun f g => f.1 + P.width ≤ g.1 := by
  induction l generalizing start with
  | nil => exact .nil
  | cons a rest ih =>
    rw [fields, List.pairwise_append]
    cases hr : P.reference? a with
    | none => exact ⟨.nil, ih _, by simp⟩
    | some r =>
      refine ⟨List.pairwise_singleton .., ih _, fun f hf g hg => ?_⟩
      have hsize : P.size a = (P.head a).length + P.width := by
        rw [size, hr]
        rfl
      cases List.mem_singleton.mp hf
      have hbehind := (P.within_fields hg).1
      rw [hsize] at hbehind
      change start + (P.head a).length + P.width ≤ g.1
      omega

section Filled

variable {fill : Nat → ρ → Bytes} (hwidth : ∀ start r, (fill start r).length = P.width)

include hwidth

theorem length_bytes (start : Nat) (a : α) : (P.bytes fill start a).length = P.size a := by
  rw [bytes, size, List.length_append]
  cases P.reference? a with
  | none => rfl
  | some r => rw [Option.elim_some, Option.elim_some, hwidth]

theorem length_assemble (start : Nat) (l : List α) : (P.assemble fill start l).length = extent P.size l := by
  induction l generalizing start with
  | nil => rfl
  | cons a rest ih => rw [assemble, extent, List.length_append, P.length_bytes hwidth, ih]

/-- Filling in the fields makes blank code the code of its entries. -/
theorem foldlM_patch (fix : Array UInt8 → Nat × ρ → Except ε (Array UInt8)) {l : List α}
    (hfix : ∀ a ∈ l, ∀ r, P.reference? a = some r →
      ∀ code start, fix code (start, r) = .ok (Bytes.patch code start (fill start r)))
    {before behind : Bytes} {code : Array UInt8} (hcode : code.toList = before ++ l.flatMap P.blank ++ behind) :
    ∃ done, (P.fields before.length l).foldlM fix code = .ok done ∧
      done.toList = before ++ P.assemble fill before.length l ++ behind := by
  induction l generalizing before code with
  | nil => exact ⟨code, rfl, hcode⟩
  | cons a rest ih =>
    have hrest := fun b hb => hfix b (List.mem_cons_of_mem _ hb)
    rw [List.flatMap_cons, blank] at hcode
    rw [fields, assemble, bytes, size]
    cases hr : P.reference? a with
    | none =>
      rw [hr, Option.elim_none, List.append_nil, ← List.append_assoc] at hcode
      obtain ⟨done, hdone, hlist⟩ := ih hrest hcode
      rw [List.length_append] at hdone hlist
      exact ⟨done, hdone, by simpa using hlist⟩
    | some r =>
      have hold : code.toList =
          (before ++ P.head a) ++ Bytes.littleEndian P.width 0 ++ (rest.flatMap P.blank ++ behind) := by
        simpa [hr] using hcode
      have hstart : (before ++ P.head a).length = before.length + (P.head a).length := List.length_append
      have hnew := Bytes.toList_patch hold
        ((Bytes.length_littleEndian ..).trans (hwidth (before.length + (P.head a).length) r).symm)
      rw [hstart, ← List.append_assoc] at hnew
      obtain ⟨done, hdone, hlist⟩ := ih hrest hnew
      rw [List.length_append, hstart, hwidth, Nat.add_assoc] at hdone hlist
      refine ⟨done, ?_, by simpa using hlist⟩
      have hfixed := hfix a List.mem_cons_self r hr code (before.length + (P.head a).length)
      simp only [Option.toList_some, List.map_cons, List.map_nil, List.singleton_append, List.foldlM_cons, hfixed]
      exact hdone

end Filled

theorem assemble_append (fill : Nat → ρ → Bytes) (start : Nat) (l more : List α) :
    P.assemble fill start (l ++ more) =
      P.assemble fill start l ++ P.assemble fill (start + extent P.size l) more := by
  induction l generalizing start with
  | nil => rfl
  | cons a rest ih => simp [assemble, ih, extent, Nat.add_assoc]

theorem assemble_eq_flatMap (fill : ρ → Bytes) (start : Nat) (l : List α) :
    P.assemble (fun _ => fill) start l = l.flatMap (P.bytes (fun _ => fill) 0) := by
  induction l generalizing start with
  | nil => rfl
  | cons a rest ih =>
    rw [assemble, ih, List.flatMap_cons]
    rfl

end Patchwork

end ActionVm
