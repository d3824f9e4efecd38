import ActionVm.Proofs.Bytes.Patchwork
import ActionVm.Proofs.Native.Validation
import ActionVm.Proofs.Program

namespace ActionVm

namespace Bytes

/-- The signed number in the four bytes from a place on. -/
def distanceAt (code : Bytes) (field : Nat) : Int :=
  (UInt32.ofNat (value ((code.drop field).take 4))).toInt32.toInt

section Patch

variable {code : Array UInt8} {start : Nat} {new : Bytes} (h : start + new.length ≤ code.size)

include h

theorem toList_patch_of_le :
    (patch code start new).toList = code.toList.take start ++ new ++ code.toList.drop (start + new.length) := by
  have hlength : start + new.length ≤ code.toList.length := by rwa [Array.length_toList]
  have hsplit : code.toList = code.toList.take start ++ (code.toList.drop start).take new.length ++
      code.toList.drop (start + new.length) := by
    rw [List.append_assoc, ← List.drop_drop, List.take_append_drop, List.take_append_drop]
  have hbefore : (code.toList.take start).length = start := by
    rw [List.length_take]
    omega
  have hold : ((code.toList.drop start).take new.length).length = new.length := by
    rw [List.length_take, List.length_drop]
    omega
  have hpatch := toList_patch hsplit hold
  rwa [hbefore] at hpatch

theorem size_patch : (patch code start new).size = code.size := by
  rw [← Array.length_toList, toList_patch_of_le h, ← Array.length_toList]
  simp only [List.length_append, List.length_take, List.length_drop, Array.length_toList]
  omega

theorem getElem?_patch (hk : k < new.length) : (patch code start new)[start + k]? = new[k]? := by
  have hbefore : (code.toList.take start).length = start := by
    rw [List.length_take, Array.length_toList]
    omega
  rw [← Array.getElem?_toList, toList_patch_of_le h, List.append_assoc,
    List.getElem?_append_right (by omega), hbefore, Nat.add_sub_cancel_left, List.getElem?_append_left hk]

theorem getElem?_patch_of_outside (hi : i < start ∨ start + new.length ≤ i) :
    (patch code start new)[i]? = code[i]? := by
  have hbefore : (code.toList.take start).length = start := by
    rw [List.length_take, Array.length_toList]
    omega
  rw [← Array.getElem?_toList, ← Array.getElem?_toList, toList_patch_of_le h, List.append_assoc]
  rcases hi with hi | hi
  · rw [List.getElem?_append_left (by omega), List.getElem?_take_of_lt hi]
  · rw [List.getElem?_append_right (by omega), List.getElem?_append_right (by omega), List.getElem?_drop, hbefore]
    congr 1
    omega

end Patch

end Bytes

namespace Native.Buffer

inductive Edit where
  | u8 (value : UInt8)
  | u32 (value : UInt32)
  | u64 (value : UInt64)
  | newLabel
  | bind (label : Nat)
  | rel32 (label : Nat)
  deriving DecidableEq

namespace Edit

def run (b : Buffer) : Edit → Except BoundsError Buffer
  | u8 value => return b.emit [value]
  | u32 value => return b.emit (Bytes.ofUInt32 value)
  | u64 value => return b.emit (Bytes.ofUInt64 value)
  | newLabel => return b.newLabel.1
  | bind label => return b.bind (← b.label label)
  | rel32 label => return b.rel32 (← b.label label)

def patchwork : Patchwork Edit Nat where
  head
    | u8 value => [value]
    | u32 value => Bytes.ofUInt32 value
    | u64 value => Bytes.ofUInt64 value
    | newLabel | bind _ | rel32 _ => []
  reference?
    | rel32 label => some label
    | _ => none
  width := 4

def bytes : Edit → Bytes :=
  patchwork.blank

def references : Nat → List Edit → List (Nat × Nat) :=
  patchwork.fields

/-- Where edits that start at an offset bind a label for the last time. -/
def lastBound (wanted : Nat) : Nat → List Edit → Option Nat :=
  lastStart patchwork.size (· = bind wanted)

theorem lastBound_singleton (wanted offset : Nat) (edit : Edit) :
    lastBound wanted offset [edit] = if edit = bind wanted then some offset else none := by
  simp [lastBound, lastStart]

end Edit

open Edit

theorem label_eq_ok {b : Buffer} (h : b.label number = .ok place) : place = number ∧ number < b.labels.size := by
  unfold label Bounds.place at h
  split at h
  · cases h
    exact ⟨rfl, ‹_›⟩
  · cases h

/-- One buffer is another after some edits. -/
structure After (b : Buffer) (edits : List Edit) (b' : Buffer) : Prop where
  code : b'.code.toList = b.code.toList ++ edits.flatMap bytes
  fixups : b'.fixups.toList = b.fixups.toList ++ references b.code.size edits
  bound : ∀ label, b'.target? label = (lastBound label b.code.size edits).or (b.target? label)

namespace After

theorem size {b b' : Buffer} (h : After b edits b') : b'.code.size = b.code.size + extent patchwork.size edits := by
  rw [← Array.length_toList, h.code, List.length_append, Array.length_toList]
  exact congrArg (b.code.size + ·) (patchwork.length_flatMap_blank edits)

theorem emit {edit : Edit} (b : Buffer) (href : references b.code.size [edit] = [])
    (hbind : ∀ label, edit ≠ .bind label) : After b [edit] (b.emit edit.bytes) where
  code := by simp [Buffer.emit]
  fixups := by simp [Buffer.emit, href]
  bound label := by simp [Buffer.emit, Buffer.target?, lastBound_singleton, hbind]

theorem newLabel (b : Buffer) : After b [.newLabel] b.newLabel.1 where
  code := (List.append_nil _).symm
  fixups := (List.append_nil _).symm
  bound label := by
    simp only [Buffer.newLabel, Buffer.target?, lastBound_singleton, Array.getElem?_push]
    split
    · simp [‹label = _›]
    · simp

theorem bind {b : Buffer} {label : Nat} (h : label < b.labels.size) : After b [.bind label] (b.bind label) where
  code := (List.append_nil _).symm
  fixups := (List.append_nil _).symm
  bound other := by
    rw [Emission.target?_bind h]
    by_cases he : other = label
    · simp [lastBound_singleton, he]
    · simp [lastBound_singleton, he, Ne.symm he]

theorem rel32 (b : Buffer) (label : Nat) : After b [.rel32 label] (b.rel32 label) where
  code := Array.toList_appendList ..
  fixups := Array.toList_push
  bound other := by simp [Buffer.rel32, Buffer.target?, lastBound_singleton]

theorem step {b b' : Buffer} {edit : Edit} (h : edit.run b = .ok b') : After b [edit] b' := by
  cases edit with
  | u8 value =>
    cases h
    exact emit b rfl (by simp)
  | u32 value =>
    cases h
    exact emit b rfl (by simp)
  | u64 value =>
    cases h
    exact emit b rfl (by simp)
  | newLabel =>
    cases h
    exact newLabel b
  | bind label =>
    obtain ⟨place, hlabel, hbind⟩ := except_bind_eq_ok.mp h
    obtain ⟨rfl, hlt⟩ := label_eq_ok hlabel
    cases hbind
    exact bind hlt
  | rel32 label =>
    obtain ⟨place, hlabel, hrel⟩ := except_bind_eq_ok.mp h
    obtain ⟨rfl, -⟩ := label_eq_ok hlabel
    cases hrel
    exact rel32 b place

theorem trans {b b' b'' : Buffer} (h : After b edits b') (hs : After b' more b'') : After b (edits ++ more) b'' where
  code := by rw [hs.code, h.code, List.flatMap_append, List.append_assoc]
  fixups := by rw [hs.fixups, h.fixups, h.size, List.append_assoc, references, patchwork.fields_append]
  bound label := by rw [hs.bound, h.bound, h.size, lastBound, lastStart_append, Option.or_assoc]

theorem of_foldlM {b b' : Buffer} {edits : List Edit} (h : edits.foldlM run b = .ok b') : After b edits b' := by
  induction edits generalizing b with
  | nil =>
    cases h
    exact ⟨(List.append_nil _).symm, (List.append_nil _).symm, fun _ => rfl⟩
  | cons edit rest ih =>
    rw [List.foldlM_cons] at h
    obtain ⟨b₁, hstep, hrest⟩ := except_bind_eq_ok.mp h
    exact (step hstep).trans (ih hrest)

end After

/-- Code with the references filled in. -/
structure Filled (b : Buffer) (fixups : List (Nat × Nat)) (code done : Array UInt8) : Prop where
  size : done.size = code.size
  field : ∀ field label, (field, label) ∈ fixups → ∃ target : Nat, b.target? label = some target ∧
    ∀ k < 4, done[field + k]? = (Bytes.ofInt32 ((target : Int) - (field + 4)))[k]?
  rest : ∀ i, (∀ f ∈ fixups, i < f.1 ∨ f.1 + 4 ≤ i) → done[i]? = code[i]?

theorem fix_eq_ok {b : Buffer} {code done : Array UInt8} {field label : Nat}
    (h : b.fix code field label = .ok done) :
    ∃ target : Nat, b.target? label = some target ∧
      done = Bytes.patch code field (Bytes.ofInt32 ((target : Int) - (field + 4))) := by
  unfold fix at h
  split at h
  · cases h
  · rename_i target htarget
    cases h
    exact ⟨target, htarget, rfl⟩

/-- References that lie apart are filled in one after the other without disturbing each other. -/
theorem filled_of_foldlM {b : Buffer} {fixups : List (Nat × Nat)} {code done : Array UInt8}
    (hapart : fixups.Pairwise fun f g => f.1 + 4 ≤ g.1) (hwithin : ∀ f ∈ fixups, f.1 + 4 ≤ code.size)
    (h : fixups.foldlM (fun code (field, label) => b.fix code field label) code = .ok done) :
    Filled b fixups code done := by
  induction fixups generalizing code with
  | nil =>
    cases h
    exact ⟨rfl, fun _ _ hm => absurd hm List.not_mem_nil, fun _ _ => rfl⟩
  | cons f rest ih =>
    obtain ⟨field, label⟩ := f
    obtain ⟨hfirst, hapart⟩ := List.pairwise_cons.mp hapart
    rw [List.foldlM_cons] at h
    obtain ⟨patched, hfix, h⟩ := except_bind_eq_ok.mp h
    obtain ⟨target, htarget, rfl⟩ := fix_eq_ok hfix
    have hroom : field + (Bytes.ofInt32 ((target : Int) - (field + 4))).length ≤ code.size := by
      simpa [Bytes.ofInt32] using hwithin _ List.mem_cons_self
    have hsize := Bytes.size_patch hroom
    have hrest := ih hapart (fun g hg => hsize ▸ hwithin g (List.mem_cons_of_mem _ hg)) h
    refine ⟨hrest.size.trans hsize, ?_, ?_⟩
    · intro place name hm
      rcases List.mem_cons.mp hm with he | hm
      · cases he
        refine ⟨target, htarget, fun k hk => ?_⟩
        -- the references behind this one leave it alone
        have hbehind : ∀ g ∈ rest, field + k < g.1 ∨ g.1 + 4 ≤ field + k := fun g hg =>
          .inl (Nat.lt_of_lt_of_le (Nat.add_lt_add_left hk field) (hfirst g hg))
        rw [hrest.rest (field + k) hbehind]
        exact Bytes.getElem?_patch hroom (by simpa [Bytes.ofInt32] using hk)
      · exact hrest.field place name hm
    · intro i hi
      rw [hrest.rest i fun g hg => hi g (List.mem_cons_of_mem _ hg)]
      apply Bytes.getElem?_patch_of_outside hroom
      simpa [Bytes.ofInt32] using hi _ List.mem_cons_self

/-- The first reference to a label without a target is the one that is reported. -/
theorem errorOf_finish (b : Buffer) :
    errorOf b.finish =
      b.fixups.toList.findSome? fun f => if b.target? f.2 = none then some ⟨f.2⟩ else none := by
  have hfix (code : Array UInt8) (f : Nat × Nat) :
      errorOf (b.fix code f.1 f.2) = if b.target? f.2 = none then some ⟨f.2⟩ else none := by
    unfold fix
    cases b.target? f.2 <;> rfl
  rw [finish, errorOf_bind_pure, ← Array.foldlM_toList]
  exact errorOf_foldlM _ hfix _ _

theorem finish_eq_ok {b : Buffer} {bytes : Bytes} (h : b.finish = .ok bytes) :
    ∃ done, b.fixups.toList.foldlM (fun code (field, label) => b.fix code field label) b.code = .ok done ∧
      done.toList = bytes := by
  rw [finish, ← Array.foldlM_toList] at h
  obtain ⟨done, hdone, h⟩ := except_bind_eq_ok.mp h
  exact ⟨done, hdone, Except.ok.inj h⟩

/-- The code that edits ask for: as long as what they emit, with the distance to the label's last binding in
every reference, and with all other bytes as they were emitted. -/
structure Resolves (edits : List Edit) (code : Bytes) : Prop where
  length : code.length = (edits.flatMap bytes).length
  field : ∀ field label, (field, label) ∈ references 0 edits → ∃ target : Nat, lastBound label 0 edits = some target ∧
    (field : Int) + 4 + Bytes.distanceAt code field = target
  rest : ∀ i, (∀ f ∈ references 0 edits, i < f.1 ∨ f.1 + 4 ≤ i) → code[i]? = (edits.flatMap bytes)[i]?

/-- A label that edits refer to and do not bind, while all labels that are referred to earlier are bound. -/
def FirstUnbound (edits : List Edit) (e : UnboundLabel) : Prop :=
  ∃ earlier field later, references 0 edits = earlier ++ (field, e.label) :: later ∧
    lastBound e.label 0 edits = none ∧ ∀ f ∈ earlier, lastBound f.2 0 edits ≠ none

theorem distanceAt_of_field {code : Bytes} {d : Int} (hl : -2 ^ 31 ≤ d) (hr : d < 2 ^ 31)
    (h : ∀ k < 4, code[field + k]? = (Bytes.ofInt32 d)[k]?) : Bytes.distanceAt code field = d := by
  have hfield : (code.drop field).take 4 = Bytes.ofInt32 d := by
    apply List.ext_getElem?
    intro k
    by_cases hk : k < 4
    · rw [List.getElem?_take_of_lt hk, List.getElem?_drop, h k hk]
    · have hlength : (Bytes.ofInt32 d).length = 4 := Bytes.length_littleEndian ..
      rw [List.getElem?_eq_none (by simp; omega), List.getElem?_eq_none (by omega)]
  rw [Bytes.distanceAt, hfield]
  exact Bytes.value_ofInt32 hl hr

section Finish

variable {edits : List Edit} {b : Buffer} (hafter : After {} edits b)

include hafter

theorem fixups_of_after : b.fixups.toList = references 0 edits := by
  simpa using hafter.fixups

theorem target?_of_after (label : Nat) : b.target? label = lastBound label 0 edits := by
  simpa [target?] using hafter.bound label

theorem errorOf_finish_of_after :
    errorOf b.finish =
      (references 0 edits).findSome? fun f => if lastBound f.2 0 edits = none then some ⟨f.2⟩ else none := by
  simp only [b.errorOf_finish, fixups_of_after hafter, target?_of_after hafter]

theorem resolves_of_finish {code : Bytes} (hsize : b.code.size < 2 ^ 31) (hok : b.finish = .ok code) :
    Resolves edits code := by
  obtain ⟨done, hdone, rfl⟩ := finish_eq_ok hok
  have hcode : b.code.toList = edits.flatMap bytes := by simpa using hafter.code
  have hlength : (edits.flatMap bytes).length = b.code.size := by rw [← hcode, Array.length_toList]
  have hextent : extent patchwork.size edits = b.code.size := by simpa using hafter.size.symm
  have hwithin : ∀ f ∈ references 0 edits, f.1 + 4 ≤ b.code.size := fun f hf => by
    have hle : f.1 + 4 ≤ 0 + extent patchwork.size edits := (patchwork.within_fields hf).2
    omega
  rw [fixups_of_after hafter] at hdone
  have hfilled := filled_of_foldlM (patchwork.apart_fields 0 edits) hwithin hdone
  refine ⟨?_, ?_, ?_⟩
  · rw [Array.length_toList, hfilled.size, hlength]
  · intro field label hm
    obtain ⟨target, htarget, hbytes⟩ := hfilled.field field label hm
    rw [target?_of_after hafter] at htarget
    have hle := lastStart_le htarget
    have hroom : field + 4 ≤ b.code.size := hwithin _ hm
    have hdistance : Bytes.distanceAt done.toList field = (target : Int) - (field + 4) := by
      apply distanceAt_of_field (by omega) (by omega)
      intro k hk
      rw [Array.getElem?_toList, hbytes k hk]
    exact ⟨target, htarget, by omega⟩
  · intro i hi
    rw [← hcode, Array.getElem?_toList, Array.getElem?_toList, hfilled.rest i hi]

theorem firstUnbound_of_finish {e : UnboundLabel} (hfail : b.finish = .error e) : FirstUnbound edits e := by
  have herror := errorOf_finish_of_after hafter
  rw [hfail] at herror
  obtain ⟨earlier, f, later, hsplit, hf, hearlier⟩ := List.findSome?_eq_some_iff.mp herror.symm
  split at hf
  · rename_i hnone
    cases hf
    refine ⟨earlier, f.1, later, hsplit, hnone, fun g hg hnone => ?_⟩
    simpa [hnone] using hearlier g hg
  · cases hf

end Finish

/-- Fixups are exact. A buffer that comes out of edits can be finished if and only if every label that the
edits refer to is bound by them. Its code is then the one that they ask for, and otherwise the first reference
to an unbound label is reported. -/
theorem fixups_are_exact {edits : List Edit} {b : Buffer} (hrun : edits.foldlM run {} = .ok b)
    (hsize : b.code.size < 2 ^ 31) :
    ((∃ code, b.finish = .ok code) ↔ ∀ f ∈ references 0 edits, lastBound f.2 0 edits ≠ none) ∧
      (∀ code, b.finish = .ok code → Resolves edits code) ∧
      ∀ e, b.finish = .error e → FirstUnbound edits e := by
  have hafter := After.of_foldlM hrun
  have herror := errorOf_finish_of_after hafter
  refine ⟨⟨?_, ?_⟩, fun code => resolves_of_finish hafter hsize, fun e => firstUnbound_of_finish hafter⟩
  · rintro ⟨code, hok⟩ f hf hnone
    rw [hok] at herror
    have hbound := List.findSome?_eq_none_iff.mp herror.symm f hf
    rw [if_pos hnone] at hbound
    cases hbound
  · intro hall
    apply exists_of_errorOf_eq_none
    rw [herror, List.findSome?_eq_none_iff]
    intro f hf
    exact if_neg (hall f hf)

def Edit.crossing : List Edit :=
  [.newLabel, .newLabel, .bind 0, .u8 0xe9, .rel32 1, .bind 0, .u8 0xe9, .rel32 0, .bind 1, .u32 7]

theorem crossing_is_resolved :
    ∃ b, Edit.crossing.foldlM run {} = .ok b ∧
      b.finish = .ok [0xe9, 5, 0, 0, 0, 0xe9, 0xfb, 0xff, 0xff, 0xff, 7, 0, 0, 0] ∧
      Resolves Edit.crossing [0xe9, 5, 0, 0, 0, 0xe9, 0xfb, 0xff, 0xff, 0xff, 7, 0, 0, 0] := by
  have hrun : ∃ b, Edit.crossing.foldlM run {} = .ok b ∧ b.code.size = 14 ∧
      b.finish = .ok [0xe9, 5, 0, 0, 0, 0xe9, 0xfb, 0xff, 0xff, 0xff, 7, 0, 0, 0] := ⟨_, rfl, rfl, by decide⟩
  obtain ⟨b, hrun, hsize, hfinish⟩ := hrun
  exact ⟨b, hrun, hfinish, (fixups_are_exact hrun (by omega)).2.1 _ hfinish⟩

end Native.Buffer

end ActionVm
