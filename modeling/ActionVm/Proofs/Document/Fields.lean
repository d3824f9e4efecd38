import ActionVm.Document.Writer
import ActionVm.Proofs.Bytes.Varint
import ActionVm.Proofs.Document.Consumption
import ActionVm.Proofs.Text.Utf8

namespace ActionVm

namespace Read

/-- The reader takes the bytes and gives `a`. What it notes depends only on where the bytes start. -/
def Gives (x : Read α) (bytes : Bytes) (a : α) (notes : Nat → List Anomaly) : Prop :=
  ∀ rest position anomalies,
    x { rest := bytes ++ rest, position, anomalies } =
      .ok a { rest, position := position + bytes.length, anomalies := anomalies ++ notes position }

def silent (_ : Nat) : List Anomaly :=
  []

namespace Gives

variable {x : Read α} {f : α → Read β} {l r : Bytes} {a : α} {b : β} {n m : Nat → List Anomaly}

theorem pure (a : α) : Gives (Pure.pure a) [] a silent := by
  intro rest position anomalies
  rw [silent, List.append_nil]
  rfl

theorem bind (hx : Gives x l a n) (hf : Gives (f a) r b m) :
    Gives (x >>= f) (l ++ r) b fun position => n position ++ m (position + l.length) := by
  intro rest position anomalies
  rw [List.append_assoc, bind_of_ok (hx (r ++ rest) position anomalies), hf, List.length_append, Nat.add_assoc,
    List.append_assoc]

theorem bind_last (hx : Gives x l a silent) (hf : Gives (f a) [] b fun _ => noted) :
    Gives (x >>= f) l b fun _ => noted := by
  have h := hx.bind hf
  rwa [List.append_nil] at h

theorem bind_pure (hx : Gives x l a n) (hf : f a = Pure.pure b) : Gives (x >>= f) l b n := by
  have h := hx.bind (hf ▸ pure b)
  simpa only [silent, List.append_nil] using h

theorem map (g : α → β) (hx : Gives x l a n) : Gives (g <$> x) l (g a) n := by
  rw [map_eq_pure_bind]
  exact hx.bind_pure rfl

theorem position_bind {f : Nat → Read β} {n : Nat → Nat → List Anomaly} (h : ∀ offset, Gives (f offset) l b (n offset)) :
    Gives (Read.position >>= f) l b fun position => n position position :=
  fun rest position anomalies => h position rest position anomalies

theorem noting {c : Prop} [Decidable c] {anomaly : Anomaly} {f : Unit → Read β} (hf : f () = Pure.pure b) :
    Gives (if c then note anomaly >>= f else f ()) [] b fun _ => if c then [anomaly] else [] := by
  intro rest position anomalies
  rw [hf]
  split
  · have hnote : note anomaly { rest := [] ++ rest, position, anomalies } =
        .ok () { rest, position, anomalies := anomalies ++ [anomaly] } := rfl
    rw [bind_of_ok hnote, hf]
    rfl
  · rw [List.append_nil]
    rfl

theorem bytes (l : Bytes) : Gives (Read.bytes l.length) l l silent := by
  intro rest position anomalies
  apply bytes_eq_ok.mpr
  rw [silent, List.append_nil]
  exact ⟨rfl, rfl, rfl⟩

theorem u8 (v : UInt8) : Gives Read.u8 [v] v silent :=
  (bytes [v]).bind_pure rfl

theorem u16 (v : UInt16) : Gives Read.u16 (Bytes.ofUInt16 v) v silent := by
  apply (bytes (Bytes.ofUInt16 v)).bind_pure
  rw [Bytes.value_ofUInt16]

theorem d64 (d : Double) : Gives Read.d64 (Bytes.ofUInt64 d.bits) d silent := by
  apply (bytes (Bytes.ofUInt64 d.bits)).bind_pure
  rw [Bytes.value_ofUInt64]

theorem s24 (v : Int) : Gives Read.s24 (Bytes.ofInt24 v) (BitVec.ofInt 24 v).toInt silent := by
  have hmod : (v % 0x1000000).toNat < 256 ^ 3 := by omega
  have hvalue : ((v % 0x1000000).toNat : Int) = v % (2 ^ 24 : Nat) := by omega
  apply (bytes (Bytes.ofInt24 v)).bind_pure
  rw [Bytes.ofInt24, Bytes.value_littleEndian, Nat.mod_eq_of_lt hmod, hvalue, BitVec.toInt_ofInt]
  exact congrArg Pure.pure (Int.emod_bmod ..)

theorem groups (h : Bytes.Terminated limit l) : Gives (Read.groups limit) l l silent := by
  induction h with
  | last h =>
    apply (u8 _).bind_pure
    rw [if_pos (.inl h)]
  | @more v limit rest h _ ih =>
    refine (u8 v).bind (r := rest) (m := silent) ?_
    rw [if_neg (by simpa using h)]
    exact ih.bind_pure rfl

theorem u30 (v : UInt32) :
    Gives Read.u30 (Write.u30 v) v fun position => if 2 ^ 30 ≤ v.toNat then [.u30Overflow position v] else [] := by
  apply position_bind (n := fun offset _ => if 2 ^ 30 ≤ v.toNat then [.u30Overflow offset v] else [])
  intro offset
  apply (groups (Bytes.terminated_varint v)).bind_last
  rw [Bytes.groupValue_varint, UInt32.ofNat_toNat]
  exact noting rfl

theorem u32 (v : UInt32) : Gives Read.u32 (Bytes.varint v) v silent := by
  apply position_bind
  intro offset
  apply (groups (Bytes.terminated_varint v)).bind_pure
  rw [if_neg fun h => Bytes.lastGroup_varint h.1 h.2, Bytes.groupValue_varint, UInt32.ofNat_toNat]

theorem s32 (v : Int32) : Gives Read.s32 (Bytes.signedVarint v) v silent := by
  apply (groups (Bytes.terminated_signedVarint v)).bind_pure
  have hv := Bytes.signedValue_signedVarint v
  have hlen := (Bytes.terminated_signedVarint v).length_le
  generalize Bytes.signedVarint v = taken at hv hlen ⊢
  unfold Bytes.signedValue at hv
  dsimp only
  split
  · rename_i h
    rw [if_pos h.2] at hv
    rw [Bytes.shiftLeft_groups, hv, Int32.ofInt_toInt]
  · rename_i h
    split at hv
    · have hfive : taken.length = 5 := by omega
      have hwhole : (Bytes.groupValue taken : Int) = v.toInt + 2 ^ 32 * 8 := by
        rw [hfive] at hv
        omega
      have hdropped : Int32.ofInt (2 ^ 32 * 8) = 0 := by decide
      rw [hwhole, Int32.ofInt_add, Int32.ofInt_toInt, hdropped, Int32.add_zero]
    · rw [Int.sub_zero] at hv
      rw [hv, Int32.ofInt_toInt]

theorem text (h : (Utf8.encode s).length < 2 ^ 32) :
    Gives Read.text (Write.text s) s fun position =>
      let length := UInt32.ofNat (Utf8.encode s).length
      (if 2 ^ 30 ≤ (Utf8.encode s).length then [.u30Overflow position length] else []) ++
        if s.toList.any (128 ≤ ·.toNat) then [.multibyteString (position + (Write.u30 length).length)] else [] := by
  have hlength : (UInt32.ofNat (Utf8.encode s).length).toNat = (Utf8.encode s).length := UInt32.toNat_ofNat_of_lt' h
  have hcount := u30 (UInt32.ofNat (Utf8.encode s).length)
  rw [hlength] at hcount
  refine hcount.bind
    (m := fun offset => if s.toList.any (128 ≤ ·.toNat) then [.multibyteString offset] else []) ?_
  apply position_bind (n := fun offset _ => if s.toList.any (128 ≤ ·.toNat) then [.multibyteString offset] else [])
  intro offset
  rw [hlength]
  apply (bytes (Utf8.encode s)).bind_last
  rw [Utf8.decode_encode, Utf8.any_encode]
  exact noting rfl

end Gives

end Read

/-- A value of one of the kinds that are written and read. -/
inductive Field where
  | u8 (v : UInt8)
  | u16 (v : UInt16)
  | s24 (v : Int)
  | u30 (v : UInt32)
  | u32 (v : UInt32)
  | s32 (v : Int32)
  | d64 (d : Double)
  | text (s : String)
  | bytes (l : Bytes)
  deriving DecidableEq, Repr

namespace Field

inductive Kind where
  | u8
  | u16
  | s24
  | u30
  | u32
  | s32
  | d64
  | text
  | bytes (length : Nat)
  deriving DecidableEq, Repr

def kind : Field → Kind
  | u8 _ => .u8
  | u16 _ => .u16
  | s24 _ => .s24
  | u30 _ => .u30
  | u32 _ => .u32
  | s32 _ => .s32
  | d64 _ => .d64
  | text _ => .text
  | bytes l => .bytes l.length

def write : Field → Bytes
  | u8 v => [v]
  | u16 v => Bytes.ofUInt16 v
  | s24 v => Bytes.ofInt24 v
  | u30 v => Write.u30 v
  | u32 v => Bytes.varint v
  | s32 v => Bytes.signedVarint v
  | d64 d => Bytes.ofUInt64 d.bits
  | text s => Write.text s
  | bytes l => l

def read : Kind → Read Field
  | .u8 => u8 <$> Read.u8
  | .u16 => u16 <$> Read.u16
  | .s24 => s24 <$> Read.s24
  | .u30 => u30 <$> Read.u30
  | .u32 => u32 <$> Read.u32
  | .s32 => s32 <$> Read.s32
  | .d64 => d64 <$> Read.d64
  | .text => text <$> Read.text
  | .bytes length => bytes <$> Read.bytes length

/-- The field that comes back: of a number of 24 bits, the low ones with the top one as the sign. -/
def restored : Field → Field
  | s24 v => s24 (BitVec.ofInt 24 v).toInt
  | field => field

/-- What reading the field at an offset notes: a word or a length of more than 30 bits, and text that is not
ASCII, at the offset behind its length. -/
def notes (offset : Nat) : Field → List Anomaly
  | u30 v => if 2 ^ 30 ≤ v.toNat then [.u30Overflow offset v] else []
  | text s =>
    let length := UInt32.ofNat (Utf8.encode s).length
    (if 2 ^ 30 ≤ (Utf8.encode s).length then [.u30Overflow offset length] else []) ++
      if s.toList.any (128 ≤ ·.toNat) then [.multibyteString (offset + (Write.u30 length).length)] else []
  | _ => []

/-- A text has a length of 32 bits at most. -/
def Fits : Field → Prop
  | text s => (Utf8.encode s).length < 2 ^ 32
  | _ => True

/-- What reading the fields from an offset on notes. -/
def allNotes (offset : Nat) : List Field → List Anomaly
  | [] => []
  | field :: fields => field.notes offset ++ allNotes (offset + field.write.length) fields

theorem gives (h : Fits field) : Read.Gives (read field.kind) field.write field.restored field.notes := by
  cases field with
  | u8 v => exact (Read.Gives.u8 v).map u8
  | u16 v => exact (Read.Gives.u16 v).map u16
  | s24 v => exact (Read.Gives.s24 v).map s24
  | u30 v => exact (Read.Gives.u30 v).map u30
  | u32 v => exact (Read.Gives.u32 v).map u32
  | s32 v => exact (Read.Gives.s32 v).map s32
  | d64 d => exact (Read.Gives.d64 d).map d64
  | text s => exact (Read.Gives.text h).map text
  | bytes l => exact (Read.Gives.bytes l).map bytes

theorem gives_all (h : ∀ field ∈ fields, Fits field) :
    Read.Gives ((fields.map kind).mapM read) (fields.flatMap write) (fields.map restored) (allNotes · fields) := by
  induction fields with
  | nil => exact .pure []
  | cons field fields ih =>
    have hfield := gives (h field List.mem_cons_self)
    have hfields := ih fun other hother => h other (List.mem_cons_of_mem _ hother)
    rw [List.map_cons, List.mapM_cons, List.flatMap_cons]
    refine hfield.bind (m := (allNotes · fields)) ?_
    exact hfields.bind_pure rfl

/-- Reading fields of the same kinds undoes writing fields, whatever bytes follow. It ends behind the last byte that
was written, and notes what the fields show and nothing else. -/
theorem reads_undo_writes (fields : List Field) (h : ∀ field ∈ fields, field.Fits) (rest : Bytes) (position : Nat)
    (anomalies : List Anomaly) :
    (fields.map kind).mapM read { rest := fields.flatMap write ++ rest, position, anomalies } =
      .ok (fields.map restored)
        { rest, position := position + (fields.flatMap write).length
          anomalies := anomalies ++ allNotes position fields } :=
  gives_all h rest position anomalies

def extremes : List Field :=
  [s24 0x800000, u30 0x40000000, u32 0xffffffff, s32 (-0x80000000), s32 64, d64 ⟨0x7ff0000000000001⟩, text "né", bytes [0x80]]

theorem reads_undo_extreme_writes :
    (∀ field ∈ extremes, field.Fits) ∧
    extremes.map restored = s24 (-0x800000) :: extremes.tail ∧
    (extremes.map kind).mapM read { rest := extremes.flatMap write ++ [0xff] } =
      .ok (extremes.map restored)
        { rest := [0xff], position := 33, anomalies := [.u30Overflow 3 0x40000000, .multibyteString 29] } := by
  have hfits : ∀ field ∈ extremes, field.Fits := by
    simp only [extremes, List.forall_mem_cons, Fits, true_and]
    exact ⟨by decide, List.forall_mem_nil _⟩
  have hread := reads_undo_writes extremes hfits [0xff] 0 []
  have hend : 0 + (extremes.flatMap write).length = 33 := by decide
  have hnotes : allNotes 0 extremes = [.u30Overflow 3 0x40000000, .multibyteString 29] := by decide
  rw [hend, hnotes] at hread
  exact ⟨hfits, by decide, hread⟩

end Field

end ActionVm
