import ActionVm.Code.Assembly
import ActionVm.Proofs.Bytes.Patchwork

namespace ActionVm

/-- Bytes as they are, or a field for the distance from a base to a label. -/
inductive Piece where
  | raw (bytes : Bytes)
  | distance (base label : Nat)

namespace Piece

def patchwork : Patchwork Piece (Nat × Nat) where
  head
    | raw bytes => bytes
    | distance .. => []
  reference?
    | raw _ => none
    | distance base label => some (base, label)
  width := 3

def fixup (field : Nat × Nat × Nat) : CodeFixup :=
  { field := field.1, base := field.2.1, label := field.2.2 }

def filling (place : Nat → Nat) (reference : Nat × Nat) : Bytes :=
  Bytes.ofInt24 ((place reference.2 : Int) - reference.1)

def bytes (place : Nat → Nat) : Piece → Bytes :=
  patchwork.bytes (fun _ => filling place) 0

@[simp] theorem size_raw (bytes : Bytes) : patchwork.size (raw bytes) = bytes.length :=
  rfl

@[simp] theorem size_distance (base label : Nat) : patchwork.size (distance base label) = 3 :=
  rfl

@[simp] theorem blank_raw (bytes : Bytes) : patchwork.blank (raw bytes) = bytes :=
  List.append_nil bytes

@[simp] theorem blank_distance (base label : Nat) : patchwork.blank (distance base label) = Bytes.ofInt24 0 :=
  rfl

@[simp] theorem bytes_raw (place : Nat → Nat) (known : Bytes) : (raw known).bytes place = known :=
  List.append_nil known

@[simp] theorem bytes_distance (place : Nat → Nat) (base label : Nat) :
    (distance base label).bytes place = Bytes.ofInt24 ((place label : Int) - base) :=
  rfl

theorem length_filling (place : Nat → Nat) (reference : Nat × Nat) : (filling place reference).length = 3 :=
  Bytes.length_littleEndian ..

theorem length_flatMap_bytes (place : Nat → Nat) (pieces : List Piece) :
    (pieces.flatMap (bytes place)).length = extent patchwork.size pieces :=
  length_flatMap_of_size (patchwork.length_bytes (fun _ => length_filling place) 0) pieces

end Piece

namespace Assembly

def placeOf (a : Assembly) (label : Nat) : Nat :=
  a.labels[label]?.join.getD a.code.size

theorem target_of_lt {a : Assembly} (h : label < a.labels.size) : a.target a.code.size label = .ok (a.placeOf label) := by
  rw [target, Bounds.place, if_pos h]
  rfl

/-- The assembly has come as far as the pieces. -/
structure Holds (a : Assembly) (pieces : List Piece) : Prop where
  code : a.code.toList = pieces.flatMap Piece.patchwork.blank
  fixups : a.fixups.toList = (Piece.patchwork.fields 0 pieces).map Piece.fixup

namespace Holds

variable {a : Assembly} {pieces : List Piece}

theorem size (h : a.Holds pieces) : a.code.size = extent Piece.patchwork.size pieces := by
  rw [← Array.length_toList, h.code, Patchwork.length_flatMap_blank]

theorem emit (h : a.Holds pieces) (bytes : Bytes) : (a.emit bytes).Holds (pieces ++ [.raw bytes]) where
  code := by simp [Assembly.emit, h.code]
  fixups := by
    rw [Patchwork.fields_append, List.map_append, ← h.fixups]
    exact (List.append_nil _).symm

theorem reference (h : a.Holds pieces) (base label : Nat) :
    (a.reference base label).Holds (pieces ++ [.distance base label]) where
  code := by simp [Assembly.reference, h.code]
  fixups := by
    rw [Patchwork.fields_append, List.map_append, ← h.fixups, ← h.size, Nat.zero_add]
    exact Array.toList_push

theorem references (h : a.Holds pieces) (base : Nat) (labels : List Nat) :
    (labels.foldl (·.reference base ·) a).Holds (pieces ++ labels.map (.distance base)) := by
  induction labels generalizing a pieces with
  | nil => simpa using h
  | cons label rest ih => simpa using ih (h.reference base label)

theorem finish (h : a.Holds pieces)
    (hlabels : ∀ base label, Piece.distance base label ∈ pieces → label < a.labels.size) :
    a.finish = .ok (pieces.flatMap (Piece.bytes a.placeOf)) := by
  have hfix : ∀ piece ∈ pieces, ∀ r, Piece.patchwork.reference? piece = some r → ∀ code start,
      a.fix code (Piece.fixup (start, r)) = .ok (Bytes.patch code start (Piece.filling a.placeOf r)) := by
    intro piece hm r hr code start
    cases piece with
    | raw => cases hr
    | distance base label =>
      cases hr
      simp only [fix, Piece.fixup, target_of_lt (hlabels base label hm)]
      rfl
  have hcode : a.code.toList = [] ++ pieces.flatMap Piece.patchwork.blank ++ [] := by simpa using h.code
  obtain ⟨done, hdone, hlist⟩ := Piece.patchwork.foldlM_patch (fun _ => Piece.length_filling a.placeOf)
    (fun code field => a.fix code (Piece.fixup field)) hfix hcode
  have hfold : a.fixups.foldlM a.fix a.code = .ok done := by
    rw [← Array.foldlM_toList, h.fixups, List.foldlM_map]
    exact hdone
  rw [Patchwork.assemble_eq_flatMap, List.nil_append, List.append_nil] at hlist
  rw [Assembly.finish, hfold]
  exact congrArg Except.ok hlist

end Holds

end Assembly

end ActionVm
