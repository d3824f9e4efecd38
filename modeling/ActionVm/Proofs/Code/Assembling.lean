import ActionVm.Proofs.Code.Pieces
import ActionVm.Proofs.Code.Sweep
import ActionVm.Proofs.Document.Restoring
import Mathlib.Data.List.Forall2

namespace ActionVm

namespace Line

/-- A line whose opcode takes the operands that the line gives it, with labels that were made before. -/
def Fits (made : Nat) : Line → Prop
  | op opcode => opcode.operands = .none
  | opU30 opcode _ => opcode.operands = .u30
  | opU30U30 opcode _ _ => opcode.operands = .u30u30
  | branch opcode target => opcode.operands = .s24 ∧ target < made
  | lookupSwitch default cases => cases ≠ [] ∧ ∀ target ∈ default :: cases, target < made
  | bind target => target < made
  | pushByte _ | getLocal _ | setLocal _ | label => True

def made (before : Nat) : Line → Nat
  | label => before + 1
  | _ => before

def AllFit (before : Nat) : List Line → Prop
  | [] => True
  | line :: rest => line.Fits before ∧ AllFit (line.made before) rest

def emits : Line → Bool
  | label | bind _ => false
  | _ => true

/-- The pieces of a line's code at an offset. A branch counts from behind it, a switch from its opcode. -/
def pieces (offset : Nat) : Line → List Piece
  | op opcode => [.raw [opcode.byte]]
  | opU30 opcode x => [.raw (opcode.byte :: Bytes.varint x)]
  | opU30U30 opcode x y => [.raw (opcode.byte :: (Bytes.varint x ++ Bytes.varint y))]
  | pushByte value => [.raw [Opcode.pushByte.byte, value]]
  | getLocal index => [.raw (Assembly.getLocal index)]
  | setLocal index => [.raw (Assembly.setLocal index)]
  | branch opcode target => [.raw [opcode.byte], .distance (offset + 4) target]
  | lookupSwitch default cases =>
    [.raw [Opcode.lookupSwitch.byte], .distance offset default,
      .raw (Bytes.varint (UInt32.ofNat (cases.length - 1)))] ++ cases.map (.distance offset)
  | label | bind _ => []

def size (line : Line) : Nat :=
  extent Piece.patchwork.size (line.pieces 0)

def allPieces (offset : Nat) : List Line → List Piece
  | [] => []
  | line :: rest => line.pieces offset ++ allPieces (offset + line.size) rest

/-- The offset at which lines bind a label for the last time. -/
def lastBound (wanted : Nat) : Nat → List Line → Option Nat :=
  lastStart size (· = bind wanted)

/-- The lines that stand for instructions, with their offsets. -/
def emissions (offset : Nat) : List Line → List (Nat × Line)
  | [] => []
  | line :: rest =>
    if line.emits then (offset, line) :: emissions (offset + line.size) rest
    else emissions (offset + line.size) rest

/-- The instruction has the opcode and the operands of a line, and leads to the places of its labels. The
first four locals have opcodes of their own. -/
def Describes (place : Nat → Nat) (i : Instruction) : Line → Prop
  | op opcode => i.opcode = some opcode ∧ i.args = .none
  | opU30 opcode x => i.opcode = some opcode ∧ i.args = .one x
  | opU30U30 opcode x y => i.opcode = some opcode ∧ i.args = .two x y
  | pushByte value => i.opcode = some .pushByte ∧ i.args = .one value.toUInt32
  | getLocal index =>
    if index < 4 then i.opcode = [.getLocal0, .getLocal1, .getLocal2, .getLocal3][index.toNat]? ∧ i.args = .none
    else i.opcode = some .getLocal ∧ i.args = .one index
  | setLocal index =>
    if index < 4 then i.opcode = [.setLocal0, .setLocal1, .setLocal2, .setLocal3][index.toNat]? ∧ i.args = .none
    else i.opcode = some .setLocal ∧ i.args = .one index
  | branch opcode target => i.opcode = some opcode ∧ i.branchTarget? = some (place target)
  | lookupSwitch default cases =>
    i.opcode = some .lookupSwitch ∧ i.switchTargets = (default :: cases).map place
  | label | bind _ => False

/-- The instruction is the one that a line stands for at an offset. -/
structure StandsFor (place : Nat → Nat) (offset : Nat) (line : Line) (i : Instruction) : Prop where
  start : i.offset = offset
  ending : i.next = offset + line.size
  content : line.Describes place i

theorem extent_distances (base : Nat) (labels : List Nat) :
    extent Piece.patchwork.size (labels.map (.distance base)) = 3 * labels.length := by
  induction labels with
  | nil => rfl
  | cons label rest ih =>
    rw [List.map_cons, extent, ih, List.length_cons, Piece.size_distance]
    omega

theorem extent_pieces (offset : Nat) (line : Line) : extent Piece.patchwork.size (line.pieces offset) = line.size := by
  cases line with
  | lookupSwitch default cases =>
    simp only [size, pieces, extent_append, extent, Piece.size_raw, Piece.size_distance, extent_distances]
  | _ => rfl

theorem extent_allPieces (offset : Nat) (lines : List Line) :
    extent Piece.patchwork.size (allPieces offset lines) = extent size lines := by
  induction lines generalizing offset with
  | nil => rfl
  | cons line rest ih => rw [allPieces, extent_append, extent_pieces, ih, extent]

end Line

namespace Assembly

variable {a : Assembly} {pieces : List Piece}

@[simp] theorem labels_emit (a : Assembly) (bytes : Bytes) : (a.emit bytes).labels = a.labels :=
  rfl

@[simp] theorem labels_reference (a : Assembly) (base label : Nat) : (a.reference base label).labels = a.labels :=
  rfl

@[simp] theorem labels_references (a : Assembly) (base : Nat) (labels : List Nat) :
    (labels.foldl (·.reference base ·) a).labels = a.labels := by
  induction labels generalizing a with
  | nil => rfl
  | cons label rest ih => rw [List.foldl_cons, ih, labels_reference]

/-- What a line that fits does to an assembly. -/
structure Adds (a : Assembly) (pieces : List Piece) (line : Line) (b : Assembly) : Prop where
  holds : b.Holds (pieces ++ line.pieces (extent Piece.patchwork.size pieces))
  made : b.labels.size = line.made a.labels.size
  bound : ∀ label, b.labels[label]?.join = if line = .bind label then some a.code.size else a.labels[label]?.join

theorem Adds.of_same {line : Line} {b : Assembly}
    (h : b.Holds (pieces ++ line.pieces (extent Piece.patchwork.size pieces)))
    (hlabels : b.labels = a.labels) (hmade : line.made a.labels.size = a.labels.size)
    (hne : ∀ label, line ≠ .bind label) : Adds a pieces line b where
  holds := h
  made := by rw [hlabels, hmade]
  bound label := by rw [hlabels, if_neg (hne label)]

theorem line_of_fits {line : Line} (h : a.Holds pieces) (hf : line.Fits a.labels.size) :
    ∃ b, a.line line = .ok b ∧ Adds a pieces line b := by
  cases line with
  | op | opU30 | opU30U30 | pushByte | getLocal | setLocal =>
    exact ⟨_, rfl, .of_same (h.emit _) rfl rfl nofun⟩
  | branch op label =>
    refine ⟨_, rfl, .of_same ?_ rfl rfl nofun⟩
    have hcode := (h.emit [op.byte]).reference (a.code.size + 4) label
    rw [h.size, List.append_assoc] at hcode
    rw [h.size]
    exact hcode
  | lookupSwitch default cases =>
    refine ⟨_, rfl, .of_same ?_ (by simp [lookupSwitch]) rfl nofun⟩
    have hcode := ((((h.emit [Opcode.lookupSwitch.byte]).reference a.code.size default).emit
      (Bytes.varint (UInt32.ofNat (cases.length - 1)))).references a.code.size cases)
    simpa [Assembly.lookupSwitch, Line.pieces, h.size] using hcode
  | label =>
    refine ⟨_, rfl, ⟨⟨?_, ?_⟩, Array.size_push _, ?_⟩⟩
    · simpa [Line.pieces] using h.code
    · simpa [Line.pieces] using h.fixups
    · intro label
      rw [if_neg nofun]
      change (a.labels.push none)[label]?.join = _
      rw [Array.getElem?_push]
      split
      · rename_i he
        rw [he, Array.getElem?_size]
        rfl
      · rfl
  | bind label =>
    have hplace : Bounds.place a.labels.size label = .ok label := if_pos hf
    refine ⟨{ a with labels := a.labels.setIfInBounds label (some a.code.size) }, ?_, ⟨⟨?_, ?_⟩, ?_, ?_⟩⟩
    · simp only [line, Assembly.bind, hplace]
      rfl
    · simpa [Line.pieces] using h.code
    · simpa [Line.pieces] using h.fixups
    · simp [Line.made]
    · intro other
      simp only [Array.getElem?_setIfInBounds, Line.bind.injEq]
      split
      · rename_i he
        have hlt : label < a.labels.size := hf
        simp [hlt]
      · rfl

theorem mem_pieces_of_fits {line : Line} (hf : line.Fits made) (hm : Piece.distance base label ∈ line.pieces offset) :
    label < made := by
  cases line with
  | branch op label' =>
    simp only [Line.pieces, List.mem_cons, List.not_mem_nil, or_false, reduceCtorEq, false_or,
      Piece.distance.injEq] at hm
    rw [hm.2]
    exact hf.2
  | lookupSwitch default cases =>
    apply hf.2
    simp [Line.pieces] at hm
    grind
  | _ => simp [Line.pieces] at hm

theorem le_made (made : Nat) (line : Line) : made ≤ line.made made := by
  cases line <;> simp [Line.made]

theorem foldlM_line {lines : List Line} (h : a.Holds pieces) (hf : Line.AllFit a.labels.size lines) :
    ∃ b, lines.foldlM line a = .ok b ∧ b.Holds (pieces ++ Line.allPieces a.code.size lines) ∧
      a.labels.size ≤ b.labels.size ∧
      (∀ base label, .distance base label ∈ Line.allPieces a.code.size lines → label < b.labels.size) ∧
      ∀ label, b.labels[label]?.join = (Line.lastBound label a.code.size lines).or a.labels[label]?.join := by
  induction lines generalizing a pieces with
  | nil => exact ⟨a, rfl, by simpa [Line.allPieces] using h, Nat.le_refl _, nofun, fun _ => rfl⟩
  | cons line rest ih =>
    obtain ⟨hline, hrest⟩ := hf
    obtain ⟨b, hb, hadds⟩ := line_of_fits h hline
    have hsize : b.code.size = a.code.size + line.size := by
      rw [hadds.holds.size, extent_append, Line.extent_pieces, h.size]
    obtain ⟨c, hc, hholds, hle, hlabels, hbound⟩ := ih hadds.holds (by rw [hadds.made]; exact hrest)
    rw [hsize] at hholds hlabels hbound
    have hmade : a.labels.size ≤ b.labels.size := by
      rw [hadds.made]
      exact le_made _ line
    refine ⟨c, ?_, ?_, Nat.le_trans hmade hle, ?_, ?_⟩
    · rw [List.foldlM_cons, hb]
      exact hc
    · simpa [Line.allPieces, h.size] using hholds
    · intro base label hm
      rcases List.mem_append.mp hm with hm | hm
      · exact Nat.lt_of_lt_of_le (mem_pieces_of_fits hline hm) (Nat.le_trans hmade hle)
      · exact hlabels base label hm
    · intro label
      rw [hbound, hadds.bound, Line.lastBound, lastStart, Option.or_assoc]
      congr 1
      by_cases hbind : line = .bind label <;> simp [hbind]

end Assembly

/-- The places of the labels of lines whose code has the given length. A label that is bound nowhere stands
for the end of the code. -/
def Line.place (lines : List Line) (length label : Nat) : Nat :=
  (Line.lastBound label 0 lines).getD length

theorem assemble_of_fits {lines : List Line} (h : Line.AllFit 0 lines) :
    ∃ code, assemble lines = .ok code ∧ code.length = extent Line.size lines ∧
      code = (Line.allPieces 0 lines).flatMap (Piece.bytes (Line.place lines code.length)) := by
  have hempty : ({} : Assembly).Holds [] := ⟨rfl, rfl⟩
  obtain ⟨a, ha, hholds, -, hlabels, hbound⟩ := Assembly.foldlM_line hempty h
  have hplace : a.placeOf = Line.place lines (extent Line.size lines) := by
    funext label
    rw [Assembly.placeOf, hbound, hholds.size]
    simp [Line.place, Line.extent_allPieces]
  have hfinish := hholds.finish hlabels
  rw [hplace, List.nil_append] at hfinish
  have hlength := Piece.length_flatMap_bytes (Line.place lines (extent Line.size lines))
    (Line.allPieces 0 lines)
  rw [Line.extent_allPieces] at hlength
  refine ⟨_, ?_, hlength, ?_⟩
  · rw [assemble, ha]
    exact hfinish
  · rw [hlength]

theorem Opcode.ofByte?_byte (op : Opcode) : Opcode.ofByte? op.byte = some op := by
  cases op <;> rfl

theorem Read.Restores.s24 {v : Int} (hl : -2 ^ 23 ≤ v) (hr : v < 2 ^ 23) :
    Restores plain Read.s24 (Bytes.ofInt24 v) v := by
  have hvalue : (BitVec.ofInt 24 v).toInt = v := by
    rw [BitVec.toInt_ofInt]
    exact Int.bmod_eq_of_le (by omega) (by omega)
  have hgives := Gives.s24 v
  rw [hvalue] at hgives
  exact of_silent hgives

namespace Instruction

theorem sweepFrom_opcode {op : Opcode} {operands : Bytes} {args : Args}
    (h : Read.Restores False (Args.read op.operands) operands args) (fuel offset : Nat) (rest : Bytes) :
    sweepFrom (fuel + 1) offset (op.byte :: operands ++ rest) =
      { offset, next := offset + (1 + operands.length), byte := op.byte, opcode := some op, args } ::
        sweepFrom fuel (offset + (1 + operands.length)) rest := by
  have hu8 : Read.Restores False Read.u8 [op.byte] op.byte := .u8 op.byte
  obtain ⟨first, hbyte, -⟩ := hu8 (operands ++ rest) 0 []
  obtain ⟨noted, hargs, -⟩ := h rest (0 + 1) ([] ++ first)
  have hread : ∃ after, read offset { rest := op.byte :: operands ++ rest } =
      .ok { offset, next := offset + (1 + operands.length), byte := op.byte, opcode := some op, args } after ∧
        after.rest = rest := by
    refine ⟨{ rest, position := 0 + 1 + operands.length, anomalies := [] ++ first ++ noted }, ?_, rfl⟩
    refine (bind_of_ok hbyte).trans ?_
    rw [Opcode.ofByte?_byte]
    refine (bind_of_ok hargs).trans ?_
    simp only [Nat.zero_add]
    rfl
  obtain ⟨after, hread, hrest⟩ := hread
  rw [sweepFrom, hread]
  simp only [hrest]

theorem sweepFrom_nil (fuel offset : Nat) : sweepFrom fuel offset [] = [] := by
  cases fuel <;> rfl

end Instruction

theorem address_of_lt {n : Nat} (h : n < 2 ^ 64) : address n = n := by
  have hsize : (UInt64.size : Int) = 2 ^ 64 := rfl
  rw [address, hsize]
  omega

namespace Line

theorem size_branch (op : Opcode) (target : Nat) : (branch op target).size = 4 :=
  rfl

theorem size_lookupSwitch (fallback : Nat) (cases : List Nat) :
    (lookupSwitch fallback cases).size =
      4 + (Bytes.varint (UInt32.ofNat (cases.length - 1))).length + 3 * cases.length := by
  simp only [size, pieces, extent_append, extent, Piece.size_raw, Piece.size_distance, extent_distances,
    List.length_singleton]
  omega

/-- The sweep over a line's code gives the instruction that the line stands for. -/
def Decodes (place : Nat → Nat) (offset : Nat) (line : Line) : Prop :=
  ∃ i, line.StandsFor place offset i ∧ ∀ fuel rest,
    Instruction.sweepFrom (fuel + 1) offset ((line.pieces offset).flatMap (Piece.bytes place) ++ rest) =
      i :: Instruction.sweepFrom fuel (offset + line.size) rest

theorem Decodes.of_operands {place : Nat → Nat} {line : Line} (op : Opcode) (operands : Bytes) (args : Args)
    (hcode : (line.pieces offset).flatMap (Piece.bytes place) = op.byte :: operands)
    (hread : Read.Restores False (Args.read op.operands) operands args)
    (hdesc : ∀ i : Instruction, i.offset = offset → i.next = offset + line.size → i.opcode = some op → i.args = args →
      line.Describes place i) : line.Decodes place offset := by
  have hsize : 1 + operands.length = line.size := by
    rw [← extent_pieces offset, ← Piece.length_flatMap_bytes place, hcode, List.length_cons, Nat.add_comm]
  let i : Instruction := { offset, next := offset + (1 + operands.length), byte := op.byte, opcode := some op, args }
  have hnext : i.next = offset + line.size := congrArg (offset + ·) hsize
  refine ⟨i, ⟨rfl, hnext, hdesc i rfl hnext rfl rfl⟩, ?_⟩
  · intro fuel rest
    rw [hcode, ← hsize]
    exact Instruction.sweepFrom_opcode hread fuel offset rest

theorem Decodes.size_pos {place : Nat → Nat} {line : Line} (h : line.Decodes place offset) : 0 < line.size := by
  obtain ⟨i, hi, hsweep⟩ := h
  obtain ⟨stop, htile⟩ := Instruction.tile_sweepFrom 1 offset ((line.pieces offset).flatMap (Piece.bytes place) ++ [])
  rw [hsweep] at htile
  have hlt := htile.2.1
  rw [hi.ending] at hlt
  omega

theorem decodes_local {place : Nat → Nat} {line : Line} {long : Opcode} {short : List Opcode} {index : UInt32}
    (hcode : line.pieces offset = [.raw (Assembly.shortForm long short index)]) (hlength : short.length = 4)
    (hlong : long.operands = .u30) (hshort : ∀ op ∈ short, op.operands = .none)
    (hdesc : ∀ i : Instruction, (if index < 4 then i.opcode = short[index.toNat]? ∧ i.args = .none
      else i.opcode = some long ∧ i.args = .one index) → line.Describes place i) : line.Decodes place offset := by
  cases hs : short[index.toNat]? with
  | some op =>
    have hlt : index < 4 := by
      rw [UInt32.lt_iff_toNat_lt]
      obtain ⟨h, -⟩ := List.getElem?_eq_some_iff.mp hs
      rwa [hlength] at h
    apply Decodes.of_operands op [] .none
    · simp [hcode, Assembly.shortForm, hs]
    · rw [hshort op (List.mem_of_getElem? hs)]
      exact .pure _
    · intro i _ _ hop hargs
      apply hdesc
      rw [if_pos hlt, hs]
      exact ⟨hop, hargs⟩
  | none =>
    have hge : ¬index < 4 := by
      rw [UInt32.lt_iff_toNat_lt]
      have h := List.getElem?_eq_none_iff.mp hs
      rw [hlength] at h
      exact Nat.not_lt.mpr h
    apply Decodes.of_operands long (Bytes.varint index) (.one index)
    · simp [hcode, Assembly.shortForm, hs]
    · rw [hlong]
      exact (Read.Restores.u30 False.elim).bind_pure rfl
    · intro i _ _ hop hargs
      apply hdesc
      rw [if_neg hge]
      exact ⟨hop, hargs⟩

theorem restores_switch {place : Nat → Nat} {base fallback : Nat} {cases : List Nat} (hne : cases ≠ [])
    (hlt : cases.length < 2 ^ 32) (hbase : base < 2 ^ 23) (hplace : ∀ label, place label < 2 ^ 23) :
    Read.Restores False (Args.read .lookupSwitch)
      (Bytes.ofInt24 ((place fallback : Int) - base) ++ (Bytes.varint (UInt32.ofNat (cases.length - 1)) ++
        cases.flatMap fun label => Bytes.ofInt24 ((place label : Int) - base)))
      (.switch ((place fallback : Int) - base) (cases.map fun label => (place label : Int) - base)) := by
  have hdistance (label : Nat) : Read.Restores False Read.s24 (Bytes.ofInt24 ((place label : Int) - base))
      ((place label : Int) - base) := by
    have := hplace label
    exact .s24 (by omega) (by omega)
  have hpos : 0 < cases.length := List.length_pos_iff.mpr hne
  refine (hdistance fallback).bind ?_
  refine .count_bind (by omega) False.elim fun count hcount => ?_
  have htimes : count.toNat + 1 = cases.length := by omega
  rw [htimes]
  exact (Read.Restores.times_map fun label _ => hdistance label).bind_pure rfl

theorem decodes_of_fits {place : Nat → Nat} {line : Line} {before : Nat} (hf : line.Fits before) (he : line.emits = true)
    (hend : offset + line.size < 2 ^ 23) (hplace : ∀ label, place label < 2 ^ 23) : line.Decodes place offset := by
  cases line with
  | op op =>
    refine .of_operands op [] .none rfl ?_ fun i _ _ hop hargs => ⟨hop, hargs⟩
    rw [show op.operands = .none from hf]
    exact .pure _
  | opU30 op x =>
    refine .of_operands op (Bytes.varint x) (.one x) (by simp [pieces]) ?_
      fun i _ _ hop hargs => ⟨hop, hargs⟩
    rw [show op.operands = .u30 from hf]
    exact (Read.Restores.u30 False.elim).bind_pure rfl
  | opU30U30 op x y =>
    refine .of_operands op (Bytes.varint x ++ Bytes.varint y) (.two x y) (by simp [pieces]) ?_
      fun i _ _ hop hargs => ⟨hop, hargs⟩
    rw [show op.operands = .u30u30 from hf]
    exact (Read.Restores.u30 False.elim).bind ((Read.Restores.u30 False.elim).bind_pure rfl)
  | pushByte value =>
    exact .of_operands .pushByte [value] (.one value.toUInt32) rfl
      ((Read.Restores.u8 value).bind_pure rfl) fun i _ _ hop hargs => ⟨hop, hargs⟩
  | getLocal index => exact decodes_local rfl rfl rfl (by decide) fun _ h => h
  | setLocal index => exact decodes_local rfl rfl rfl (by decide) fun _ h => h
  | branch op target =>
    have hop : op.operands = .s24 := hf.1
    have htarget := hplace target
    rw [size_branch] at hend
    let distance : Int := (place target : Int) - (offset + 4 : Nat)
    refine .of_operands op (Bytes.ofInt24 distance) (.branch distance) (by simp [pieces, distance]) ?_ ?_
    · rw [hop]
      exact (Read.Restores.s24 (by omega) (by omega)).bind_pure rfl
    · intro i _ hnext hopcode hargs
      refine ⟨hopcode, ?_⟩
      have hsum : (i.next : Int) + distance = (place target : Nat) := by
        rw [hnext, size_branch]
        omega
      rw [Instruction.branchTarget?, hargs]
      simp only [hsum]
      rw [address_of_lt (by omega)]
  | lookupSwitch fallback cases =>
    rw [size_lookupSwitch] at hend
    refine .of_operands .lookupSwitch _ _ (by simp [pieces, List.flatMap_map]; rfl)
      (restores_switch hf.1 (by omega) (by omega) hplace) ?_
    intro i hstart _ hopcode hargs
    refine ⟨hopcode, ?_⟩
    rw [Instruction.switchTargets, hargs, hstart]
    have haddress (label : Nat) : address (offset + ((place label : Int) - offset)) = place label := by
      have := hplace label
      rw [show (offset : Int) + ((place label : Int) - offset) = (place label : Nat) by omega]
      exact address_of_lt (by omega)
    simp only [List.map_cons, List.map_map, Function.comp_def, haddress]
  | label => cases he
  | bind target => cases he

theorem pieces_of_silent {line : Line} (h : ¬line.emits = true) (offset : Nat) :
    line.pieces offset = [] ∧ line.size = 0 := by
  cases line with
  | label | bind => exact ⟨rfl, rfl⟩
  | _ => exact absurd rfl h

/-- The sweep over the code of lines gives the instructions that they stand for, and ends with the code. -/
theorem sweepFrom_allPieces {place : Nat → Nat} {lines : List Line} (hf : AllFit before lines)
    (hend : offset + extent size lines < 2 ^ 23) (hplace : ∀ label, place label < 2 ^ 23)
    (hfuel : extent size lines ≤ fuel) :
    List.Forall₂ (fun emission i => StandsFor place emission.1 emission.2 i) (emissions offset lines)
        (Instruction.sweepFrom fuel offset ((allPieces offset lines).flatMap (Piece.bytes place))) ∧
      (Instruction.sweepFrom fuel offset ((allPieces offset lines).flatMap (Piece.bytes place))).foldl (fun _ i => i.next)
        offset = offset + extent size lines := by
  induction lines generalizing before offset fuel with
  | nil =>
    simp only [allPieces, List.flatMap_nil, Instruction.sweepFrom_nil]
    exact ⟨.nil, rfl⟩
  | cons line rest ih =>
    obtain ⟨hline, hrest⟩ := hf
    simp only [allPieces, extent, List.flatMap_append] at hend hfuel ⊢
    by_cases he : line.emits = true
    · have hdecodes : line.Decodes place offset := decodes_of_fits hline he (by omega) hplace
      obtain ⟨i, hi, hsweep⟩ := hdecodes
      have hpos := Decodes.size_pos ⟨i, hi, hsweep⟩
      obtain ⟨fuel, rfl⟩ : ∃ n, fuel = n + 1 := ⟨fuel - 1, by omega⟩
      have hbehind : offset + line.size + extent size rest < 2 ^ 23 := by omega
      have hleft : extent size rest ≤ fuel := by omega
      obtain ⟨hall, hlast⟩ := ih hrest hbehind hleft
      rw [hsweep, emissions, if_pos he]
      refine ⟨.cons hi hall, ?_⟩
      rw [List.foldl_cons, hi.ending, hlast, Nat.add_assoc]
    · obtain ⟨hpieces, hsize⟩ := pieces_of_silent he offset
      rw [hsize, Nat.zero_add] at hend hfuel
      rw [hpieces, emissions, if_neg he, hsize, Nat.zero_add, Nat.add_zero]
      exact ih hrest hend hfuel

end Line

/-- Assembling and sweeping agree. Lines whose opcodes take the operands that they are given, with labels that
were made before, can always be assembled. If the code is short enough for its distances, the sweep over it
gives exactly the instructions that the lines stand for, in their order and up to the end of the code; branches
and switches lead to where their labels were bound last, or to the end of the code. -/
theorem sweep_of_assemble {lines : List Line} (h : Line.AllFit 0 lines) :
    ∃ code, assemble lines = .ok code ∧
      (code.length < 2 ^ 23 →
        List.Forall₂ (fun emission i => Line.StandsFor (Line.place lines code.length) emission.1 emission.2 i)
          (Line.emissions 0 lines) (Instruction.sweep code) ∧
        (Instruction.sweep code).foldl (fun _ i => i.next) 0 = code.length) := by
  obtain ⟨code, hcode, hlength, hpieces⟩ := assemble_of_fits h
  refine ⟨code, hcode, fun hlt => ?_⟩
  have hplace (label : Nat) : Line.place lines code.length label < 2 ^ 23 := by
    rw [Line.place]
    cases hbound : Line.lastBound label 0 lines with
    | none => exact hlt
    | some found =>
      have hle := lastStart_le hbound
      rw [Option.getD_some]
      omega
  have hend : 0 + extent Line.size lines < 2 ^ 23 := by omega
  have hsweep := Line.sweepFrom_allPieces h hend hplace (Nat.le_of_eq hlength.symm)
  rw [← hpieces, Nat.zero_add, ← hlength] at hsweep
  exact hsweep

/-- A loop with a switch in it. The first label is bound twice, and the last one nowhere. -/
def loopLines : List Line :=
  [.label, .label, .label, .bind 0, .pushByte 255, .branch .jump 1, .bind 0, .opU30 .pushShort 300, .getLocal 3,
    .lookupSwitch 2 [0, 1], .opU30U30 .callProperty 5 2, .bind 1, .setLocal 4, .branch .ifTrue 0, .op .returnVoid]

def loopCode : Bytes :=
  [36, 255, 16, 18, 0, 0, 37, 172, 2, 211, 27, 21, 0, 0, 1, 252, 255, 255, 14, 0, 0, 70, 5, 2, 99, 4, 17, 232,
    255, 255, 71]

theorem sweep_of_loopLines :
    assemble loopLines = .ok loopCode ∧
      List.Forall₂ (fun emission i => Line.StandsFor (Line.place loopLines 31) emission.1 emission.2 i)
        (Line.emissions 0 loopLines) (Instruction.sweep loopCode) ∧
      [0, 1, 2].map (Line.place loopLines 31) = [6, 24, 31] := by
  have hfit : Line.AllFit 0 loopLines := by
    unfold loopLines
    simp only [Line.AllFit, Line.Fits, Line.made]
    decide
  have hcode : assemble loopLines = .ok loopCode := by decide +kernel
  obtain ⟨code, hassemble, hsweep⟩ := sweep_of_assemble hfit
  cases hcode.symm.trans hassemble
  exact ⟨hcode, (hsweep (by decide)).1, by decide⟩

end ActionVm
