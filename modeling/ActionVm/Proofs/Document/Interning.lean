import ActionVm.Document.Builder
import ActionVm.Document.Names
import ActionVm.Proofs.Program
import Mathlib.Algebra.Group.Nat.Defs
import Mathlib.Data.List.Basic
import Mathlib.Data.List.Forall2

namespace ActionVm

/-- An index of 32 bits that was given out for an entry of a table with `first` at index 0. -/
def Points (first : α) (entries : List α) (index : UInt32) (entry : α) : Prop :=
  ∃ k, index = UInt32.ofNat k ∧ (first :: entries)[k]? = some entry

theorem Points.last (first : α) (entries : List α) (entry : α) :
    Points first (entries ++ [entry]) (UInt32.ofNat (entries ++ [entry]).length) entry :=
  ⟨_, rfl, by simp⟩

theorem Points.grow (h : Points first entries index entry) (hgrows : entries <+: more) :
    Points first more index entry := by
  obtain ⟨k, hindex, hentry⟩ := h
  obtain ⟨added, rfl⟩ := hgrows
  obtain ⟨hk, -⟩ := List.getElem?_eq_some_iff.mp hentry
  refine ⟨k, hindex, ?_⟩
  rw [← List.cons_append, List.getElem?_append_left hk, hentry]

theorem Points.item? (h : Points first entries index entry) (hroom : entries.length < 2 ^ 32) :
    item? first entries index = some entry := by
  obtain ⟨k, rfl, hentry⟩ := h
  obtain ⟨hk, -⟩ := List.getElem?_eq_some_iff.mp hentry
  rw [List.length_cons] at hk
  rw [ActionVm.item?, UInt32.toNat_ofNat', Nat.mod_eq_of_lt (by omega), hentry]

namespace Pool

/-- The strings with the empty one at index 0. -/
def texts (p : Pool) : List String :=
  "" :: p.strings

/-- The index is the one of the string in the table. -/
structure Interns (p : Pool) (s : String) (index : UInt32) : Prop where
  mem : s ∈ p.texts
  index_eq : index = UInt32.ofNat (p.texts.idxOf s)

structure Grows (p q : Pool) : Prop where
  strings : p.strings <+: q.strings
  namespaces : p.namespaces <+: q.namespaces
  multinames : p.multinames <+: q.multinames

/-- Tables whose entries can all be told apart by 32 bits. -/
structure HasRoom (p : Pool) : Prop where
  strings : p.strings.length < 2 ^ 32
  namespaces : p.namespaces.length < 2 ^ 32
  multinames : p.multinames.length < 2 ^ 32

namespace Grows

theorem refl (p : Pool) : p.Grows p :=
  ⟨List.prefix_rfl, List.prefix_rfl, List.prefix_rfl⟩

theorem trans {p q r : Pool} (h : p.Grows q) (h' : q.Grows r) : p.Grows r :=
  ⟨h.strings.trans h'.strings, h.namespaces.trans h'.namespaces, h.multinames.trans h'.multinames⟩

end Grows

namespace Interns

variable {p q : Pool} {s : String} {index : UInt32}

theorem grow (h : p.Interns s index) (hgrows : p.strings <+: q.strings) : q.Interns s index := by
  obtain ⟨added, hadded⟩ := hgrows
  have htexts : q.texts = p.texts ++ added := by rw [texts, texts, ← hadded, List.cons_append]
  refine ⟨?_, ?_⟩
  · rw [htexts]
    exact List.mem_append_left _ h.mem
  · rw [htexts, List.idxOf_append_of_mem h.mem]
    exact h.index_eq

/-- An index holds its string exactly as long as the string's place fits into 32 bits. -/
theorem string_eq_iff (h : p.Interns s index) : p.string index = s ↔ p.texts.idxOf s < 2 ^ 32 := by
  obtain ⟨hmem, rfl⟩ := h
  have hplace : p.texts.idxOf s < p.texts.length := List.idxOf_lt_length_of_mem hmem
  rw [string, item?, UInt32.toNat_ofNat']
  change (p.texts[p.texts.idxOf s % 2 ^ 32]?).getD "" = s ↔ _
  constructor
  · intro hread
    by_contra hfar
    -- the place that the index wraps around to comes before the first one of the string
    have hbefore : p.texts.idxOf s % 2 ^ 32 < p.texts.idxOf s := by
      have := Nat.mod_lt (p.texts.idxOf s) (show 0 < 2 ^ 32 by decide)
      omega
    rw [List.getElem?_eq_getElem (by omega), Option.getD_some] at hread
    have hother := List.not_of_lt_findIdx (p := (· == s)) hbefore
    simp [hread] at hother
  · intro hnear
    rw [Nat.mod_eq_of_lt hnear, List.getElem?_idxOf hmem, Option.getD_some]

theorem string_eq (h : p.Interns s index) (hroom : p.strings.length < 2 ^ 32) : p.string index = s := by
  have hplace : p.texts.idxOf s < p.texts.length := List.idxOf_lt_length_of_mem h.mem
  rw [texts, List.length_cons] at hplace
  exact h.string_eq_iff.mpr (by rw [texts]; omega)

end Interns

end Pool

/-- What can be added to a document. -/
inductive Addition where
  | string (s : String)
  | int (v : Int32)
  | uint (v : UInt32)
  | double (v : Double)
  | space (kind : UInt8) (name : String)
  | nsSet (members : List UInt32)
  | multiname (mn : Multiname)
  | qname (package name : String)
  | method (paramCount : Nat) (maxStack localCount : UInt32) (code : Bytes) (traits : List Trait)
  | classDef (name superName instanceInit : UInt32) (instanceTraits : List Trait) (classInit : UInt32)
    (classTraits : List Trait)
  | script (init : UInt32) (traits : List Trait)

namespace Addition

def run (b : Builder) : Addition → Except BoundsError (Builder × UInt32)
  | string s => return b.addString s
  | int v => return b.addInt v
  | uint v => return b.addUint v
  | double v => return b.addDouble v
  | space kind name => return b.addNamespace kind name
  | nsSet members => return b.addNsSet members
  | multiname mn => return b.addMultiname mn
  | qname package name => return b.addQName package name
  | method paramCount maxStack localCount code traits => b.addMethod paramCount maxStack localCount code traits
  | classDef name superName instanceInit instanceTraits classInit classTraits =>
    return b.addClass name superName instanceInit instanceTraits classInit classTraits
  | script init traits => return b.addScript init traits

/-- Additions one after the other, with the index that each of them got. -/
def runAll (b : Builder) : List Addition → Except BoundsError (Builder × List UInt32)
  | [] => return (b, [])
  | addition :: rest => do
    let (b, index) ← addition.run b
    let (b, indices) ← runAll b rest
    return (b, index :: indices)

/-- What the index of an addition stands for in a pool. -/
def Answered (p : Pool) (index : UInt32) : Addition → Prop
  | string s => p.Interns s index
  | qname package name => ∃ ns nameIndex packageIndex,
      Points .any p.multinames index (.qname ns nameIndex false) ∧
      Points ⟨0, 0⟩ p.namespaces ns ⟨Namespace.package, packageIndex⟩ ∧
      p.Interns package packageIndex ∧ p.Interns name nameIndex
  | _ => True

theorem Answered.grow {addition : Addition} (h : addition.Answered p index) (hgrows : p.Grows q) :
    addition.Answered q index := by
  cases addition with
  | string s => exact Pool.Interns.grow h hgrows.strings
  | qname package name =>
    obtain ⟨ns, nameIndex, packageIndex, hmultiname, hspace, hpackage, hname⟩ := h
    exact ⟨ns, nameIndex, packageIndex, hmultiname.grow hgrows.multinames, hspace.grow hgrows.namespaces,
      hpackage.grow hgrows.strings, hname.grow hgrows.strings⟩
  | _ => trivial

end Addition

namespace Builder

/-- The map has the strings of the table and no others, each under the index of its place. -/
structure InStep (b : Builder) : Prop where
  strings : ∀ s, b.strings[s]? = (b.document.pool.strings.idxOf? s).map fun i => UInt32.ofNat (i + 1)
  distinct : b.document.pool.texts.Nodup

theorem InStep.empty : InStep {} where
  strings _ := rfl
  distinct := by simp [Pool.texts]

theorem InStep.congr {b b' : Builder} (h : b.InStep) (hmap : b'.strings = b.strings)
    (htable : b'.document.pool.strings = b.document.pool.strings) : b'.InStep where
  strings s := by
    rw [hmap, htable]
    exact h.strings s
  distinct := by
    rw [Pool.texts, htable]
    exact h.distinct

theorem InStep.push {b : Builder} (h : b.InStep) (hne : s ≠ "") (hnew : b.document.pool.strings.idxOf? s = none) :
    InStep { b.modifyPool ({ · with strings := b.document.pool.strings ++ [s] }) with
      strings := b.strings.insert s (lastIndex (b.document.pool.strings ++ [s])) } := by
  have hnot : s ∉ b.document.pool.strings := List.idxOf?_eq_none_iff.mp hnew
  constructor
  · intro other
    have hplace : (b.document.pool.strings ++ [s]).idxOf? other =
        (b.document.pool.strings.idxOf? other).or (if s = other then some b.document.pool.strings.length else none) := by
      simp [List.idxOf?, List.findIdx?_append, List.findIdx?_singleton]
    change (b.strings.insert s _)[other]? = ((b.document.pool.strings ++ [s]).idxOf? other).map _
    rw [Std.TreeMap.getElem?_insert, hplace]
    by_cases ho : s = other
    · subst ho
      simp [hnew, lastIndex]
    · simp [ho, h.strings other]
  · have hapart : ∀ other ∈ b.document.pool.texts, other ≠ s := by
      rintro other hother rfl
      rcases List.mem_cons.mp hother with he | hmem
      · exact hne he
      · exact hnot hmem
    change ("" :: (b.document.pool.strings ++ [s])).Nodup
    rw [← List.cons_append]
    exact List.nodup_append.mpr
      ⟨h.distinct, by simp, fun other hother last hlast => List.mem_singleton.mp hlast ▸ hapart other hother⟩

end Builder

/-- What an addition does: tables grow, its index stands for what was added, and the map stays in step. -/
structure Addition.Adds (b : Builder) (addition : Addition) (index : UInt32) (b' : Builder) : Prop where
  grows : b.document.pool.Grows b'.document.pool
  answered : addition.Answered b'.document.pool index
  inStep : b'.InStep

namespace Builder

variable {b : Builder}

theorem adds_string (h : b.InStep) (s : String) : (Addition.string s).Adds b (b.addString s).2 (b.addString s).1 := by
  unfold addString
  by_cases hempty : s = ""
  · subst hempty
    exact ⟨.refl _, ⟨by simp [Pool.texts], by simp [Pool.texts]⟩, h⟩
  · have hne : ("" == s) = false := by simpa using Ne.symm hempty
    have hmap := h.strings s
    rw [if_neg hempty]
    cases hplace : b.document.pool.strings.idxOf? s with
    | some i =>
      rw [hplace] at hmap
      have hi : b.document.pool.strings.idxOf s = i := by rw [List.idxOf_eq_getD_idxOf?, hplace, Option.getD_some]
      have hmem : s ∈ b.document.pool.strings := by
        obtain ⟨hlt, hget, -⟩ := List.idxOf?_eq_some_iff.mp hplace
        exact hget ▸ List.getElem_mem hlt
      rw [hmap]
      refine ⟨.refl _, ⟨List.mem_cons_of_mem _ hmem, ?_⟩, h⟩
      simp [Pool.texts, List.idxOf_cons, hne, hi]
    | none =>
      rw [hplace] at hmap
      rw [hmap]
      have hnew : s ∉ b.document.pool.strings := List.idxOf?_eq_none_iff.mp hplace
      refine ⟨⟨List.prefix_append _ _, List.prefix_rfl, List.prefix_rfl⟩, ⟨?_, ?_⟩, h.push hempty hplace⟩
      · simp [modifyPool, Pool.texts]
      · simp [modifyPool, Pool.texts, lastIndex, List.idxOf_cons, hne, List.idxOf_append_of_notMem hnew]

theorem adds_space (h : b.InStep) (kind : UInt8) (name : String) :
    (Addition.space kind name).Adds b (b.addNamespace kind name).2 (b.addNamespace kind name).1 := by
  have hname := adds_string h name
  refine ⟨?_, trivial, hname.inStep.congr rfl rfl⟩
  exact ⟨hname.grows.strings, hname.grows.namespaces.trans (List.prefix_append _ _), hname.grows.multinames⟩

theorem points_addNamespace (h : b.InStep) (kind : UInt8) (name : String) :
    ∃ nameIndex,
      Points ⟨0, 0⟩ (b.addNamespace kind name).1.document.pool.namespaces (b.addNamespace kind name).2 ⟨kind, nameIndex⟩ ∧
      (b.addNamespace kind name).1.document.pool.Interns name nameIndex :=
  ⟨_, Points.last _ _ _, Pool.Interns.grow (adds_string h name).answered List.prefix_rfl⟩

theorem adds_qname (h : b.InStep) (package name : String) :
    (Addition.qname package name).Adds b (b.addQName package name).2 (b.addQName package name).1 := by
  have hspace := adds_space h Namespace.package package
  have hname := adds_string hspace.inStep name
  obtain ⟨packageIndex, hpoints, hpackage⟩ := points_addNamespace h Namespace.package package
  have hgrows := hspace.grows.trans hname.grows
  refine ⟨⟨hgrows.strings, hgrows.namespaces, hgrows.multinames.trans (List.prefix_append _ _)⟩, ?_, ?_⟩
  · exact ⟨_, _, packageIndex, Points.last _ _ _, hpoints.grow hname.grows.namespaces,
      hpackage.grow hname.grows.strings, Pool.Interns.grow hname.answered List.prefix_rfl⟩
  · exact hname.inStep.congr rfl rfl

end Builder

namespace Addition

theorem adds {b b' : Builder} {addition : Addition} (hb : b.InStep) (h : addition.run b = .ok (b', index)) :
    addition.Adds b index b' := by
  cases addition with
  | string s =>
    have hadds := Builder.adds_string hb s
    rwa [show b.addString s = (b', index) from Except.ok.inj h] at hadds
  | space kind name =>
    cases h
    exact Builder.adds_space hb kind name
  | qname package name =>
    cases h
    exact Builder.adds_qname hb package name
  | multiname mn =>
    cases h
    exact ⟨⟨List.prefix_rfl, List.prefix_rfl, List.prefix_append _ _⟩, trivial, hb.congr rfl rfl⟩
  | method paramCount maxStack localCount code traits =>
    obtain ⟨_, -, h⟩ := except_bind_eq_ok.mp h
    obtain ⟨_, -, h⟩ := except_bind_eq_ok.mp h
    cases h
    exact ⟨.refl _, trivial, hb.congr rfl rfl⟩
  | classDef | script =>
    cases h
    exact ⟨.refl _, trivial, hb.congr rfl rfl⟩
  | int | uint | double | nsSet =>
    cases h
    exact ⟨⟨List.prefix_rfl, List.prefix_rfl, List.prefix_rfl⟩, trivial, hb.congr rfl rfl⟩

theorem adds_all {b b' : Builder} {additions : List Addition} (hb : b.InStep)
    (h : runAll b additions = .ok (b', indices)) :
    b.document.pool.Grows b'.document.pool ∧ b'.InStep ∧
      List.Forall₂ (fun addition index => addition.Answered b'.document.pool index) additions indices := by
  induction additions generalizing b indices with
  | nil =>
    cases h
    exact ⟨.refl _, hb, .nil⟩
  | cons addition rest ih =>
    obtain ⟨⟨b₁, index⟩, hfirst, h⟩ := except_bind_eq_ok.mp h
    obtain ⟨⟨b₂, later⟩, hrest, h⟩ := except_bind_eq_ok.mp h
    cases h
    have hadds := adds hb hfirst
    obtain ⟨hgrows, hstep, hanswered⟩ := ih hadds.inStep hrest
    exact ⟨hadds.grows.trans hgrows, hstep, .cons (hadds.answered.grow hgrows) hanswered⟩

theorem Answered.staticName? {package name : String} (h : (qname package name).Answered p index) (hroom : p.HasRoom) :
    p.staticName? index = some (if package = "" then name else package ++ "." ++ name) := by
  obtain ⟨ns, nameIndex, packageIndex, hmultiname, hspace, hpackage, hname⟩ := h
  have hspaceName : p.namespaceName ns = package := by
    rw [Pool.namespaceName, Pool.namespace?, hspace.item? hroom.namespaces]
    exact hpackage.string_eq hroom.strings
  rw [Pool.staticName?, Pool.multiname?, hmultiname.item? hroom.multinames]
  simp only [Pool.qualify, hspaceName, hname.string_eq hroom.strings]

end Addition

/-- Strings are interned and names resolve, whatever is added to a document. -/
structure Document.Interned (d : Document) (additions : List Addition) (indices : List UInt32) : Prop where
  answered : additions.length = indices.length
  /-- The strings are pairwise distinct, and the empty one stands at index 0 only. -/
  distinct : d.pool.texts.Nodup
  /-- The same string gets the same index. -/
  shared : ∀ s i j, (.string s, i) ∈ additions.zip indices → (.string s, j) ∈ additions.zip indices → i = j
  /-- An index still holds its string, exactly if the place of the string fits into 32 bits. -/
  held : ∀ s i, (.string s, i) ∈ additions.zip indices → (d.pool.string i = s ↔ d.pool.texts.idxOf s < 2 ^ 32)
  /-- A name in a package still resolves, if indices of 32 bits suffice for the tables. -/
  resolved : d.pool.HasRoom → ∀ package name i, (.qname package name, i) ∈ additions.zip indices →
    d.pool.staticName? i = some (if package = "" then name else package ++ "." ++ name)

/-- Whatever is added to an empty builder, the document that it gives has its strings interned, and its names
resolve. -/
theorem built_documents_are_interned {additions : List Addition} {b : Builder} {indices : List UInt32}
    (h : Addition.runAll {} additions = .ok (b, indices)) : b.finish.Interned additions indices := by
  obtain ⟨-, hstep, hanswered⟩ := Addition.adds_all .empty h
  obtain ⟨hlength, hall⟩ := List.forall₂_iff_zip.mp hanswered
  constructor
  case answered => exact hlength
  case distinct => exact hstep.distinct
  case shared =>
    intro s i j hi hj
    have hi : b.finish.pool.Interns s i := hall hi
    have hj : b.finish.pool.Interns s j := hall hj
    rw [hi.index_eq, hj.index_eq]
  case held =>
    intro s i hi
    have hi : b.finish.pool.Interns s i := hall hi
    exact hi.string_eq_iff
  case resolved =>
    intro hroom package name i hi
    exact Addition.Answered.staticName? (hall hi) hroom

def Addition.sharing : List Addition :=
  [.string "a", .qname "p" "a", .method 1 2 0 [] [], .space 5 "a", .qname "" "p", .string "", .string "a"]

theorem sharing_is_interned :
    ∃ b, Addition.runAll {} Addition.sharing = .ok (b, [1, 1, 0, 2, 2, 0, 1]) ∧ b.finish.pool.strings = ["a", "p"] ∧
      b.finish.pool.HasRoom ∧ b.finish.Interned Addition.sharing [1, 1, 0, 2, 2, 0, 1] := by
  have hrun : ∃ b, Addition.runAll {} Addition.sharing = .ok (b, [1, 1, 0, 2, 2, 0, 1]) ∧
      b.finish.pool.strings = ["a", "p"] ∧ b.finish.pool.HasRoom :=
    ⟨_, rfl, rfl, ⟨by decide, by decide, by decide⟩⟩
  obtain ⟨b, hrun, hstrings, hroom⟩ := hrun
  exact ⟨b, hrun, hstrings, hroom, built_documents_are_interned hrun⟩

end ActionVm
