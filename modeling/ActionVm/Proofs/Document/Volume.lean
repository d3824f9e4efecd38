import ActionVm.Proofs.Document.Streaming

namespace ActionVm

def total (size : α → Nat) : List α → Nat
  | [] => 0
  | a :: l => size a + total size l

theorem total_one (l : List α) : total (fun _ => 1) l = l.length := by
  induction l with
  | nil => rfl
  | cons a l ih => rw [total, ih, List.length_cons, Nat.add_comm]

theorem total_set {l : List α} (h : l[i]? = some a) (size : α → Nat) (b : α) :
    total size (l.set i b) + size a = total size l + size b := by
  induction l generalizing i with
  | nil => cases h
  | cons c l ih =>
    cases i with
    | zero =>
      cases h
      simp only [List.set_cons_zero, total]
      omega
    | succ i =>
      have hrest := ih h
      simp only [List.set_cons_succ, total]
      omega

section Entries

def Namespace.setEntries (set : List UInt32) : Nat :=
  1 + set.length

def Pool.entries (p : Pool) : Nat :=
  p.integers.length + p.uintegers.length + p.doubles.length + p.strings.length + p.namespaces.length +
    total Namespace.setEntries p.nsSets + p.multinames.length

def Trait.entries (t : Trait) : Nat :=
  1 + t.metadata.length

def Body.entries (b : Body) : Nat :=
  1 + b.code.length + b.exceptions.length + total Trait.entries b.traits

def Method.entries (m : Method) : Nat :=
  1 + m.paramTypes.length + m.options.length + m.paramNames.length + m.body.elim 0 Body.entries

def Metadata.entries (m : Metadata) : Nat :=
  1 + m.items.length

def Instance.entries (i : Instance) : Nat :=
  1 + i.interfaces.length + total Trait.entries i.traits

def Definition.entries (d : Definition) : Nat :=
  1 + total Trait.entries d.traits

/-- All entries of a document, at every depth. -/
def Document.entries (d : Document) : Nat :=
  d.pool.entries + total Method.entries d.methods + total Metadata.entries d.metadata +
    total Instance.entries d.instances + total Definition.entries d.classes + total Definition.entries d.scripts

end Entries

namespace Read

/-- With some bytes taken before, the reader has taken as many as its result has entries. -/
def Pays (before : Nat) (x : Read α) (size : α → Nat) : Prop :=
  ∀ input a after, x input = .ok a after → size a + after.rest.length ≤ before + input.rest.length

namespace Pays

variable {x : Read α} {f : α → Read β} {s : α → Nat} {t : β → Nat}

theorem pure (h : s a ≤ n) : Pays n (Pure.pure a) s := by
  intro input b after hb
  obtain ⟨rfl, rfl⟩ := pure_eq_ok.mp hb
  exact Nat.add_le_add_right h _

theorem andThen (hx : Pays n x s) (hf : ∀ a, Pays (s a) (f a) t) : Pays n (x >>= f) t := by
  intro input b after hb
  obtain ⟨a, middle, hxa, hfb⟩ := bind_eq_ok.mp hb
  exact Nat.le_trans (hf a middle b after hfb) (hx input a middle hxa)

theorem carry (h : Pays n x s) (hle : m + n ≤ k) : Pays k x fun a => m + s a := by
  intro input a after hx
  have hpaid := h input a after hx
  dsimp only
  omega

theorem bind (hx : Pays 0 x s) (hf : ∀ a, Pays (n + s a) (f a) t) : Pays n (x >>= f) t :=
  andThen (hx.carry (Nat.le_refl n)) hf

theorem of_consumes (h : Consumes x) : Pays 0 x fun _ => 0 := by
  intro input a after hx
  obtain ⟨taken, htaken⟩ := h.takes input a after hx
  dsimp only
  rw [htaken.rest, List.length_append]
  omega

theorem one (h : Consumes x)
    (hempty : ∀ position anomalies, ∃ e stop, x { rest := [], position, anomalies } = .error e stop) :
    Pays 0 x fun _ => 1 := by
  intro input a after hx
  obtain ⟨taken, htaken⟩ := h.takes input a after hx
  cases taken with
  | nil =>
    obtain ⟨e, stop, herror⟩ := hempty input.position input.anomalies
    cases herror.symm.trans (htaken.follow [])
  | cons b taken =>
    dsimp only
    rw [htaken.rest, List.length_append, List.length_cons]
    omega

theorem skip (hx : Consumes x) (hf : ∀ a, Pays n (f a) t) : Pays n (x >>= f) t :=
  bind (of_consumes hx) hf

theorem optional_bind {c : Prop} [Decidable c] (hx : Pays 0 x s) (he : s e = 0) (hf : ∀ a, Pays (n + s a) (f a) t) :
    Pays n (if c then x >>= f else Pure.pure e >>= f) t := by
  split
  · exact hx.bind hf
  · exact bind (pure (Nat.le_of_eq he)) hf

theorem noting {c : Prop} [Decidable c] {f : Unit → Read β} (hf : Pays n (f ()) t) :
    Pays n (if c then note anomaly >>= f else f ()) t := by
  split
  · exact skip (Consumes.note anomaly) fun _ => hf
  · exact hf

theorem bytes (count : Nat) : Pays 0 (Read.bytes count) List.length := by
  intro input taken after h
  obtain ⟨hrest, -, -⟩ := bytes_eq_ok.mp h
  rw [hrest, List.length_append]
  omega

theorem numbered {entry : Nat → Read α} (h : ∀ index, Pays 0 (entry index) s) (index count : Nat) :
    Pays 0 (Read.numbered entry index count) (total s) := by
  induction count generalizing index with
  | zero => exact pure (Nat.le_refl 0)
  | succ count ih =>
    apply (h index).bind
    intro first
    apply (ih (index + 1)).bind
    intro more
    apply pure
    rw [total, Nat.zero_add]

theorem times {entry : Read α} (h : Pays 0 entry s) (count : Nat) : Pays 0 (Read.times count entry) (total s) := by
  rw [← numbered_const entry 0]
  exact numbered (fun _ => h) 0 count

theorem counted {entry : Read α} (h : Pays 0 entry s) : Pays 0 (Read.counted entry) (total s) :=
  skip Consumes.u30 fun count => times h count.toNat

theorem table {entry : Nat → Read α} (h : ∀ index, Pays 0 (entry index) s) : Pays 0 (Read.table entry) (total s) :=
  skip Consumes.u30 fun count => numbered h 1 (count.toNat - 1)

theorem lengths {x : Read (List α)} (h : Pays 0 x (total fun _ => 1)) : Pays 0 x List.length := by
  intro input l after hx
  have hl := h input l after hx
  rwa [total_one] at hl

theorem u30 : Pays 0 Read.u30 fun _ => 1 :=
  one Consumes.u30 fun _ _ => ⟨_, _, rfl⟩

end Pays

end Read

open Read (Pays Consumes)

theorem Namespace.pays_set (index : Nat) : Pays 0 (readSet index) setEntries := by
  apply Pays.u30.bind
  intro count
  apply Pays.noting
  intro input set after hset
  have hlength := (Pays.times Pays.u30 count.toNat).lengths input set after hset
  rw [setEntries]
  omega

theorem Pool.pays : Pays 0 read entries := by
  apply Pays.bind (Pays.table fun _ => Pays.one Consumes.s32 fun _ _ => ⟨_, _, rfl⟩).lengths
  intro integers
  apply Pays.bind (Pays.table fun _ => Pays.one Consumes.u32 fun _ _ => ⟨_, _, rfl⟩).lengths
  intro uintegers
  apply Pays.bind (Pays.table fun _ => Pays.one Consumes.d64 fun _ _ => ⟨_, _, rfl⟩).lengths
  intro doubles
  apply Pays.bind (Pays.table fun _ => Pays.one Consumes.law.text fun _ _ => ⟨_, _, rfl⟩).lengths
  intro strings
  apply Pays.bind
    (Pays.table fun index => Pays.one (Namespace.obeys Consumes.law index) fun _ _ => ⟨_, _, rfl⟩).lengths
  intro namespaces
  apply Pays.bind (Pays.table Namespace.pays_set)
  intro nsSets
  apply Pays.bind
    (Pays.table fun index => Pays.one (Multiname.obeys Consumes.law index) fun _ _ => ⟨_, _, rfl⟩).lengths
  intro multinames
  apply Pays.pure
  simp [entries]

theorem Method.pays : Pays 0 read entries := by
  apply Pays.u30.bind
  intro paramCount
  apply Pays.skip Consumes.u30
  intro returnType
  apply Pays.bind (Pays.times Pays.u30 _).lengths
  intro paramTypes
  apply Pays.skip Consumes.u30
  intro name
  apply Pays.skip Consumes.u8
  intro flags
  have hoption : Pays 0 OptionValue.read fun _ => 1 :=
    Pays.one (OptionValue.obeys Consumes.law) fun _ _ => ⟨_, _, rfl⟩
  apply Pays.optional_bind hoption.counted.lengths rfl
  intro options
  apply Pays.optional_bind (Pays.times Pays.u30 _).lengths rfl
  intro paramNames
  apply Pays.pure
  simp [entries]

theorem Metadata.pays : Pays 0 read entries := by
  apply Pays.u30.bind
  intro name
  have hitem : Pays 0 (do let key ← Read.u30; let value ← Read.u30; return (key, value)) fun _ => 1 := by
    apply Pays.u30.bind
    intro key
    apply Pays.skip Consumes.u30
    intro value
    exact Pays.pure (Nat.le_refl 1)
  apply Pays.bind hitem.counted.lengths
  intro items
  apply Pays.pure
  simp [entries]

theorem Trait.pays : Pays 0 read entries := by
  apply Pays.u30.bind
  intro name
  apply Pays.skip Consumes.position
  intro offset
  apply Pays.skip Consumes.u8
  intro kindByte
  apply Pays.skip (TraitKind.obeys Consumes.law offset _)
  intro kind
  apply Pays.optional_bind (Pays.counted Pays.u30).lengths rfl
  intro metadata
  apply Pays.pure
  simp [entries]

theorem Instance.pays : Pays 0 read entries := by
  apply Pays.u30.bind
  intro name
  apply Pays.skip Consumes.u30
  intro superName
  apply Pays.skip Consumes.u8
  intro flags
  apply Pays.optional_bind (Pays.of_consumes (Consumes.law.map some Consumes.u30)) rfl
  intro protectedNs
  apply Pays.bind (Pays.counted Pays.u30).lengths
  intro interfaces
  apply Pays.skip Consumes.u30
  intro init
  apply Pays.bind (Pays.counted Trait.pays)
  intro traits
  apply Pays.pure
  simp [entries]

theorem Definition.pays : Pays 0 read entries := by
  apply Pays.u30.bind
  intro init
  apply Pays.bind (Pays.counted Trait.pays)
  intro traits
  apply Pays.pure
  simp [entries]

namespace Body

theorem pays : Pays 0 read fun (_, body) => body.entries := by
  apply Pays.u30.bind
  intro method
  apply Pays.skip Consumes.u30
  intro maxStack
  apply Pays.skip Consumes.u30
  intro localCount
  apply Pays.skip Consumes.u30
  intro initScopeDepth
  apply Pays.skip Consumes.u30
  intro maxScopeDepth
  apply Pays.skip Consumes.u30
  intro codeLength
  apply Pays.bind (Pays.bytes _)
  intro code
  have hexception : Pays 0 ExceptionRange.read fun _ => 1 :=
    Pays.one (ExceptionRange.obeys Consumes.law) fun _ _ => ⟨_, _, rfl⟩
  apply Pays.bind hexception.counted.lengths
  intro exceptions
  apply Pays.bind (Pays.counted Trait.pays)
  intro traits
  apply Pays.pure
  simp [entries]

theorem pays_link (methods : List Method) (index : Nat) (method : UInt32) (body : Body) :
    Pays (total Method.entries methods + body.entries) (link methods index method body) (total Method.entries) := by
  have hkeep : total Method.entries methods ≤ total Method.entries methods + body.entries := Nat.le_add_right ..
  unfold link
  split
  · exact Pays.skip (Consumes.note _) fun _ => Pays.pure hkeep
  · rename_i m hm
    split
    · exact Pays.skip (Consumes.note _) fun _ => Pays.pure hkeep
    · rename_i hfree
      have hnone : m.body = none := by simpa using hfree
      have hset := total_set hm Method.entries { m with body := some body }
      apply Pays.pure
      simp only [Method.entries, hnone, Option.elim_none, Option.elim_some] at hset ⊢
      omega

theorem pays_all (methods : List Method) (index count : Nat) :
    Pays (total Method.entries methods) (readAll methods index count) (total Method.entries) := by
  induction count generalizing methods index with
  | zero => exact Pays.pure (Nat.le_refl _)
  | succ count ih =>
    apply pays.bind
    rintro ⟨method, body⟩
    apply (pays_link methods index method body).andThen
    intro linked
    exact ih linked (index + 1)

end Body

namespace Document

theorem pays : Pays 0 read entries := by
  simp only [read, readContent, readHeader, bind_assoc, pure_bind]
  apply Pays.skip Consumes.u16
  intro minorVersion
  apply Pays.skip Consumes.u16
  intro majorVersion
  apply Pays.bind Pool.pays
  intro pool
  apply Pays.bind (Pays.counted Method.pays)
  intro declared
  apply Pays.bind (Pays.counted Metadata.pays)
  intro metadata
  apply Pays.skip Consumes.u30
  intro classCount
  apply Pays.bind (Pays.times Instance.pays _)
  intro instances
  apply Pays.bind (Pays.times Definition.pays _)
  intro classes
  apply Pays.bind (Pays.counted Definition.pays)
  intro scripts
  apply Pays.skip Consumes.u30
  intro bodyCount
  -- the methods are counted again, with their bodies
  have hothers : pool.entries + total Metadata.entries metadata + total Instance.entries instances +
      total Definition.entries classes + total Definition.entries scripts + total Method.entries declared ≤
        0 + pool.entries + total Method.entries declared + total Metadata.entries metadata +
          total Instance.entries instances + total Definition.entries classes + total Definition.entries scripts := by
    omega
  apply Pays.andThen ((Body.pays_all declared 0 bodyCount.toNat).carry hothers)
  intro methods
  apply Pays.skip Consumes.takeAnomalies
  intro anomalies
  apply Pays.pure
  simp only [entries]
  omega

/-- A document has no more entries than it was read from bytes, whatever counts it declares. -/
theorem entries_le_length {bytes : Bytes} {d : Document} (h : ofBytes bytes = .ok d) : d.entries ≤ bytes.length := by
  cases hread : read { rest := bytes } with
  | error e stop =>
    rw [ofBytes_of_error hread] at h
    cases h
  | ok content after =>
    rw [ofBytes_of_ok hread] at h
    cases h
    have hpaid := pays _ _ _ hread
    dsimp only at hpaid
    omega

def crowdedBytes : Bytes :=
  [0x10, 0x00, 0x2E, 0x00,
   0, 0, 0, 0, 0, 2, 4, 1, 1, 1, 1, 0,
   1, 2, 0, 0, 0, 0, 0, 0, 0, 0,
   1, 0, 1, 1, 0, 1, 3, 0xD0, 0x30, 0x47, 0, 0]

def crowded : Document where
  pool := { nsSets := [[1, 1, 1, 1]] }
  methods :=
    [{ paramTypes := [0, 0]
       body := some { maxStack := 1, localCount := 1, initScopeDepth := 0, maxScopeDepth := 1
                      code := [0xD0, 0x30, 0x47] } }]

theorem entries_le_length_crowded :
    ofBytes crowdedBytes = .ok crowded ∧ crowded.entries = 12 ∧ 12 ≤ crowdedBytes.length := by
  have h : ofBytes crowdedBytes = .ok crowded := by cbv
  have hentries : crowded.entries = 12 := by decide
  exact ⟨h, hentries, hentries ▸ entries_le_length h⟩

end Document

end ActionVm
