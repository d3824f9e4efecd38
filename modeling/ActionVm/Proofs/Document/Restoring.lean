import ActionVm.Proofs.Document.Fields

namespace ActionVm

/-- An oddity that written bytes can show. -/
def Anomaly.Writable : Anomaly → Prop
  | u32HighBits _ | bodyMethodOutOfRange _ _ | duplicateBody _ => False
  | _ => True

namespace Read

/-- The reader takes the bytes and gives `a`. It notes writable oddities only, and none if `plain`. -/
def Restores (plain : Prop) (x : Read α) (bytes : Bytes) (a : α) : Prop :=
  ∀ rest position anomalies, ∃ noted,
    x { rest := bytes ++ rest, position, anomalies } =
      .ok a { rest, position := position + bytes.length, anomalies := anomalies ++ noted } ∧
    ∀ anomaly ∈ noted, anomaly.Writable ∧ ¬plain

namespace Restores

variable {plain : Prop} {x : Read α} {f : α → Read β} {l r : Bytes} {a : α} {b : β}

theorem pure (a : α) : Restores plain (Pure.pure a) [] a := by
  intro rest position anomalies
  refine ⟨[], ?_, nofun⟩
  rw [List.append_nil]
  rfl

theorem bind (hx : Restores plain x l a) (hf : Restores plain (f a) r b) :
    Restores plain (x >>= f) (l ++ r) b := by
  intro rest position anomalies
  obtain ⟨noted, h, hnoted⟩ := hx (r ++ rest) position anomalies
  obtain ⟨noted', h', hnoted'⟩ := hf rest (position + l.length) (anomalies ++ noted)
  refine ⟨noted ++ noted', ?_, ?_⟩
  · rw [List.append_assoc, bind_of_ok h, h', List.length_append, Nat.add_assoc, List.append_assoc]
  · intro anomaly hmem
    cases List.mem_append.mp hmem with
    | inl hmem => exact hnoted anomaly hmem
    | inr hmem => exact hnoted' anomaly hmem

theorem bind_last (hx : Restores plain x l a) (hf : Restores plain (f a) [] b) :
    Restores plain (x >>= f) l b := by
  have h := hx.bind hf
  rwa [List.append_nil] at h

theorem bind_pure (hx : Restores plain x l a) (hf : f a = Pure.pure b) : Restores plain (x >>= f) l b :=
  hx.bind_last (hf ▸ pure b)

theorem map (g : α → β) (hx : Restores plain x l a) : Restores plain (g <$> x) l (g a) := by
  rw [map_eq_pure_bind]
  exact hx.bind_pure rfl

theorem position_bind {f : Nat → Read β} (h : ∀ offset, Restores plain (f offset) l b) :
    Restores plain (Read.position >>= f) l b :=
  fun rest position anomalies => h position rest position anomalies

theorem note_bind {anomaly : Anomaly} {f : Unit → Read β} (hw : anomaly.Writable) (hp : ¬plain)
    (h : Restores plain (f ()) l b) : Restores plain (note anomaly >>= f) l b := by
  intro rest position anomalies
  obtain ⟨noted, h, hnoted⟩ := h rest position (anomalies ++ [anomaly])
  refine ⟨anomaly :: noted, ?_, ?_⟩
  · rw [List.append_cons, ← h]
    rfl
  · rintro other (_ | ⟨_, hmem⟩)
    · exact ⟨hw, hp⟩
    · exact hnoted other hmem

theorem noting {c : Prop} [Decidable c] {anomaly : Anomaly} {f : Unit → Read β}
    (hc : c → anomaly.Writable ∧ ¬plain) (h : Restores plain (f ()) l b) :
    Restores plain (if c then note anomaly >>= f else f ()) l b := by
  split
  · rename_i hcond
    exact note_bind (hc hcond).1 (hc hcond).2 h
  · exact h

theorem noting_unless {c : Prop} [Decidable c] {anomaly : Anomaly} {f : Unit → Read β}
    (hc : ¬c → anomaly.Writable ∧ ¬plain) (h : Restores plain (f ()) l b) :
    Restores plain (if c then f () else note anomaly >>= f) l b := by
  split
  · exact h
  · rename_i hcond
    exact note_bind (hc hcond).1 (hc hcond).2 h

theorem optional_bind {c : Prop} [Decidable c] (ht : c → Restores plain x l a) (hf : ¬c → a = e)
    (hk : Restores plain (f a) r b) :
    Restores plain (if c then x >>= f else Pure.pure e >>= f) ((if c then l else []) ++ r) b := by
  split
  · rename_i hcond
    exact (ht hcond).bind hk
  · rename_i hcond
    exact hf hcond ▸ hk

theorem optional_last {c : Prop} [Decidable c] (ht : c → Restores plain x l a) (hf : ¬c → a = e)
    (hk : f a = Pure.pure b) :
    Restores plain (if c then x >>= f else Pure.pure e >>= f) (if c then l else []) b := by
  have h := optional_bind ht hf (f := f) (hk ▸ pure b)
  rwa [List.append_nil] at h

theorem of_gives (h : Gives x l a n) (hn : ∀ offset, ∀ anomaly ∈ n offset, anomaly.Writable ∧ ¬plain) :
    Restores plain x l a :=
  fun rest position anomalies => ⟨n position, h rest position anomalies, hn position⟩

theorem of_silent (h : Gives x l a silent) : Restores plain x l a :=
  of_gives h fun _ => List.forall_mem_nil _

theorem bytes (l : Bytes) : Restores plain (Read.bytes l.length) l l :=
  of_silent (Gives.bytes l)

theorem u8 (v : UInt8) : Restores plain Read.u8 [v] v :=
  of_silent (Gives.u8 v)

theorem u16 (v : UInt16) : Restores plain Read.u16 (Bytes.ofUInt16 v) v :=
  of_silent (Gives.u16 v)

theorem d64 (d : Double) : Restores plain Read.d64 (Bytes.ofUInt64 d.bits) d :=
  of_silent (Gives.d64 d)

theorem u30 {v : UInt32} (hp : plain → v.toNat < 2 ^ 30) : Restores plain Read.u30 (Write.u30 v) v := by
  apply of_gives (Gives.u30 v)
  intro offset anomaly hmem
  obtain ⟨hlarge, hmem⟩ := List.mem_ite_nil_right.mp hmem
  obtain rfl := List.mem_singleton.mp hmem
  exact ⟨trivial, fun h => Nat.not_lt.mpr hlarge (hp h)⟩

theorem u32 (v : UInt32) : Restores plain Read.u32 (Bytes.varint v) v :=
  of_silent (Gives.u32 v)

theorem s32 (v : Int32) : Restores plain Read.s32 (Bytes.signedVarint v) v :=
  of_silent (Gives.s32 v)

theorem count_bind {f : UInt32 → Read β} (hlt : n < 2 ^ 32) (hp : plain → n < 2 ^ 30)
    (h : ∀ count : UInt32, count.toNat = n → Restores plain (f count) l b) :
    Restores plain (Read.u30 >>= f) (Write.u30 (UInt32.ofNat n) ++ l) b := by
  have hn : (UInt32.ofNat n).toNat = n := UInt32.toNat_ofNat_of_lt' hlt
  refine (u30 ?_).bind (h _ hn)
  rw [hn]
  exact hp

theorem text {s : String} (hlt : (Utf8.encode s).length < 2 ^ 32)
    (hp : plain → (Utf8.encode s).length < 2 ^ 30 ∧ ∀ c ∈ s.toList, c.toNat < 128) :
    Restores plain Read.text (Write.text s) s := by
  apply of_gives (Gives.text hlt)
  intro offset anomaly hmem
  rcases List.mem_append.mp hmem with hmem | hmem
  · obtain ⟨hlarge, hmem⟩ := List.mem_ite_nil_right.mp hmem
    obtain rfl := List.mem_singleton.mp hmem
    exact ⟨trivial, fun h => Nat.not_lt.mpr hlarge (hp h).1⟩
  · obtain ⟨hany, hmem⟩ := List.mem_ite_nil_right.mp hmem
    obtain rfl := List.mem_singleton.mp hmem
    obtain ⟨c, hc, hle⟩ := List.any_eq_true.mp hany
    exact ⟨trivial, fun h => Nat.not_lt.mpr (of_decide_eq_true hle) ((hp h).2 c hc)⟩

theorem numbered_map {entry : Nat → Read β} {write : α → Bytes} {g : α → β} {entries : List α} (index : Nat)
    (h : ∀ a ∈ entries, ∀ index, Restores plain (entry index) (write a) (g a)) :
    Restores plain (Read.numbered entry index entries.length) (entries.flatMap write) (entries.map g) := by
  induction entries generalizing index with
  | nil => exact pure []
  | cons a entries ih =>
    rw [List.flatMap_cons]
    exact (h a List.mem_cons_self index).bind
      ((ih (index + 1) fun a ha => h a (List.mem_cons_of_mem _ ha)).bind_pure rfl)

theorem times_map {entry : Read β} {write : α → Bytes} {g : α → β} {entries : List α}
    (h : ∀ a ∈ entries, Restores plain entry (write a) (g a)) :
    Restores plain (Read.times entries.length entry) (entries.flatMap write) (entries.map g) := by
  rw [← numbered_const entry 0]
  exact numbered_map 0 fun a ha _ => h a ha

theorem times {entry : Read α} {write : α → Bytes} {entries : List α}
    (h : ∀ a ∈ entries, Restores plain entry (write a) a) :
    Restores plain (Read.times entries.length entry) (entries.flatMap write) entries := by
  have hid := times_map (g := id) h
  rwa [List.map_id] at hid

theorem counted_map {entry : Read β} {write : α → Bytes} {g : α → β} {entries : List α}
    (hlt : entries.length < 2 ^ 32) (hp : plain → entries.length < 2 ^ 30)
    (h : ∀ a ∈ entries, Restores plain entry (write a) (g a)) :
    Restores plain (Read.counted entry) (Write.counted write entries) (entries.map g) := by
  refine count_bind hlt hp fun count hcount => ?_
  rw [hcount]
  exact times_map h

theorem counted {entry : Read α} {write : α → Bytes} {entries : List α} (hlt : entries.length < 2 ^ 32)
    (hp : plain → entries.length < 2 ^ 30) (h : ∀ a ∈ entries, Restores plain entry (write a) a) :
    Restores plain (Read.counted entry) (Write.counted write entries) entries := by
  have hid := counted_map (g := id) hlt hp h
  rwa [List.map_id] at hid

theorem table {entry : Nat → Read α} {write : α → Bytes} {entries : List α}
    (hlt : entries.length < 2 ^ 32 - 1) (hp : plain → entries.length < 2 ^ 30 - 1)
    (h : ∀ a ∈ entries, ∀ index, Restores plain (entry index) (write a) a) :
    Restores plain (Read.table entry) (Write.table write entries) entries := by
  cases entries with
  | nil => exact (u30 (v := 0) fun _ => by decide).bind (pure [])
  | cons a entries =>
    refine count_bind (Nat.add_lt_of_lt_sub hlt) (fun h => Nat.add_lt_of_lt_sub (hp h)) fun count hcount => ?_
    have hid := numbered_map (g := id) 1 h
    rw [List.map_id] at hid
    rw [hcount]
    exact hid

end Restores

end Read

end ActionVm
