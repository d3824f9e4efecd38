import ActionVm.Proofs.Document.RoundTrip

namespace ActionVm

namespace Read

/-- From `n` bytes at most, the reader gives only what has the property. -/
def Yields (n : Nat) (x : Read α) (P : α → Prop) : Prop :=
  ∀ input a after, input.rest.length ≤ n → x input = .ok a after → after.rest.length ≤ n ∧ P a

variable {x : Read α} {f : α → Read β} {P : α → Prop} {Q : β → Prop}

theorem Consumes.yields (h : Consumes x) : Yields n x fun _ => True := by
  intro input a after hn hx
  obtain ⟨taken, htaken⟩ := h.takes input a after hx
  rw [htaken.rest, List.length_append] at hn
  exact ⟨Nat.le_trans (Nat.le_add_left ..) hn, trivial⟩

theorem Yields.bind (hx : Yields n x P) (hf : ∀ a, P a → Yields n (f a) Q) : Yields n (x >>= f) Q := by
  intro input b after hn hb
  obtain ⟨a, middle, hx', hf'⟩ := bind_eq_ok.mp hb
  obtain ⟨hm, ha⟩ := hx input a middle hn hx'
  exact hf a ha middle b after hm hf'

theorem Consumes.andThen (h : Consumes x) (hf : ∀ a, Yields n (f a) Q) : Yields n (x >>= f) Q :=
  h.yields.bind fun a _ => hf a

namespace Yields

theorem pure (h : P a) : Yields n (Pure.pure a) P := by
  intro input b after hn hb
  obtain ⟨rfl, rfl⟩ := pure_eq_ok.mp hb
  exact ⟨hn, h⟩

theorem throw (e : ReadError) : Yields n (throw e) P :=
  nofun

theorem mono {P' : α → Prop} (h : Yields n x P) (himp : ∀ a, P a → P' a) : Yields n x P' := by
  intro input a after hn hx
  obtain ⟨hm, ha⟩ := h input a after hn hx
  exact ⟨hm, himp a ha⟩

theorem optional_bind {c : Prop} [Decidable c] (hx : c → Yields n x P) (he : ¬c → P e)
    (hf : ∀ a, P a → Yields n (f a) Q) : Yields n (if c then x >>= f else Pure.pure e >>= f) Q := by
  split
  · exact (hx ‹_›).bind hf
  · exact (pure (he ‹_›)).bind hf

theorem noting {c : Prop} [Decidable c] {f : Unit → Read β} (hf : Yields n (f ()) Q) :
    Yields n (if c then note anomaly >>= f else f ()) Q := by
  split
  · exact (Consumes.note anomaly).andThen fun _ => hf
  · exact hf

theorem noting_unless {c : Prop} [Decidable c] {f : Unit → Read β} (hf : Yields n (f ()) Q) :
    Yields n (if c then f () else note anomaly >>= f) Q := by
  split
  · exact hf
  · exact (Consumes.note anomaly).andThen fun _ => hf

theorem bytes (count : Nat) : Yields n (Read.bytes count) fun taken => taken.length = count ∧ count ≤ n := by
  intro input taken after hn h
  obtain ⟨hr, hlen, -⟩ := bytes_eq_ok.mp h
  rw [hr, List.length_append, hlen] at hn
  exact ⟨Nat.le_of_add_left_le hn, hlen, Nat.le_of_add_right_le hn⟩

theorem text (hn : n < 2 ^ 30) : Yields n Read.text fun s => (Utf8.encode s).length < 2 ^ 32 := by
  refine Consumes.u30.andThen fun length => Consumes.position.andThen fun offset => ?_
  refine (bytes length.toNat).bind fun taken htaken => noting (pure ?_)
  have hle := Utf8.length_encode_decode taken
  omega

theorem numbered {entry : Nat → Read α} (count : Nat) (h : ∀ index, Yields n (entry index) P) :
    Yields n (Read.numbered entry index count) fun l => l.length = count ∧ ∀ a ∈ l, P a := by
  induction count generalizing index with
  | zero => exact pure ⟨rfl, nofun⟩
  | succ count ih =>
    refine (h index).bind fun first hfirst => ih.bind fun more hmore => pure ⟨?_, ?_⟩
    · rw [List.length_cons, hmore.1]
    · exact List.forall_mem_cons.mpr ⟨hfirst, hmore.2⟩

theorem times {entry : Read α} (count : Nat) (h : Yields n entry P) :
    Yields n (Read.times count entry) fun l => l.length = count ∧ ∀ a ∈ l, P a := by
  rw [← numbered_const entry 0]
  exact numbered count fun _ => h

theorem counted {entry : Read α} (h : Yields n entry P) :
    Yields n (Read.counted entry) (Bounded (2 ^ 32) P) := by
  refine Consumes.u30.andThen fun count => (h.times count.toNat).mono fun l hl => ⟨?_, hl.2⟩
  rw [hl.1]
  exact count.toNat_lt

theorem table {entry : Nat → Read α} (h : ∀ index, Yields n (entry index) P) :
    Yields n (Read.table entry) (Bounded (2 ^ 32 - 1) P) := by
  refine Consumes.u30.andThen fun count => (numbered (count.toNat - 1) h).mono fun l hl => ⟨?_, hl.2⟩
  have hlt := count.toNat_lt
  rw [hl.1]
  omega

end Yields

end Read

open Read (Yields Consumes)

namespace Namespace

theorem yields : Yields n (read index) fun _ => True := by
  refine Consumes.u8.andThen fun kind => Yields.noting_unless ?_
  exact Consumes.u30.andThen fun name => Yields.pure trivial

theorem yields_set : Yields n (readSet index) (·.length < 2 ^ 32) := by
  refine Consumes.u30.andThen fun count => Yields.noting ?_
  refine (Consumes.u30.yields.times count.toNat).mono fun set hset => ?_
  rw [hset.1]
  exact count.toNat_lt

end Namespace

theorem Multiname.yields : Yields n (read index) (· ≠ .any) := by
  refine Consumes.u8.andThen fun kind => ?_
  unfold readKind
  split
  · exact Consumes.u30.andThen fun ns => Consumes.u30.andThen fun name => Yields.pure nofun
  split
  · exact Consumes.u30.andThen fun name => Yields.pure nofun
  split
  · exact Yields.pure nofun
  split
  · exact Consumes.u30.andThen fun name => Consumes.u30.andThen fun nsSet => Yields.pure nofun
  split
  · exact Consumes.u30.andThen fun nsSet => Yields.pure nofun
  · exact Yields.throw _

theorem Pool.yields (hn : n < 2 ^ 30) : Yields n read WellFormed := by
  refine (Yields.table fun _ => Consumes.s32.yields).bind fun integers hintegers => ?_
  refine (Yields.table fun _ => Consumes.u32.yields).bind fun uintegers huintegers => ?_
  refine (Yields.table fun _ => Consumes.d64.yields).bind fun doubles hdoubles => ?_
  refine (Yields.table fun _ => Yields.text hn).bind fun strings hstrings => ?_
  refine (Yields.table fun _ => Namespace.yields).bind fun namespaces hnamespaces => ?_
  refine (Yields.table fun _ => Namespace.yields_set).bind fun nsSets hnsSets => ?_
  refine (Yields.table fun _ => Multiname.yields).bind fun multinames hmultinames => ?_
  exact Yields.pure ⟨hintegers.1, huintegers.1, hdoubles.1, hstrings, hnamespaces.1, hnsSets, hmultinames⟩

theorem OptionValue.yields : Yields n read fun _ => True := by
  refine Consumes.u30.andThen fun value => Consumes.u8.andThen fun kind => ?_
  exact Yields.noting_unless (Yields.pure trivial)

theorem Method.yields : Yields n read WellFormed := by
  refine Consumes.u30.andThen fun paramCount => Consumes.u30.andThen fun returnType => ?_
  refine (Consumes.u30.yields.times paramCount.toNat).bind fun paramTypes hparamTypes => ?_
  refine Consumes.u30.andThen fun name => Consumes.u8.andThen fun flags => ?_
  refine Yields.optional_bind
    (P := fun options => options.length < 2 ^ 32 ∧ (options ≠ [] → flags &&& hasOptional ≠ 0))
    (fun hflag => OptionValue.yields.counted.mono fun options h => ⟨h.1, fun _ => hflag⟩)
    (fun _ => ⟨by decide, nofun⟩) fun options hoptions => ?_
  refine Yields.optional_bind
    (P := fun paramNames => (paramNames ≠ [] → flags &&& hasParamNames ≠ 0) ∧
      (flags &&& hasParamNames ≠ 0 → paramNames.length = paramTypes.length))
    (fun hflag => (Consumes.u30.yields.times paramCount.toNat).mono fun paramNames h =>
      ⟨fun _ => hflag, fun _ => h.1.trans hparamTypes.1.symm⟩)
    (fun hflag => ⟨nofun, fun h => absurd h hflag⟩) fun paramNames hparamNames => ?_
  refine Yields.pure ⟨?_, hoptions.1, hoptions.2, hparamNames.1, hparamNames.2, nofun⟩
  rw [hparamTypes.1]
  exact paramCount.toNat_lt

theorem Metadata.yields : Yields n read WellFormed := by
  refine Consumes.u30.andThen fun name => Yields.bind ?_ fun items hitems => Yields.pure hitems
  refine Yields.mono (Yields.counted (P := fun _ => True) ?_) fun items h => h.1
  exact Consumes.u30.andThen fun key => Consumes.u30.andThen fun value => Yields.pure trivial

theorem SlotTrait.yields : Yields n read WellFormed := by
  refine Consumes.u30.andThen fun slotId => Consumes.u30.andThen fun typeName => ?_
  refine Consumes.u30.andThen fun vindex => ?_
  refine Yields.optional_bind (P := fun vkind => vindex = 0 → vkind = 0) (fun hne => ?_) (fun _ _ => rfl)
    fun vkind hvkind => Yields.pure hvkind
  exact Consumes.u8.yields.mono fun _ _ hzero => absurd hzero hne

theorem MethodTrait.yields : Yields n read fun _ => True :=
  Consumes.u30.andThen fun _ => Consumes.u30.andThen fun _ => Yields.pure trivial

theorem TraitKind.yields {low : UInt8} : Yields n (read offset low) WellFormed := by
  unfold read
  split
  · exact Yields.bind SlotTrait.yields fun s hs => Yields.pure hs
  split
  · exact Yields.bind MethodTrait.yields fun m _ => Yields.pure trivial
  split
  · exact Yields.bind MethodTrait.yields fun m _ => Yields.pure trivial
  split
  · exact Yields.bind MethodTrait.yields fun m _ => Yields.pure trivial
  split
  · exact Consumes.u30.andThen fun slotId => Consumes.u30.andThen fun cls => Yields.pure trivial
  split
  · exact Consumes.u30.andThen fun slotId => Consumes.u30.andThen fun m => Yields.pure trivial
  split
  · exact Yields.bind SlotTrait.yields fun s hs => Yields.pure hs
  · exact Yields.throw _

namespace Trait

theorem yields : Yields n read WellFormed := by
  refine Consumes.u30.andThen fun name => Consumes.position.andThen fun offset => ?_
  refine Consumes.u8.andThen fun kindByte => Yields.bind TraitKind.yields fun kind hkind => ?_
  have hattributes : kindByte / 16 < 16 := by
    have hlt := kindByte.toNat_lt
    simp only [UInt8.lt_iff_toNat_lt, UInt8.toNat_div, UInt8.reduceToNat]
    omega
  refine Yields.optional_bind
    (P := fun metadata => metadata.length < 2 ^ 32 ∧ (metadata ≠ [] → kindByte / 16 &&& hasMetadata ≠ 0))
    (fun hflag => Consumes.u30.yields.counted.mono fun metadata h => ⟨h.1, fun _ => hflag⟩)
    (fun _ => ⟨by decide, nofun⟩) fun metadata hmetadata => ?_
  exact Yields.pure ⟨hkind, hattributes, hmetadata.1, hmetadata.2⟩

theorem yields_list : Yields n readList (Bounded (2 ^ 32) WellFormed) :=
  Yields.counted yields

end Trait

theorem Instance.yields : Yields n read WellFormed := by
  refine Consumes.u30.andThen fun name => Consumes.u30.andThen fun superName => ?_
  refine Consumes.u8.andThen fun flags => ?_
  refine Yields.optional_bind (P := fun ns => ns.isSome ↔ flags &&& hasProtectedNs ≠ 0)
    (fun hflag => ?_) (fun hflag => iff_of_false nofun hflag) fun protectedNs hns => ?_
  · rw [map_eq_pure_bind]
    exact Consumes.u30.andThen fun ns => Yields.pure (iff_of_true rfl hflag)
  · refine Consumes.u30.yields.counted.bind fun interfaces hinterfaces => ?_
    refine Consumes.u30.andThen fun init => Yields.bind Trait.yields_list fun traits htraits => ?_
    exact Yields.pure ⟨hns, hinterfaces.1, htraits⟩

theorem Definition.yields : Yields n read WellFormed :=
  Consumes.u30.andThen fun _ => Yields.bind Trait.yields_list fun _ htraits => Yields.pure htraits

theorem ExceptionRange.yields : Yields n read fun _ => True := by
  refine Consumes.u30.andThen fun start => Consumes.u30.andThen fun stop => ?_
  refine Consumes.u30.andThen fun target => Consumes.u30.andThen fun excType => ?_
  exact Consumes.u30.andThen fun varName => Yields.pure trivial

namespace Body

theorem yields : Yields n read fun (_, body) => body.WellFormed := by
  refine Consumes.u30.andThen fun method => Consumes.u30.andThen fun maxStack => ?_
  refine Consumes.u30.andThen fun localCount => Consumes.u30.andThen fun initScopeDepth => ?_
  refine Consumes.u30.andThen fun maxScopeDepth => Consumes.u30.andThen fun codeLength => ?_
  refine (Yields.bytes codeLength.toNat).bind fun code hcode => ?_
  refine Yields.bind (.counted ExceptionRange.yields) fun exceptions hexceptions => ?_
  refine Yields.bind Trait.yields_list fun traits htraits => Yields.pure ⟨?_, hexceptions.1, htraits⟩
  rw [hcode.1]
  exact codeLength.toNat_lt

theorem yields_link (hmethods : Bounded (2 ^ 32) Method.WellFormed methods) (hbody : body.WellFormed) :
    Yields n (link methods index method body) (Bounded (2 ^ 32) Method.WellFormed) := by
  unfold link
  split
  · exact (Consumes.note _).andThen fun _ => Yields.pure hmethods
  · rename_i m hm
    split
    · exact (Consumes.note _).andThen fun _ => Yields.pure hmethods
    · have hw := hmethods.2 m (List.mem_of_getElem? hm)
      refine Yields.pure ⟨by rw [List.length_set]; exact hmethods.1, fun m' hm' => ?_⟩
      cases List.mem_or_eq_of_mem_set hm' with
      | inl hmem => exact hmethods.2 m' hmem
      | inr heq =>
        rw [heq]
        exact { hw with body := fun b hb => Option.some.inj hb ▸ hbody }

theorem yields_all (hmethods : Bounded (2 ^ 32) Method.WellFormed methods) :
    Yields n (readAll methods index count) (Bounded (2 ^ 32) Method.WellFormed) := by
  induction count generalizing methods index with
  | zero => exact Yields.pure hmethods
  | succ count ih =>
    exact Yields.bind yields fun _ hbody => (yields_link hmethods hbody).bind fun _ hlinked => ih hlinked

end Body

namespace Document

theorem yields (hn : n < 2 ^ 30) : Yields n readContent WellFormed := by
  simp only [readContent, readHeader, bind_assoc, pure_bind]
  refine Consumes.u16.andThen fun minorVersion => Consumes.u16.andThen fun majorVersion => ?_
  refine (Pool.yields hn).bind fun pool hpool => ?_
  refine Yields.bind (.counted Method.yields) fun declared hdeclared => ?_
  refine Yields.bind (.counted Metadata.yields) fun metadata hmetadata => ?_
  refine Consumes.u30.andThen fun classCount => ?_
  refine Yields.bind (.times classCount.toNat Instance.yields) fun instances hinstances => ?_
  refine Yields.bind (.times classCount.toNat Definition.yields) fun classes hclasses => ?_
  refine Yields.bind (.counted Definition.yields) fun scripts hscripts => ?_
  refine Consumes.u30.andThen fun bodyCount => ?_
  refine (Body.yields_all hdeclared).bind fun methods hmethods => Yields.pure ?_
  refine ⟨hpool, hmethods, hmetadata, ⟨?_, hinstances.2⟩, hclasses.2,
    hclasses.1.trans hinstances.1.symm, hscripts⟩
  rw [hinstances.1]
  exact classCount.toNat_lt

/-- Every document that is read is well formed. -/
theorem wellFormed_of_ofBytes (hlen : bytes.length < 2 ^ 30) (h : ofBytes bytes = .ok d) : d.WellFormed := by
  obtain ⟨content, after, hread, rfl⟩ := ofBytes_eq_ok.mp h
  obtain ⟨-, hw⟩ := yields hlen _ _ _ (Nat.le_refl _) hread
  exact ⟨hw.pool, hw.methods, hw.metadata, hw.instances, hw.classes, hw.paired, hw.scripts⟩

/-- Writing a document that was read and reading it again gives the same document, from bytes that
writing gives again, and with oddities only that writing cannot remove. -/
theorem toBytes_normalizes (hlen : bytes.length < 2 ^ 30) (h : ofBytes bytes = .ok d) :
    ∃ d', ofBytes d.toBytes = .ok d' ∧ d' = { d with anomalies := d'.anomalies } ∧
      d'.toBytes = d.toBytes ∧ ∀ anomaly ∈ d'.anomalies, anomaly.Writable := by
  -- Nothing is known of the document but that it is well formed, so it is not taken to be plain.
  obtain ⟨noted, hread, hnoted⟩ := ofBytes_toBytes_of (wellFormed_of_ofBytes hlen h) False.elim
  exact ⟨_, hread, rfl, rfl, fun anomaly hmem => (hnoted anomaly hmem).1⟩

def oddBytes : Bytes :=
  [0x10, 0x00, 0x2E, 0x00,
   0, 2, 0xFF, 0xFF, 0xFF, 0xFF, 0x7F, 0, 2, 1, 0xFF, 0, 0, 0,
   1, 0, 0, 0, 0, 0, 0, 0,
   3, 0, 1, 1, 0, 1, 1, 0x47, 0, 0, 0, 1, 1, 0, 1, 1, 0x48, 0, 0, 7, 1, 1, 0, 1, 1, 0x47, 0, 0,
   0xFF]

def oddDocument : Document where
  pool := { uintegers := [4294967295], strings := ["\uFFFD"] }
  methods :=
    [{ body := some { maxStack := 1, localCount := 1, initScopeDepth := 0, maxScopeDepth := 1
                      code := [0x47] } }]
  anomalies := [.u32HighBits 6, .multibyteString 14, .duplicateBody 0, .bodyMethodOutOfRange 2 7]

theorem toBytes_normalizes_odd :
    oddBytes.length < 2 ^ 30 ∧ ofBytes oddBytes = .ok oddDocument ∧
      ∃ d', ofBytes oddDocument.toBytes = .ok d' ∧ d' = { oddDocument with anomalies := d'.anomalies } ∧
        d'.toBytes = oddDocument.toBytes ∧ ∀ anomaly ∈ d'.anomalies, anomaly.Writable := by
  have hlen : oddBytes.length < 2 ^ 30 := by decide
  have h : ofBytes oddBytes = .ok oddDocument := by cbv
  exact ⟨hlen, h, toBytes_normalizes hlen h⟩

end Document

end ActionVm
