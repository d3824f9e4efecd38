import ActionVm.Document.Reader
import ActionVm.Proofs.Document.Restoring
import ActionVm.Proofs.Document.WellFormed

namespace ActionVm

open Read (Restores)

variable {plain : Prop}

theorem or_implied (flag : UInt8) {v : UInt8} {l : List α} (hflag : flag = ⟨.twoPow 8 k⟩)
    (h : l ≠ [] → v &&& flag ≠ 0) :
    (v ||| if l.isEmpty then 0 else flag) = v := by
  split
  · exact UInt8.or_zero
  · rename_i hl
    have hand : v.toBitVec &&& .twoPow 8 k ≠ 0 := fun hzero =>
      h (fun hnil => hl (List.isEmpty_iff.mpr hnil)) (UInt8.toBitVec_inj.mp (hflag ▸ hzero))
    have hbit : v.toBitVec.getLsbD k = true := by
      refine Bool.of_not_eq_false fun hbit => hand ?_
      rw [BitVec.and_twoPow, hbit]
      rfl
    refine UInt8.toBitVec_inj.mp (BitVec.eq_of_getLsbD_eq fun i hi => ?_)
    rw [hflag, UInt8.toBitVec_or, BitVec.getLsbD_or, BitVec.getLsbD_twoPow]
    by_cases hk : k = i
    · rw [← hk, hbit, Bool.true_or]
    · simp [hk]

namespace Namespace

theorem restores {ns : Namespace} (hp : plain → ns.Plain) : Restores plain (read index) ns.write ns := by
  refine (Restores.u8 ns.kind).bind (r := Write.u30 ns.name) ?_
  refine Restores.noting_unless (fun hkind => ⟨trivial, fun h => hkind (hp h).kind⟩) ?_
  exact (Restores.u30 fun h => (hp h).name).bind_pure rfl

theorem restores_set {set : List UInt32} (hlt : set.length < 2 ^ 32)
    (hp : plain → set ≠ [] ∧ Bounded (2 ^ 30) Small set) :
    Restores plain (readSet index) (Write.counted Write.u30 set) set := by
  refine Restores.count_bind hlt (fun h => (hp h).2.1) fun count hcount => ?_
  refine Restores.noting (fun hzero => ⟨trivial, fun h => (hp h).1 ?_⟩) ?_
  · rw [hzero] at hcount
    exact List.length_eq_zero_iff.mp hcount.symm
  · rw [hcount]
    exact Restores.times fun ns hns => Restores.u30 fun h => (hp h).2.2 ns hns

end Namespace

theorem Multiname.restores {mn : Multiname} (hany : mn ≠ .any) (hp : plain → mn.Plain) :
    Restores plain (read index) mn.write mn := by
  refine (Restores.u8 mn.kindByte).bind ?_
  cases mn with
  | any => exact absurd rfl hany
  | qname ns name isAttribute =>
    cases isAttribute <;>
      exact (Restores.u30 fun h => (hp h).1).bind ((Restores.u30 fun h => (hp h).2).bind_pure rfl)
  | rtqname name isAttribute => cases isAttribute <;> exact (Restores.u30 hp).bind_pure rfl
  | rtqnameL isAttribute => cases isAttribute <;> exact Restores.pure _
  | multiname name nsSet isAttribute =>
    cases isAttribute <;>
      exact (Restores.u30 fun h => (hp h).1).bind ((Restores.u30 fun h => (hp h).2).bind_pure rfl)
  | multinameL nsSet isAttribute => cases isAttribute <;> exact (Restores.u30 hp).bind_pure rfl

theorem Pool.restores {p : Pool} (hw : p.WellFormed) (hp : plain → p.Plain) :
    Restores plain read p.write p := by
  simp only [write, List.append_assoc]
  refine (Restores.table hw.integers (fun h => (hp h).integers) fun v _ _ => Restores.s32 v).bind ?_
  refine (Restores.table hw.uintegers (fun h => (hp h).uintegers) fun v _ _ => Restores.u32 v).bind ?_
  refine (Restores.table hw.doubles (fun h => (hp h).doubles) fun d _ _ => Restores.d64 d).bind ?_
  refine (Restores.table hw.strings.1 (fun h => (hp h).strings.1) fun s hs _ =>
    Restores.text (hw.strings.2 s hs) fun h => (hp h).strings.2 s hs).bind ?_
  refine (Restores.table hw.namespaces (fun h => (hp h).namespaces.1) fun ns hns _ =>
    Namespace.restores fun h => (hp h).namespaces.2 ns hns).bind ?_
  refine (Restores.table hw.nsSets.1 (fun h => (hp h).nsSets.1) fun set hset _ =>
    Namespace.restores_set (hw.nsSets.2 set hset) fun h => (hp h).nsSets.2 set hset).bind ?_
  exact (Restores.table hw.multinames.1 (fun h => (hp h).multinames.1) fun mn hmn _ =>
    Multiname.restores (hw.multinames.2 mn hmn) fun h => (hp h).multinames.2 mn hmn).bind_pure rfl

theorem OptionValue.restores {o : OptionValue} (hp : plain → o.Plain) : Restores plain read o.write o := by
  refine (Restores.u30 fun h => (hp h).value).bind ((Restores.u8 o.kind).bind_last ?_)
  exact Restores.noting_unless (fun hkind => ⟨trivial, fun h => hkind (hp h).kind⟩) (Restores.pure o)

theorem Metadata.restores {m : Metadata} (hw : m.WellFormed) (hp : plain → m.Plain) :
    Restores plain read m.write m := by
  refine (Restores.u30 fun h => (hp h).name).bind (Restores.bind_pure ?_ rfl)
  refine Restores.counted hw (fun h => (hp h).items.1) fun item hitem => ?_
  refine (Restores.u30 fun h => ((hp h).items.2 item hitem).1).bind ?_
  exact (Restores.u30 fun h => ((hp h).items.2 item hitem).2).bind_pure rfl

theorem SlotTrait.restores {s : SlotTrait} (hw : s.WellFormed) (hp : plain → s.Plain) :
    Restores plain read s.write s := by
  simp only [write, List.append_assoc]
  refine (Restores.u30 fun h => (hp h).slotId).bind ((Restores.u30 fun h => (hp h).typeName).bind ?_)
  refine (Restores.u30 fun h => (hp h).vindex).bind ?_
  exact Restores.optional_last (fun _ => Restores.u8 s.vkind) (fun h => hw (Decidable.not_not.mp h)) rfl

theorem MethodTrait.restores {m : MethodTrait} (hp : plain → m.Plain) : Restores plain read m.write m :=
  (Restores.u30 fun h => (hp h).dispId).bind ((Restores.u30 fun h => (hp h).method).bind_pure rfl)

theorem TraitKind.restores {kind : TraitKind} (hw : kind.WellFormed) (hp : plain → kind.Plain) :
    Restores plain (read offset kind.tag) kind.write kind := by
  cases kind with
  | slot s => exact (SlotTrait.restores hw hp).bind_pure rfl
  | method m => exact (MethodTrait.restores hp).bind_pure rfl
  | getter m => exact (MethodTrait.restores hp).bind_pure rfl
  | setter m => exact (MethodTrait.restores hp).bind_pure rfl
  | classDef slotId cls =>
    exact (Restores.u30 fun h => (hp h).1).bind ((Restores.u30 fun h => (hp h).2).bind_pure rfl)
  | function slotId m =>
    exact (Restores.u30 fun h => (hp h).1).bind ((Restores.u30 fun h => (hp h).2).bind_pure rfl)
  | constant s => exact (SlotTrait.restores hw hp).bind_pure rfl

namespace Trait

theorem writtenAttributes_eq {t : Trait} (hw : t.WellFormed) : t.writtenAttributes = t.attributes :=
  or_implied hasMetadata (k := 2) rfl hw.flagged

theorem kindByte_split {tag attributes : UInt8} (htag : tag < 16) (hattributes : attributes < 16) :
    (tag ||| (attributes <<< 4)) / 16 = attributes ∧ (tag ||| (attributes <<< 4)) % 16 = tag := by
  have hall : ∀ i < 16, ∀ j < 16,
      (UInt8.ofNat i ||| (UInt8.ofNat j <<< 4)) / 16 = UInt8.ofNat j ∧
        (UInt8.ofNat i ||| (UInt8.ofNat j <<< 4)) % 16 = UInt8.ofNat i := by decide
  have h := hall tag.toNat (UInt8.lt_iff_toNat_lt.mp htag) attributes.toNat
    (UInt8.lt_iff_toNat_lt.mp hattributes)
  rwa [UInt8.ofNat_toNat, UInt8.ofNat_toNat] at h

theorem tag_lt (kind : TraitKind) : kind.tag < 16 := by
  cases kind <;> rw [TraitKind.tag] <;> decide

theorem restores {t : Trait} (hw : t.WellFormed) (hp : plain → t.Plain) : Restores plain read t.write t := by
  obtain ⟨hattributes, htag⟩ := kindByte_split (tag_lt t.kind) hw.attributes
  simp only [write, List.append_assoc, writtenAttributes_eq hw]
  refine (Restores.u30 fun h => (hp h).name).bind (Restores.position_bind fun offset => ?_)
  refine (Restores.u8 _).bind ?_
  rw [hattributes, htag]
  refine (TraitKind.restores hw.kind fun h => (hp h).kind).bind ?_
  refine Restores.optional_last (fun _ => ?_) (fun h => ?_) rfl
  · exact Restores.counted hw.count (fun h => (hp h).metadata.1) fun v hv =>
      Restores.u30 fun h => (hp h).metadata.2 v hv
  · exact Decidable.not_not.mp fun hne => h (hw.flagged hne)

theorem restores_list {traits : List Trait} (hw : Bounded (2 ^ 32) WellFormed traits)
    (hp : plain → Bounded (2 ^ 30) Plain traits) : Restores plain readList (writeList traits) traits :=
  Restores.counted hw.1 (fun h => (hp h).1) fun t ht => restores (hw.2 t ht) fun h => (hp h).2 t ht

end Trait

namespace Instance

theorem elim_protectedNs {i : Instance} (hw : i.WellFormed) :
    i.protectedNs.elim [] Write.u30 =
      if i.flags &&& hasProtectedNs ≠ 0 then Write.u30 (i.protectedNs.getD 0) else [] := by
  split
  · rename_i hflag
    obtain ⟨ns, hns⟩ := Option.isSome_iff_exists.mp (hw.protectedNs.mpr hflag)
    rw [hns]
    rfl
  · rename_i hflag
    rw [Option.not_isSome_iff_eq_none.mp fun h => hflag (hw.protectedNs.mp h)]
    rfl

theorem restores {i : Instance} (hw : i.WellFormed) (hp : plain → i.Plain) :
    Restores plain read i.write i := by
  simp only [write, List.append_assoc, elim_protectedNs hw]
  refine (Restores.u30 fun h => (hp h).name).bind ((Restores.u30 fun h => (hp h).superName).bind ?_)
  refine (Restores.u8 i.flags).bind ?_
  refine Restores.optional_bind (a := i.protectedNs) (fun hflag => ?_) (fun hflag => ?_) ?_
  · obtain ⟨ns, hns⟩ := Option.isSome_iff_exists.mp (hw.protectedNs.mpr hflag)
    rw [hns]
    exact (Restores.u30 fun h => (hp h).protectedNs ns (Option.mem_toList.mpr hns)).map some
  · exact Option.not_isSome_iff_eq_none.mp fun h => hflag (hw.protectedNs.mp h)
  · refine (Restores.counted hw.interfaces (fun h => (hp h).interfaces.1) fun v hv =>
      Restores.u30 fun h => (hp h).interfaces.2 v hv).bind ?_
    refine (Restores.u30 fun h => (hp h).init).bind ?_
    exact (Trait.restores_list hw.traits fun h => (hp h).traits).bind_pure rfl

end Instance

theorem Definition.restores {c : Definition} (hw : c.WellFormed) (hp : plain → c.Plain) :
    Restores plain read c.write c :=
  (Restores.u30 fun h => (hp h).init).bind ((Trait.restores_list hw fun h => (hp h).traits).bind_pure rfl)

theorem ExceptionRange.restores {e : ExceptionRange} (hp : plain → e.Plain) :
    Restores plain read e.write e := by
  simp only [write, List.append_assoc]
  refine (Restores.u30 fun h => (hp h).start).bind ((Restores.u30 fun h => (hp h).stop).bind ?_)
  refine (Restores.u30 fun h => (hp h).target).bind ((Restores.u30 fun h => (hp h).excType).bind ?_)
  exact (Restores.u30 fun h => (hp h).varName).bind_pure rfl

theorem Body.restores {body : Body} (hw : body.WellFormed) (hp : plain → Small method ∧ body.Plain) :
    Restores plain read (body.write method) (method, body) := by
  simp only [write, List.append_assoc]
  refine (Restores.u30 fun h => (hp h).1).bind ((Restores.u30 fun h => (hp h).2.maxStack).bind ?_)
  refine (Restores.u30 fun h => (hp h).2.localCount).bind ?_
  refine (Restores.u30 fun h => (hp h).2.initScopeDepth).bind ?_
  refine (Restores.u30 fun h => (hp h).2.maxScopeDepth).bind ?_
  refine Restores.count_bind hw.code (fun h => (hp h).2.code) fun count hcount => ?_
  rw [hcount]
  refine (Restores.bytes body.code).bind ?_
  refine (Restores.counted hw.exceptions (fun h => (hp h).2.exceptions.1) fun e he =>
    ExceptionRange.restores fun h => (hp h).2.exceptions.2 e he).bind ?_
  exact (Trait.restores_list hw.traits fun h => (hp h).2.traits).bind_pure rfl

namespace Method

def withoutBody (m : Method) : Method :=
  { m with body := none }

theorem writtenFlags_eq {m : Method} (hw : m.WellFormed) : m.writtenFlags = m.flags := by
  rw [writtenFlags, or_implied hasOptional (k := 3) rfl hw.optional,
    or_implied hasParamNames (k := 7) rfl hw.named]

theorem writtenNames_eq {m : Method} (h : m.paramNames.length = m.paramTypes.length) :
    m.writtenNames = m.paramNames := by
  refine List.ext_getElem ?_ fun i hi hi' => ?_
  · rw [writtenNames, List.length_map, List.length_range, h]
  · simp [writtenNames, hi']

theorem restores {m : Method} (hw : m.WellFormed) (hp : plain → m.Plain) :
    Restores plain read m.write m.withoutBody := by
  simp only [write, List.append_assoc, writtenFlags_eq hw]
  refine Restores.count_bind hw.paramTypes (fun h => (hp h).paramTypes.1) fun count hcount => ?_
  rw [hcount]
  refine (Restores.u30 fun h => (hp h).returnType).bind ?_
  refine (Restores.times fun v hv => Restores.u30 fun h => (hp h).paramTypes.2 v hv).bind ?_
  refine (Restores.u30 fun h => (hp h).name).bind ((Restores.u8 m.flags).bind ?_)
  refine Restores.optional_bind (a := m.options) (fun _ => ?_) (fun hflag => ?_) ?_
  · exact Restores.counted hw.options (fun h => (hp h).options.1) fun o ho =>
      OptionValue.restores fun h => (hp h).options.2 o ho
  · exact Decidable.not_not.mp fun hne => hflag (hw.optional hne)
  · refine Restores.optional_last (a := m.paramNames) (fun hflag => ?_) (fun hflag => ?_) rfl
    · rw [writtenNames_eq (hw.paramNames hflag), ← hw.paramNames hflag]
      exact Restores.times fun v hv => Restores.u30 fun h => (hp h).paramNames v hv
    · exact Decidable.not_not.mp fun hne => hflag (hw.named hne)

end Method

namespace Method

/-- The bodies of methods that are numbered from `start` on, as `Document.bodies` lists them. -/
def bodiesFrom (start : Nat) (methods : List Method) : List (UInt32 × Body) :=
  (methods.zipIdx start).filterMap fun (m, i) => m.body.map (UInt32.ofNat i, ·)

theorem bodiesFrom_cons_none {m : Method} (h : m.body = none) :
    bodiesFrom start (m :: methods) = bodiesFrom (start + 1) methods := by
  simp only [bodiesFrom, List.zipIdx_cons, List.filterMap_cons, h, Option.map_none]

theorem bodiesFrom_cons_some {m : Method} {body : Body} (h : m.body = some body) :
    bodiesFrom start (m :: methods) = (UInt32.ofNat start, body) :: bodiesFrom (start + 1) methods := by
  simp only [bodiesFrom, List.zipIdx_cons, List.filterMap_cons, h, Option.map_some]

theorem length_bodiesFrom_le (start : Nat) (methods : List Method) :
    (bodiesFrom start methods).length ≤ methods.length :=
  Nat.le_trans (List.length_filterMap_le ..) (Nat.le_of_eq List.length_zipIdx)

end Method

namespace Body

theorem link_next {m : Method} {before after : List Method} {body : Body} (hbody : m.body = some body)
    (hindex : (UInt32.ofNat before.length).toNat = before.length) :
    link (before ++ (m :: after).map Method.withoutBody) index (UInt32.ofNat before.length) body =
      pure (before ++ [m] ++ after.map Method.withoutBody) := by
  have hget : (before ++ (m :: after).map Method.withoutBody)[before.length]? = some m.withoutBody := by
    rw [List.map_cons, List.getElem?_append_right (Nat.le_refl _), Nat.sub_self]
    rfl
  have hm : { m.withoutBody with body := some body } = m := by rw [Method.withoutBody, ← hbody]
  rw [link, hindex, hget]
  refine (if_neg Bool.false_ne_true).trans (congrArg pure ?_)
  rw [hm, List.map_cons, List.set_append_right _ _ (Nat.le_refl _), Nat.sub_self, List.set_cons_zero,
    List.append_cons]

/-- The methods before have their bodies, those after get theirs one by one. -/
theorem restores_all (index : Nat) (before : List Method) {after : List Method}
    (hlt : before.length + after.length < 2 ^ 32) (hw : ∀ m ∈ after, m.WellFormed)
    (hp : plain → before.length + after.length < 2 ^ 30 ∧ ∀ m ∈ after, m.Plain) :
    Restores plain
      (readAll (before ++ after.map Method.withoutBody) index
        (Method.bodiesFrom before.length after).length)
      ((Method.bodiesFrom before.length after).flatMap fun (method, body) => body.write method)
      (before ++ after) := by
  induction after generalizing index before with
  | nil => exact Restores.pure _
  | cons m after ih =>
    have hnext : before.length + 1 = (before ++ [m]).length := by
      rw [List.length_append, List.length_singleton]
    have hall : before.length + (m :: after).length = (before ++ [m]).length + after.length := by
      rw [← hnext, List.length_cons]
      omega
    have hrest (index : Nat) := ih index (before ++ [m]) (hall ▸ hlt)
      (fun m hm => hw m (List.mem_cons_of_mem _ hm))
      (fun h => ⟨hall ▸ (hp h).1, fun m hm => (hp h).2 m (List.mem_cons_of_mem _ hm)⟩)
    rw [List.append_cons before m after]
    cases hbody : m.body with
    | none =>
      -- Such a method has no record: it is whole as it was declared.
      have hm : m.withoutBody = m := by rw [Method.withoutBody, ← hbody]
      rw [Method.bodiesFrom_cons_none hbody, List.map_cons, hm, List.append_cons before m, hnext]
      exact hrest index
    | some body =>
      have hindex : (UInt32.ofNat before.length).toNat = before.length :=
        UInt32.toNat_ofNat_of_lt' (Nat.lt_of_le_of_lt (Nat.le_add_right ..) hlt)
      rw [Method.bodiesFrom_cons_some hbody, List.flatMap_cons]
      refine (Body.restores ((hw m List.mem_cons_self).body body hbody) fun h => ?_).bind ?_
      · have hsmall : before.length < 2 ^ 30 := Nat.lt_of_le_of_lt (Nat.le_add_right ..) (hp h).1
        exact ⟨by rwa [Small, hindex], ((hp h).2 m List.mem_cons_self).body body hbody⟩
      · dsimp only
        rw [link_next hbody hindex, pure_bind, hnext]
        exact hrest (index + 1)

end Body

namespace Document

theorem ofBytes_eq_ok {bytes : Bytes} {d : Document} :
    ofBytes bytes = .ok d ↔
      ∃ content after, readContent { rest := bytes } = .ok content after ∧
        d = { content with anomalies := after.anomalies } := by
  unfold ofBytes read
  cases h : readContent { rest := bytes } with
  | ok content after =>
    rw [bind_of_ok h]
    constructor
    · intro hd
      exact ⟨content, after, rfl, (Except.ok.inj hd).symm⟩
    · rintro ⟨_, _, hok, rfl⟩
      cases hok
      rfl
  | error e after =>
    rw [bind_of_error h]
    exact ⟨nofun, nofun⟩

theorem restores_content {d : Document} (hw : d.WellFormed) (hp : plain → d.Plain) :
    Restores plain readContent d.toBytes { d with anomalies := [] } := by
  have hbodies := Method.length_bodiesFrom_le 0 d.methods
  simp only [readContent, readHeader, bind_assoc, pure_bind, toBytes, List.append_assoc]
  refine (Restores.u16 d.minorVersion).bind ((Restores.u16 d.majorVersion).bind ?_)
  refine (Pool.restores hw.pool fun h => (hp h).pool).bind ?_
  refine (Restores.counted_map hw.methods.1 (fun h => (hp h).methods.1) fun m hm =>
    Method.restores (hw.methods.2 m hm) fun h => (hp h).methods.2 m hm).bind ?_
  refine (Restores.counted hw.metadata.1 (fun h => (hp h).metadata.1) fun m hm =>
    Metadata.restores (hw.metadata.2 m hm) fun h => (hp h).metadata.2 m hm).bind ?_
  rw [Write.counted, List.append_assoc]
  refine Restores.count_bind hw.instances.1 (fun h => (hp h).instances.1) fun count hcount => ?_
  rw [hcount]
  refine (Restores.times fun i hi =>
    Instance.restores (hw.instances.2 i hi) fun h => (hp h).instances.2 i hi).bind ?_
  -- The count of the instances stands for the classes too.
  rw [← hw.paired]
  refine (Restores.times fun c hc =>
    Definition.restores (hw.classes c hc) fun h => (hp h).classes c hc).bind ?_
  refine (Restores.counted hw.scripts.1 (fun h => (hp h).scripts.1) fun c hc =>
    Definition.restores (hw.scripts.2 c hc) fun h => (hp h).scripts.2 c hc).bind ?_
  refine Restores.count_bind (Nat.lt_of_le_of_lt hbodies hw.methods.1)
    (fun h => Nat.lt_of_le_of_lt hbodies (hp h).methods.1) fun count hcount => ?_
  rw [hcount]
  refine Restores.bind_pure (Body.restores_all 0 [] ?_ hw.methods.2 fun h => ?_) rfl
  · rw [List.length_nil, Nat.zero_add]
    exact hw.methods.1
  · rw [List.length_nil, Nat.zero_add]
    exact (hp h).methods

/-- A well-formed document is restored from its bytes, with the oddities that these can show. -/
theorem ofBytes_toBytes_of {d : Document} (hw : d.WellFormed) (hp : plain → d.Plain) :
    ∃ noted, ofBytes d.toBytes = .ok { d with anomalies := noted } ∧
      ∀ anomaly ∈ noted, anomaly.Writable ∧ ¬plain := by
  obtain ⟨noted, h, hnoted⟩ := restores_content hw hp [] 0 []
  rw [List.append_nil] at h
  exact ⟨noted, ofBytes_eq_ok.mpr ⟨_, _, h, rfl⟩, hnoted⟩

/-- Reading undoes writing, and finds nothing odd in the bytes of a plain document. -/
theorem ofBytes_toBytes {d : Document} (hw : d.WellFormed) :
    ∃ noted, ofBytes d.toBytes = .ok { d with anomalies := noted } ∧ (d.Plain → noted = []) := by
  obtain ⟨noted, h, hnoted⟩ := ofBytes_toBytes_of hw (id : d.Plain → d.Plain)
  refine ⟨noted, h, fun hplain => List.eq_nil_iff_forall_not_mem.mpr fun anomaly hmem => ?_⟩
  exact (hnoted anomaly hmem).2 hplain

def sample : Document where
  pool :=
    { integers := [-65]
      uintegers := [4294967295]
      doubles := [⟨0x7FF8000000000000⟩]
      strings := ["", "id"]
      namespaces := [⟨0x16, 1⟩]
      nsSets := [[1]]
      multinames := [.qname 1 2 false, .multinameL 1 true] }
  methods :=
    [{ paramTypes := [1], flags := 0x88, options := [⟨1, 0x03⟩], paramNames := [2],
       body := some { maxStack := 1, localCount := 2, initScopeDepth := 0, maxScopeDepth := 1
                      code := [0x47], exceptions := [⟨0, 1, 1, 0, 1⟩] } },
     {}]
  metadata := [⟨2, [(0, 2)]⟩]
  instances :=
    [{ name := 1, superName := 0, flags := 0x08, protectedNs := some 1, interfaces := [1], init := 1 }]
  classes :=
    [{ init := 1
       traits := [{ name := 1, kind := .method { method := 0 }, attributes := 4, metadata := [0] }] }]
  scripts :=
    [{ init := 1, traits := [{ name := 1, kind := .slot { slotId := 1, vindex := 1, vkind := 0x03 } }] }]

theorem ofBytes_toBytes_sample :
    sample.WellFormed ∧ sample.Plain ∧ ofBytes sample.toBytes = .ok sample := by
  have hw : sample.WellFormed := by decide +kernel
  have hp : sample.Plain := by decide +kernel
  obtain ⟨noted, h, hnoted⟩ := ofBytes_toBytes hw
  rw [h, hnoted hp]
  exact ⟨hw, hp, rfl⟩

end Document

end ActionVm
