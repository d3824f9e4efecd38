import ActionVm.Proofs.Document.Normal
import Mathlib.Data.List.Basic

namespace ActionVm

namespace Read

/-- The reader adds to the anomalies what its own bytes show, and does not look at those before. -/
def Logs (x : Read α) : Prop :=
  ∀ input a after, x input = .ok a after → ∃ noted, (∀ anomaly ∈ noted, anomaly.isLink = false) ∧
    ∀ earlier, x { input with anomalies := earlier } = .ok a { after with anomalies := earlier ++ noted }

namespace Logs

theorem anomalies {x : Read α} {input after : Input} (hx : Logs x) (h : x input = .ok a after) :
    after.anomalies.filter Anomaly.isLink = input.anomalies.filter Anomaly.isLink := by
  obtain ⟨noted, hnoted, hok⟩ := hx input a after h
  have hsame := h.symm.trans (hok input.anomalies)
  rw [EStateM.Result.ok.injEq] at hsame
  have hnone : noted.filter Anomaly.isLink = [] := by
    apply List.filter_eq_nil_iff.mpr
    intro anomaly hmem
    simp [hnoted anomaly hmem]
  rw [hsame.2, List.filter_append, hnone, List.append_nil]

theorem relog {x : Read α} {input after : Input} (hx : Logs x) (h : x input = .ok a after)
    (earlier : List Anomaly) : ∃ noted, x { input with anomalies := earlier } =
      .ok a { after with anomalies := earlier ++ noted } := by
  obtain ⟨noted, -, hok⟩ := hx input a after h
  exact ⟨noted, hok earlier⟩

theorem pure (a : α) : Logs (Pure.pure a) := by
  intro input b after h
  obtain ⟨rfl, rfl⟩ := pure_eq_ok.mp h
  refine ⟨[], List.forall_mem_nil _, ?_⟩
  intro earlier
  rw [List.append_nil]
  rfl

theorem bind {x : Read α} {f : α → Read β} (hx : Logs x) (hf : ∀ a, Logs (f a)) : Logs (x >>= f) := by
  intro input b after h
  obtain ⟨a, middle, hxa, hfb⟩ := bind_eq_ok.mp h
  obtain ⟨noted, hnoted, hfirst⟩ := hx input a middle hxa
  obtain ⟨more, hmore, hsecond⟩ := hf a middle b after hfb
  refine ⟨noted ++ more, List.forall_mem_append.mpr ⟨hnoted, hmore⟩, ?_⟩
  intro earlier
  rw [bind_of_ok (hfirst earlier), ← List.append_assoc]
  exact hsecond (earlier ++ noted)

theorem bytes (count : Nat) : Logs (Read.bytes count) := by
  intro input taken after h
  obtain ⟨hrest, hlength, hafter⟩ := bytes_eq_ok.mp h
  refine ⟨[], List.forall_mem_nil _, ?_⟩
  intro earlier
  rw [List.append_nil, hafter]
  exact bytes_eq_ok.mpr ⟨hrest, hlength, rfl⟩

theorem note (anomaly : Anomaly) (h : anomaly.isLink = false) : Logs (Read.note anomaly) := by
  intro input a after hok
  cases hok
  exact ⟨[anomaly], List.forall_mem_singleton.mpr h, fun earlier => rfl⟩

theorem position : Logs Read.position := by
  intro input a after hok
  cases hok
  refine ⟨[], List.forall_mem_nil _, ?_⟩
  intro earlier
  rw [List.append_nil]
  rfl

theorem law : Law fun _ x => Logs x where
  pure := pure
  bind := bind
  throw e := by
    intro input a after h
    cases h
  position := position
  bytes := bytes
  note := note

end Logs

end Read

open Read (Logs)

namespace Body

/-- What records give to the method with a number: the body of the first one that names it. -/
def firstOf (records : List (UInt32 × Body)) (number : Nat) : Option Body :=
  (records.find? (·.1.toNat = number)).map (·.2)

/-- What is to be noted about a record behind others. -/
def linkNote? (methodCount : Nat) (earlier : List (UInt32 × Body)) (method : UInt32) : Option Anomaly :=
  if methodCount ≤ method.toNat then some (.bodyMethodOutOfRange earlier.length method)
  else if (firstOf earlier method.toNat).isSome then some (.duplicateBody method)
  else none

def linkNotes (methodCount : Nat) (records : List (UInt32 × Body)) : List Anomaly :=
  records.zipIdx.filterMap fun (record, i) => linkNote? methodCount (records.take i) record.1

theorem firstOf_append (records : List (UInt32 × Body)) (method : UInt32) (body : Body) (number : Nat) :
    firstOf (records ++ [(method, body)]) number =
      (firstOf records number).or (if method.toNat = number then some body else none) := by
  unfold firstOf
  rw [List.find?_append, Option.map_or]
  by_cases h : method.toNat = number <;> simp [h]

theorem isSome_firstOf (records : List (UInt32 × Body)) (method : UInt32) :
    (firstOf records method.toNat).isSome = true ↔ 0 < records.countP (·.1 = method) := by
  simp [firstOf, List.countP_pos_iff, UInt32.toNat_inj]

section Notes

variable {methodCount : Nat} {earlier : List (UInt32 × Body)} {named method : UInt32}

theorem linkNote?_eq_duplicateBody :
    linkNote? methodCount earlier named = some (.duplicateBody method) ↔
      named = method ∧ method.toNat < methodCount ∧ 0 < earlier.countP (·.1 = method) := by
  unfold linkNote?
  split
  · rename_i hpast
    constructor
    · intro h
      cases h
    · rintro ⟨rfl, hlt, -⟩
      exact absurd hlt (Nat.not_lt_of_le hpast)
  · rename_i hlt
    constructor
    · intro h
      split at h
      · rename_i hsome
        cases h
        exact ⟨rfl, Nat.lt_of_not_le hlt, (isSome_firstOf earlier named).mp hsome⟩
      · cases h
    · rintro ⟨rfl, -, hpos⟩
      rw [if_pos ((isSome_firstOf earlier named).mpr hpos)]

theorem linkNote?_eq_bodyMethodOutOfRange :
    linkNote? methodCount earlier named = some (.bodyMethodOutOfRange i method) ↔
      earlier.length = i ∧ named = method ∧ methodCount ≤ method.toNat := by
  unfold linkNote?
  split
  · rename_i hpast
    constructor
    · intro h
      cases h
      exact ⟨rfl, rfl, hpast⟩
    · rintro ⟨rfl, rfl, -⟩
      rfl
  · rename_i hlt
    constructor
    · intro h
      split at h <;> cases h
    · rintro ⟨-, rfl, hpast⟩
      exact absurd hpast hlt

theorem linkNote?_eq_none :
    linkNote? methodCount earlier named = none ↔
      named.toNat < methodCount ∧ firstOf earlier named.toNat = none := by
  unfold linkNote?
  by_cases hlt : named.toNat < methodCount
  · cases firstOf earlier named.toNat <;> simp [hlt, Nat.not_le_of_lt hlt]
  · simp [hlt, Nat.le_of_not_lt hlt]

theorem isLink_of_linkNote? (h : linkNote? methodCount earlier named = some anomaly) : anomaly.isLink = true := by
  unfold linkNote? at h
  split at h
  · cases h
    rfl
  · split at h <;> cases h
    rfl

end Notes

theorem linkNotes_append (methodCount : Nat) (records : List (UInt32 × Body)) (method : UInt32) (body : Body) :
    linkNotes methodCount (records ++ [(method, body)]) =
      linkNotes methodCount records ++ (linkNote? methodCount records method).toList := by
  have hbefore : ∀ c ∈ records.zipIdx,
      linkNote? methodCount ((records ++ [(method, body)]).take c.2) c.1.1 =
        linkNote? methodCount (records.take c.2) c.1.1 := by
    intro c hc
    have hlt : c.2 < records.length := List.snd_lt_of_mem_zipIdx hc
    rw [List.take_append_of_le_length (Nat.le_of_lt hlt)]
  unfold linkNotes
  rw [List.zipIdx_append, List.filterMap_append, List.filterMap_congr hbefore]
  congr 1
  simp only [List.zipIdx_singleton, Nat.zero_add, List.filterMap_cons, List.filterMap_nil, List.take_left]
  cases linkNote? methodCount records method <;> rfl

theorem count_toList [DecidableEq α] (o : Option α) (a : α) : o.toList.count a = if o = some a then 1 else 0 := by
  cases o with
  | none => rfl
  | some b => simp [List.count_singleton]

theorem count_duplicateBody (methodCount : Nat) (records : List (UInt32 × Body)) (method : UInt32) :
    (linkNotes methodCount records).count (.duplicateBody method) =
      if method.toNat < methodCount then records.countP (·.1 = method) - 1 else 0 := by
  induction records using List.reverseRecOn with
  | nil => simp [linkNotes]
  | append_singleton records record ih =>
    obtain ⟨named, body⟩ := record
    rw [linkNotes_append, List.count_append, ih, count_toList, List.countP_append, List.countP_singleton]
    simp only [linkNote?_eq_duplicateBody, decide_eq_true_eq]
    by_cases hlt : method.toNat < methodCount
    · by_cases hnamed : named = method
      · simp only [hlt, hnamed, if_true, true_and]
        split <;> omega
      · simp [hlt, hnamed]
    · simp [hlt]

theorem count_bodyMethodOutOfRange (methodCount : Nat) (records : List (UInt32 × Body)) (i : Nat)
    (method : UInt32) :
    (linkNotes methodCount records).count (.bodyMethodOutOfRange i method) =
      if methodCount ≤ method.toNat ∧ records[i]?.map (·.1) = some method then 1 else 0 := by
  induction records using List.reverseRecOn with
  | nil => simp [linkNotes]
  | append_singleton records record ih =>
    obtain ⟨named, body⟩ := record
    rw [linkNotes_append, List.count_append, ih, count_toList]
    simp only [linkNote?_eq_bodyMethodOutOfRange]
    rcases Nat.lt_trichotomy i records.length with hlt | rfl | hgt
    · rw [List.getElem?_append_left hlt]
      simp [Nat.ne_of_gt hlt]
    · simp [and_comm]
    · have hpast : (records ++ [(named, body)])[i]? = none := by
        apply List.getElem?_eq_none
        simpa using hgt
      simp [hpast, List.getElem?_eq_none (Nat.le_of_lt hgt), Nat.ne_of_lt hgt]

end Body

namespace Method

/-- Declared methods with the bodies that records give them. -/
def withBodies (declared : List Method) (records : List (UInt32 × Body)) : List Method :=
  declared.mapIdx fun number m => { m with body := Body.firstOf records number }

variable {declared : List Method} {records : List (UInt32 × Body)}

@[simp] theorem length_withBodies : (withBodies declared records).length = declared.length :=
  List.length_mapIdx

theorem getElem?_withBodies (number : Nat) :
    (withBodies declared records)[number]? =
      declared[number]?.map fun m => { m with body := Body.firstOf records number } :=
  List.getElem?_mapIdx

theorem withBodies_nil (h : ∀ m ∈ declared, m.body = none) : withBodies declared [] = declared := by
  apply List.ext_getElem?
  intro number
  rw [getElem?_withBodies]
  cases hm : declared[number]? with
  | none => rfl
  | some m =>
    have hbody : Body.firstOf [] number = m.body := (h m (List.mem_of_getElem? hm)).symm
    rw [Option.map_some, hbody]

theorem withBodies_of_noted {method : UInt32} (h : Body.linkNote? declared.length records method ≠ none)
    (body : Body) : withBodies declared (records ++ [(method, body)]) = withBodies declared records := by
  apply List.mapIdx_eq_mapIdx_iff.mpr
  intro number hnumber
  rw [Body.firstOf_append]
  cases hfirst : Body.firstOf records number with
  | some b => rfl
  | none =>
    have hne : method.toNat ≠ number := by
      rintro rfl
      exact h (Body.linkNote?_eq_none.mpr ⟨hnumber, hfirst⟩)
    rw [if_neg hne]
    rfl

theorem withBodies_of_free {method : UInt32} (h : Body.linkNote? declared.length records method = none)
    (body : Body) : ∃ m, (withBodies declared records)[method.toNat]? = some m ∧ m.body = none ∧
      withBodies declared (records ++ [(method, body)]) =
        (withBodies declared records).set method.toNat { m with body := some body } := by
  obtain ⟨hlt, hnone⟩ := Body.linkNote?_eq_none.mp h
  have hm : (withBodies declared records)[method.toNat]? =
      some { declared[method.toNat] with body := none } := by
    rw [getElem?_withBodies, List.getElem?_eq_getElem hlt, hnone]
    rfl
  refine ⟨_, hm, rfl, ?_⟩
  apply List.ext_getElem?
  intro number
  rw [getElem?_withBodies, Body.firstOf_append, List.getElem?_set]
  by_cases hnumber : method.toNat = number
  · subst hnumber
    simp [hlt, hnone]
  · simp [hnumber, getElem?_withBodies]

end Method

namespace Body

open Method (withBodies)

variable {declared : List Method} {records : List (UInt32 × Body)} {input after : Input}

theorem link_withBodies (method : UInt32) (body : Body) :
    link (withBodies declared records) records.length method body input =
      .ok (withBodies declared (records ++ [(method, body)])) { input with
        anomalies := input.anomalies ++ (linkNote? declared.length records method).toList } := by
  unfold link
  cases hnote : linkNote? declared.length records method with
  | none =>
    obtain ⟨m, hm, hbody, hset⟩ := Method.withBodies_of_free hnote body
    rw [hm, hset]
    simp [hbody, pure_apply]
  | some anomaly =>
    rw [Method.withBodies_of_noted (by simp [hnote])]
    unfold linkNote? at hnote
    rw [Method.getElem?_withBodies]
    split at hnote
    · rename_i hpast
      cases hnote
      rw [List.getElem?_eq_none hpast]
      rfl
    · rename_i hlt
      split at hnote
      · rename_i hsome
        cases hnote
        rw [List.getElem?_eq_getElem (Nat.lt_of_not_le hlt)]
        simp only [Option.map_some, hsome, if_true]
        rfl
      · cases hnote

/-- All records: what was linked and noted so far tells which records were read. -/
theorem readAll_withBodies {methods : List Method}
    (h : readAll (withBodies declared records) records.length count input = .ok methods after)
    (hnotes : input.anomalies.filter Anomaly.isLink = linkNotes declared.length records) :
    ∃ more stop, Read.times count read input = .ok more stop ∧
      methods = withBodies declared (records ++ more) ∧
      after.anomalies.filter Anomaly.isLink = linkNotes declared.length (records ++ more) := by
  induction count generalizing records input with
  | zero =>
    obtain ⟨rfl, rfl⟩ := pure_eq_ok.mp h
    refine ⟨[], input, rfl, ?_, ?_⟩
    · rw [List.append_nil]
    · rw [List.append_nil, hnotes]
  | succ count ih =>
    obtain ⟨⟨method, body⟩, middle, hread, h⟩ := bind_eq_ok.mp h
    have hlogs := (Logs.anomalies (obeys Logs.law) hread).trans hnotes
    obtain ⟨_, linked, hlink, h⟩ := bind_eq_ok.mp h
    cases (link_withBodies method body).symm.trans hlink
    have hlength : records.length + 1 = (records ++ [(method, body)]).length := by simp
    rw [hlength] at h
    obtain ⟨more, stop, hmore, hmethods, hafter⟩ := ih h (by
      rw [linkNotes_append, List.filter_append, hlogs]
      congr 1
      cases hnote : linkNote? declared.length records method with
      | none => rfl
      | some anomaly => simp [isLink_of_linkNote? hnote])
    rw [List.append_assoc, List.singleton_append] at hmethods hafter
    -- the other records are read alike without what was noted about this one
    obtain ⟨noted, hagain⟩ := Logs.relog (Logs.law.times (obeys Logs.law) count) hmore middle.anomalies
    refine ⟨(method, body) :: more, { stop with anomalies := middle.anomalies ++ noted }, ?_, hmethods, hafter⟩
    rw [Read.times, bind_of_ok hread, bind_of_ok hagain]
    rfl

theorem length_eq_linked_add_noted (declared : List Method) (records : List (UInt32 × Body)) :
    records.length = (withBodies declared records).countP (·.body.isSome) +
      (linkNotes declared.length records).countP Anomaly.isDuplicateBody +
      (linkNotes declared.length records).countP Anomaly.isBodyMethodOutOfRange := by
  induction records using List.reverseRecOn with
  | nil =>
    have hnone : (withBodies declared []).countP (·.body.isSome) = 0 := by
      apply List.countP_eq_zero.mpr
      intro m hm
      obtain ⟨number, _, rfl⟩ := List.mem_mapIdx.mp hm
      simp [firstOf]
    simp [hnone, linkNotes]
  | append_singleton records record ih =>
    obtain ⟨method, body⟩ := record
    rw [linkNotes_append, List.countP_append, List.countP_append, List.length_append, List.length_singleton]
    cases hnote : linkNote? declared.length records method with
    | none =>
      obtain ⟨m, hm, hbody, hset⟩ := Method.withBodies_of_free hnote body
      obtain ⟨hlt, hget⟩ := List.getElem?_eq_some_iff.mp hm
      rw [hset, List.countP_set hlt, hget, hbody]
      simp only [Option.isSome_none, Option.isSome_some, Option.toList_none, List.countP_nil, if_true,
        Bool.false_eq_true, if_false]
      omega
    | some anomaly =>
      have hone : [anomaly].countP Anomaly.isDuplicateBody +
          [anomaly].countP Anomaly.isBodyMethodOutOfRange = 1 := by
        have hlink := isLink_of_linkNote? hnote
        cases anomaly <;> first | rfl | cases hlink
      rw [Method.withBodies_of_noted (by simp [hnote]), Option.toList_some]
      omega

end Body

open Read (Yields Consumes)

theorem Method.bodiless : Yields n read (·.body = none) := by
  apply Consumes.u30.andThen
  intro paramCount
  apply Consumes.u30.andThen
  intro returnType
  apply (Consumes.u30.times _).andThen
  intro paramTypes
  apply Consumes.u30.andThen
  intro name
  apply Consumes.u8.andThen
  intro flags
  apply Yields.optional_bind (P := fun _ => True)
  · intro _
    exact (Yields.counted OptionValue.yields).mono fun _ _ => trivial
  · intro _
    trivial
  · intro options _
    apply Yields.optional_bind (P := fun _ => True)
    · intro _
      exact (Consumes.u30.times _).yields
    · intro _
      trivial
    · intro paramNames _
      exact Yields.pure rfl

namespace Document

/-- The body records of a document, each with the method that it names. -/
def readRecords : Read (List (UInt32 × Body)) := do
  let _ ← readHeader
  Read.counted Body.read

theorem bodiless_header : Yields n readHeader fun header => ∀ m ∈ header.methods, m.body = none := by
  have law := Consumes.law
  apply Consumes.u16.andThen
  intro minorVersion
  apply Consumes.u16.andThen
  intro majorVersion
  apply Consumes.andThen (Pool.obeys law)
  intro pool
  apply (Yields.counted Method.bodiless).bind
  intro methods hmethods
  apply Consumes.andThen (law.counted (Metadata.obeys law))
  intro metadata
  apply Consumes.u30.andThen
  intro classCount
  apply Consumes.andThen (law.times (Instance.obeys law) _)
  intro instances
  apply Consumes.andThen (law.times (Definition.obeys law) _)
  intro classes
  apply Consumes.andThen (law.counted (Definition.obeys law))
  intro scripts
  exact Yields.pure hmethods.2

theorem exists_records (h : ofBytes bytes = .ok d) :
    ∃ declared records after, readRecords { rest := bytes } = .ok records after ∧
      d.methods = Method.withBodies declared records ∧
      d.anomalies.filter Anomaly.isLink = Body.linkNotes declared.length records := by
  obtain ⟨content, after, hread, rfl⟩ := ofBytes_eq_ok.mp h
  obtain ⟨header, start, hheader, hread⟩ := bind_eq_ok.mp hread
  obtain ⟨count, first, hcount, hread⟩ := bind_eq_ok.mp hread
  obtain ⟨methods, last, hall, hread⟩ := bind_eq_ok.mp hread
  cases hread
  have hbodiless := (bodiless_header _ _ _ (Nat.le_refl _) hheader).2
  have hquiet : first.anomalies.filter Anomaly.isLink = Body.linkNotes header.methods.length [] :=
    (Logs.law.u30.anomalies hcount).trans (Logs.anomalies (obeys_header Logs.law) hheader)
  rw [← Method.withBodies_nil hbodiless] at hall
  obtain ⟨records, stop, hrecords, hmethods, hnotes⟩ := Body.readAll_withBodies hall (by simpa using hquiet)
  refine ⟨header.methods, records, stop, ?_, hmethods, by simpa using hnotes⟩
  rw [readRecords, bind_of_ok hheader, Read.counted, bind_of_ok hcount]
  exact hrecords

/-- No body record is lost. A method has the body of the first record that names it; every later one is
noted as a duplicate, and every record that names no method of the table is noted with its place. -/
theorem bodies_are_linked (h : ofBytes bytes = .ok d) :
    ∃ records after, readRecords { rest := bytes } = .ok records after ∧
      records.length = d.methods.countP (·.body.isSome) + d.anomalies.countP Anomaly.isDuplicateBody +
        d.anomalies.countP Anomaly.isBodyMethodOutOfRange ∧
      (∀ number m, d.methods[number]? = some m →
        m.body = (records.find? (·.1.toNat = number)).map (·.2)) ∧
      (∀ method, d.anomalies.count (.duplicateBody method) =
        if method.toNat < d.methods.length then records.countP (·.1 = method) - 1 else 0) ∧
      ∀ i method, d.anomalies.count (.bodyMethodOutOfRange i method) =
        if d.methods.length ≤ method.toNat ∧ records[i]?.map (·.1) = some method then 1 else 0 := by
  obtain ⟨declared, records, after, hrecords, hmethods, hnotes⟩ := exists_records h
  have hlength : d.methods.length = declared.length := by rw [hmethods, Method.length_withBodies]
  have hcount (anomaly : Anomaly) (hlink : anomaly.isLink = true) :
      d.anomalies.count anomaly = (Body.linkNotes declared.length records).count anomaly := by
    rw [← hnotes, List.count_filter hlink]
  have hcountP (kind : Anomaly → Bool) (hkind : ∀ anomaly, kind anomaly = (kind anomaly && anomaly.isLink)) :
      d.anomalies.countP kind = (Body.linkNotes declared.length records).countP kind := by
    rw [← hnotes, List.countP_filter, ← funext hkind]
  refine ⟨records, after, hrecords, ?_, ?_, ?_, ?_⟩
  · have hduplicates := hcountP Anomaly.isDuplicateBody fun a => by cases a <;> rfl
    have hstrays := hcountP Anomaly.isBodyMethodOutOfRange fun a => by cases a <;> rfl
    rw [hduplicates, hstrays, hmethods]
    exact Body.length_eq_linked_add_noted declared records
  · intro number m hm
    rw [hmethods, Method.getElem?_withBodies] at hm
    obtain ⟨_, -, rfl⟩ := Option.map_eq_some_iff.mp hm
    rfl
  · intro method
    rw [hcount _ rfl, Body.count_duplicateBody, hlength]
  · intro i method
    rw [hcount _ rfl, Body.count_bodyMethodOutOfRange, hlength]

/-- Of three records, one is linked, one is a duplicate and one names no method. -/
theorem odd_bodies_are_linked :
    ofBytes oddBytes = .ok oddDocument ∧
      ∃ records after, readRecords { rest := oddBytes } = .ok records after ∧ records.length = 3 ∧
        oddDocument.anomalies.count (.duplicateBody 0) = records.countP (·.1 = 0) - 1 ∧
        records[2]?.map (·.1) = some 7 := by
  have h : ofBytes oddBytes = .ok oddDocument := by cbv
  obtain ⟨records, after, hrecords, hlength, -, hduplicates, hstrays⟩ := bodies_are_linked h
  refine ⟨h, records, after, hrecords, hlength.trans (by decide), hduplicates 0, ?_⟩
  have hstray := hstrays 2 7
  by_contra hnot
  rw [if_neg fun h => hnot h.2] at hstray
  exact absurd hstray (by decide)

end Document

end ActionVm
