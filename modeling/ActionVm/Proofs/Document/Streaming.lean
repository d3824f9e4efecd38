import ActionVm.Proofs.Document.RoundTrip

namespace ActionVm

theorem Read.Consumes.takeAnomalies : Consumes Read.takeAnomalies :=
  of_nothing fun input => ⟨input.anomalies, { input with anomalies := [] }, rfl, fun _ => rfl⟩

open Read (Consumes)

namespace Body

theorem consumes_link : Consumes (link methods index method body) := by
  unfold link
  split
  · exact (Consumes.note _).bind fun _ => .pure _
  · split
    · exact (Consumes.note _).bind fun _ => .pure _
    · exact .pure _

theorem consumes_all (count : Nat) : Consumes (readAll methods index count) := by
  induction count generalizing methods index with
  | zero => exact .pure _
  | succ count ih => exact Consumes.bind (obeys Consumes.law) fun _ => Consumes.bind consumes_link fun _ => ih

end Body

namespace Document

theorem consumes : Consumes read := by
  have hcontent : Consumes readContent := by
    apply Consumes.bind (obeys_header Consumes.law)
    intro header
    apply Consumes.u30.bind
    intro bodyCount
    exact (Body.consumes_all _).bind fun methods => .pure _
  exact hcontent.bind fun content => Consumes.takeAnomalies.bind fun anomalies => .pure _

theorem ofBytes_of_ok {after : Input} (h : read { rest := bytes } = .ok d after) :
    ofBytes bytes = .ok d := by
  rw [ofBytes, h]

theorem ofBytes_of_error (h : read { rest := bytes } = .error e stop) : ofBytes bytes = .error e := by
  rw [ofBytes, h]

theorem ofBytes_eq_error (h : ofBytes bytes = .error e) : ∃ stop, read { rest := bytes } = .error e stop := by
  cases hread : read { rest := bytes } with
  | ok d after =>
    rw [ofBytes_of_ok hread] at h
    cases h
  | error e' stop =>
    rw [ofBytes_of_error hread] at h
    cases h
    exact ⟨stop, rfl⟩

theorem read_toBytes {d : Document} (hw : d.WellFormed) :
    ∃ noted, read { rest := d.toBytes } =
      .ok { d with anomalies := noted } { rest := [], position := d.toBytes.length } := by
  have hrestores : Read.Restores False readContent d.toBytes { d with anomalies := [] } :=
    restores_content hw False.elim
  obtain ⟨noted, h, -⟩ := hrestores [] 0 []
  rw [List.append_nil, Nat.zero_add, List.nil_append] at h
  refine ⟨noted, ?_⟩
  rw [read, bind_of_ok h]
  rfl

/-- The bytes end before the document does. -/
def CutOff (bytes : Bytes) : Prop :=
  ∃ offset wanted, ofBytes bytes = .error (.endOfInput offset wanted)

theorem cutOff_of_takes {bytes : Bytes} {after : Input}
    (h : Read.Takes read { rest := bytes } taken d after) (hcut : cut <+: taken) (hne : cut ≠ taken) :
    CutOff cut := by
  obtain ⟨offset, wanted, stop, h⟩ := h.short cut hcut hne
  exact ⟨offset, wanted, ofBytes_of_error h⟩

/-- Documents can be read as their bytes come in. A document is read from the bytes that it takes
whatever follows them, and no fewer of them are one. Only the end of the input is mended by more
input. So no cut of a written document is taken for a smaller document. -/
theorem reading_streams :
    (∀ bytes d after, read { rest := bytes } = .ok d after →
      after.position ≤ bytes.length ∧ after.rest = bytes.drop after.position ∧
      (∀ other, bytes.take after.position <+: other → ofBytes other = .ok d) ∧
      ∀ n < after.position, CutOff (bytes.take n)) ∧
    (∀ bytes e, ofBytes bytes = .error e → (∀ offset wanted, e ≠ .endOfInput offset wanted) →
      ∀ more, ofBytes (bytes ++ more) = .error e) ∧
    ∀ d : Document, d.WellFormed → ∀ cut, cut <+: d.toBytes → cut ≠ d.toBytes → CutOff cut := by
  refine ⟨fun bytes d after h => ?_, fun bytes e h he more => ?_, fun d hw cut hcut hne => ?_⟩
  · obtain ⟨taken, htaken⟩ := consumes.takes _ _ _ h
    have hposition : after.position = taken.length := htaken.position.trans (Nat.zero_add _)
    have hrest : bytes = taken ++ after.rest := htaken.rest
    have htake : bytes.take after.position = taken := by rw [hrest, hposition, List.take_left]
    refine ⟨?_, ?_, ?_, fun n hn => cutOff_of_takes htaken ?_ fun he => ?_⟩
    · rw [hrest, hposition, List.length_append]
      exact Nat.le_add_right ..
    · conv_rhs => rw [hrest, hposition, List.drop_left]
    · rw [htake]
      rintro other ⟨rest, rfl⟩
      exact ofBytes_of_ok (htaken.follow rest)
    · rw [← htake]
      exact List.take_prefix_take_left (Nat.le_of_lt hn)
    · have hlen := congrArg List.length he
      rw [hposition] at hn
      exact Nat.not_le_of_lt hn (hlen ▸ List.length_take_le ..)
  · obtain ⟨stop, h⟩ := ofBytes_eq_error h
    obtain ⟨stop', h'⟩ := consumes.stays _ _ _ h he more
    exact ofBytes_of_error h'
  · obtain ⟨noted, h⟩ := read_toBytes hw
    obtain ⟨taken, htaken⟩ := consumes.takes _ _ _ h
    have hall : d.toBytes = taken := htaken.rest.trans (List.append_nil taken)
    exact cutOff_of_takes htaken (hall ▸ hcut) (hall ▸ hne)

def unknownName : Bytes :=
  [16, 0, 46, 0, 0, 0, 0, 0, 0, 0, 2, 0xff]

theorem sample_streams :
    (sample.WellFormed ∧
      (∃ noted, ofBytes (sample.toBytes ++ [0xff, 0x00]) = .ok { sample with anomalies := noted }) ∧
      CutOff sample.toBytes.dropLast) ∧
    ofBytes unknownName = .error (.unknownMultinameKind 1 0xff) ∧
      ofBytes (unknownName ++ [0x00]) = .error (.unknownMultinameKind 1 0xff) := by
  have hw : sample.WellFormed := by decide +kernel
  have hunknown : ofBytes unknownName = .error (.unknownMultinameKind 1 0xff) := rfl
  obtain ⟨hread, hstays, hcut⟩ := reading_streams
  obtain ⟨noted, h⟩ := read_toBytes hw
  refine ⟨⟨hw, ⟨noted, ?_⟩, ?_⟩, hunknown, hstays _ _ hunknown nofun _⟩
  · exact (hread _ _ _ h).2.2.1 _ ((List.take_prefix _ _).trans (List.prefix_append ..))
  · exact hcut sample hw _ (List.dropLast_prefix _) (by decide +kernel)

end Document

end ActionVm
