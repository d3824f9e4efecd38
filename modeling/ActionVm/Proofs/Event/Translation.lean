import ActionVm.Proofs.Event.Service
import Mathlib.Data.Set.Card

namespace ActionVm

inductive Operation (σ : Type) where
  | answer (q : Request)
  | runScripts
  | handle (host : Host σ) (e : Event)

def Operation.run (invoke : Invoke) : Operation σ → MachineM Unit
  | answer q => discard (MachineM.answer invoke q)
  | runScripts => discard (MachineM.runScriptsWith invoke)
  | handle host e => discard (MachineM.handleWith invoke host e)

/-- A machine after operations, of which some may have failed. -/
def Machine.perform (m : Machine) (invoke : Invoke) (operations : List (Operation σ)) : Machine :=
  operations.foldl (fun m o => m.after (o.run invoke)) m

def Note.translated? : Note → Option UInt32
  | translated method => some method
  | began _ | ended _ => none

/-- The methods that were translated, the latest first. -/
def Machine.translations (m : Machine) : List UInt32 :=
  m.journal.filterMap Note.translated?

theorem countP_range_getElem? (p : α → Bool) (l : List α) :
    (List.range l.length).countP (fun i => l[i]?.any p) = l.countP p := by
  induction l with
  | nil => rfl
  | cons a l ih =>
    rw [List.length_cons, List.range_succ_eq_map, List.countP_cons, List.countP_map, List.countP_cons, ← ih]
    rfl

theorem Document.length_le_bodied {d : Document} {ks : List UInt32} (hn : ks.Nodup) (hb : ∀ k ∈ ks, (d.body? k).isSome) :
    ks.length ≤ d.methods.countP (·.body.isSome) := by
  have hsub : ks.map UInt32.toNat ⊆ (List.range d.methods.length).filter fun i => d.methods[i]?.any (·.body.isSome) := by
    intro i hi
    obtain ⟨k, hk, rfl⟩ := List.mem_map.mp hi
    have hbody := hb k hk
    rw [body?, method?] at hbody
    cases hm : d.methods[k.toNat]? with
    | none =>
      rw [hm] at hbody
      cases hbody
    | some m =>
      rw [hm] at hbody
      refine List.mem_filter.mpr ⟨List.mem_range.mpr (List.getElem?_eq_some_iff.mp hm).1, ?_⟩
      rw [hm]
      exact hbody
  have hle := (List.Nodup.subperm (hn.map fun _ _ => UInt32.toNat_inj.mp) hsub).length_le
  rw [List.length_map, ← List.countP_eq_length_filter, countP_range_getElem?] at hle
  exact hle

/-- What is compiled is what was translated, and some of it was known before. -/
structure Machine.Translates (d : Document) (e : Embedding) (mode : Mode) (known : UInt32 → Option (Option Compiled))
    (m : Machine) : Prop where
  document : m.document = d
  embedding : m.embedding = e
  config : m.config.mode = mode
  once : m.translations.Nodup
  cached : ∀ k, m.compiled[k]?.isSome ↔ k ∈ m.translations
  coded : ∀ (k : UInt32) code, m.compiled[k]? = some code →
    ∃ body, d.body? k = some body ∧ code = (e.translator mode k body).toOption
  counted : m.compileCount = m.translations.countP m.isCompiled
  kept : ∀ k code, known k = some code → m.compiled[k]? = some code

namespace Machine.Translates

variable {m : Machine} {d : Document} {e : Embedding} {mode : Mode} {known : UInt32 → Option (Option Compiled)}

theorem isCompiled_withCode_self (m : Machine) (method : UInt32) (code : Option Compiled) :
    (m.withCode method code).isCompiled method = code.isSome := by
  rw [isCompiled, compiled_withCode_self]
  cases code <;> rfl

theorem countP_isCompiled_withCode {l : List UInt32} (h : method ∉ l) {code : Option Compiled} :
    l.countP (m.withCode method code).isCompiled = l.countP m.isCompiled := by
  apply List.countP_congr
  intro k hk
  have hne : k ≠ method := fun he => h (he ▸ hk)
  rw [isCompiled, isCompiled, compiled_withCode_of_ne hne]

theorem translate (h : m.Translates d e mode known) (hnew : m.compiled[method]? = none)
    (hbody : m.document.body? method = some body) :
    (m.withCode method (m.embedding.translator m.config.mode method body).toOption).Translates d e mode known := by
  rw [h.config, h.embedding]
  let code := (e.translator mode method body).toOption
  have hnot : method ∉ m.translations := by
    rw [← h.cached, hnew]
    exact nofun
  have hself := m.compiled_withCode_self method code
  have hother {k : UInt32} (hk : k ≠ method) := m.compiled_withCode_of_ne hk code
  refine ⟨h.document, h.embedding, h.config, List.nodup_cons.mpr ⟨hnot, h.once⟩, fun k => ?_, fun k c hc => ?_, ?_,
    fun k c hk => ?_⟩
  · change (m.withCode method code).compiled[k]?.isSome ↔ k ∈ method :: m.translations
    by_cases hk : k = method
    · simp [hk, hself]
    · rw [hother hk, h.cached]
      simp [hk]
  · by_cases hk : k = method
    · subst hk
      exact ⟨body, h.document ▸ hbody, (Option.some.inj (hself.symm.trans hc)).symm⟩
    · exact h.coded k c ((hother hk).symm.trans hc)
  · change (if code.isSome then m.compileCount + 1 else m.compileCount) =
      (method :: m.translations).countP (m.withCode method code).isCompiled
    rw [List.countP_cons, countP_isCompiled_withCode hnot, ← h.counted, isCompiled_withCode_self]
    split <;> rfl
  · by_cases hm : k = method
    · subst hm
      rw [h.kept k c hk] at hnew
      cases hnew
    · exact (hother hm).trans (h.kept k c hk)

theorem change {l : Limits} {new : Machine} (h : m.Translates d e mode known) (hc : m.Change l new) :
    new.Translates d e mode known := by
  cases hc with
  | translate hnew hbody => exact h.translate hnew hbody
  | _ => exact { h with }

theorem bodied (h : m.Translates d e mode known) (hk : k ∈ m.translations) : (d.body? k).isSome := by
  obtain ⟨code, hc⟩ := Option.isSome_iff_exists.mp ((h.cached k).mpr hk)
  obtain ⟨body, hbody, -⟩ := h.coded k code hc
  rw [hbody]
  rfl

/-- A method is translated when it is first compiled, and looked up from then on. -/
theorem compile_eq (h : m.Translates d e mode known) (hb : d.body? k = some body) :
    MachineM.compile k m = .ok (e.translator mode k body).toOption
      (if k ∈ m.translations then m else m.withCode k (e.translator mode k body).toOption) := by
  cases hc : m.compiled[k]? with
  | some code =>
    obtain ⟨body', hbody, rfl⟩ := h.coded k code hc
    cases hb.symm.trans hbody
    rw [MachineM.compile_of_known hc, if_pos ((h.cached k).mp (by rw [hc]; rfl))]
  | none =>
    have hnot : k ∉ m.translations := by
      rw [← h.cached, hc]
      exact nofun
    rw [MachineM.compile_of_new hc (h.document ▸ hb), h.config, h.embedding, if_neg hnot]

theorem compiled_of_bodiless (h : m.Translates d e mode known) (hb : d.body? k = none) : m.compiled[k]? = none := by
  cases hc : m.compiled[k]? with
  | none => rfl
  | some code =>
    obtain ⟨body, hbody, -⟩ := h.coded k code hc
    cases hb.symm.trans hbody

theorem compiled_after_compile (h : m.Translates d e mode known) (k : UInt32) :
    (m.after (MachineM.compile k)).compiled[k]? = (d.body? k).map fun body => (e.translator mode k body).toOption := by
  cases hb : d.body? k with
  | none =>
    have hnone := h.compiled_of_bodiless hb
    rw [after, MachineM.compile_of_bodiless hnone (h.document ▸ hb)]
    exact hnone
  | some body =>
    rw [after, h.compile_eq hb]
    by_cases hk : k ∈ m.translations
    · obtain ⟨code, hc⟩ := Option.isSome_iff_exists.mp ((h.cached k).mpr hk)
      obtain ⟨body', hbody, rfl⟩ := h.coded k code hc
      cases hb.symm.trans hbody
      simpa only [if_pos hk, Option.map_some] using hc
    · simp only [if_neg hk]
      exact Std.TreeMap.getElem?_insert_self

theorem mem_translations (h : m.Translates d e mode known) (hk : m.isCompiled k = true) : k ∈ m.translations := by
  rw [← h.cached]
  unfold isCompiled at hk
  split at hk
  · rename_i hc
    rw [hc]
    rfl
  · cases hk

theorem ncard_isCompiled (h : m.Translates d e mode known) : {k | m.isCompiled k = true}.ncard = m.compileCount := by
  have hset : {k | m.isCompiled k = true} = ((m.translations.filter m.isCompiled).toFinset : Set UInt32) := by
    ext k
    simp only [Set.mem_ofPred_eq, List.coe_toFinset, List.mem_filter]
    exact ⟨fun hk => ⟨h.mem_translations hk, hk⟩, fun hk => hk.2⟩
  rw [hset, Set.ncard_coe_finset, List.toFinset_card_of_nodup (h.once.filter _), h.counted, List.countP_eq_length_filter]

theorem blank {c : Config} (h : m.Blank d c e g) : m.Translates d e c.mode fun _ => none where
  document := h.document
  embedding := h.embedding
  config := by rw [h.config]
  once := by simp [translations, h.journal]
  cached k := by simp [translations, h.journal, h.compiled]
  coded k code hk := by simp [h.compiled] at hk
  counted := by simp [translations, h.journal, h.compileCount]
  kept k code hk := by cases hk

end Machine.Translates

def translation (d : Document) (e : Embedding) (mode : Mode) (known : UInt32 → Option (Option Compiled)) : Policy where
  toLimits := .none
  holds := Machine.Translates d e mode known
  change := Machine.Translates.change
  reads _ _ := ⟨fun _ => trivial, fun _ _ => trivial, fun _ _ => trivial⟩
  good_global _ := trivial
  functions _ := Embedding.within_none _

theorem Concur.discard {P : σ → Prop} {x y : EStateM ε σ α} (h : Concur A P Q x y) :
    Concur A P (fun _ => True) (Functor.discard x) (Functor.discard y) :=
  h.bind fun _ _ => .done _

theorem Operation.obeys_run (fuel : Nat) (o : Operation σ) :
    Obeys A (translation d e mode known).holds (fun _ => True) (o.run (MachineM.execute fuel)) := by
  have hi : (translation d e mode known).Invokes A (MachineM.execute fuel) (MachineM.execute fuel) :=
    MachineM.invokes_execute (fun _ => trivial) fuel
  cases o with
  | answer q => exact (MachineM.concur_answer hi q q.within_none).discard
  | runScripts => exact (MachineM.concur_runScriptsWith hi fun _ _ _ _ => trivial).discard
  | handle host e => exact (MachineM.concur_handleWith (fun _ => trivial) hi host.within_none e).discard

theorem Machine.Translates.perform {m : Machine} (h : m.Translates d e mode known) (fuel : Nat)
    (operations : List (Operation σ)) : (m.perform (MachineM.execute fuel) operations).Translates d e mode known := by
  induction operations generalizing m with
  | nil => exact h
  | cons o rest ih => exact ih (after_of_obeys (p := translation d e mode known) (o.obeys_run fuel) h)

/-- Methods are translated once, whatever the translator makes of them. After any operations, of which some may
have failed, no method was translated twice; the methods that have code are counted, and are no more than the
methods with a body; a method without one is not remembered. To compile a method with a body is to translate it
and to remember what came of it, if this was not done before, and to give what came of it. Further operations
leave all that is remembered as it is. -/
theorem methods_are_translated_once (document : Document) (config : Config) (embedding : Embedding) (fuel : Nat)
    (past later : List (Operation σ)) :
    let m := (Machine.create document config embedding).perform (MachineM.execute fuel) past
    m.translations.Nodup ∧
      m.compileCount = {k | m.isCompiled k = true}.ncard ∧
      m.compileCount ≤ document.methods.countP (·.body.isSome) ∧
      (∀ k, document.body? k = none → m.compiled[k]? = none) ∧
      (∀ k body, document.body? k = some body →
        let code := (embedding.translator config.mode k body).toOption
        MachineM.compile k m = .ok code (if k ∈ m.translations then m else m.withCode k code)) ∧
      (∀ k, (m.after (MachineM.compile k)).compiled[k]? =
        (document.body? k).map fun body => (embedding.translator config.mode k body).toOption) ∧
      ∀ (k : UInt32) (code : Option Compiled), m.compiled[k]? = some code →
        (m.perform (MachineM.execute fuel) later).compiled[k]? = some code := by
  intro m
  have hm : m.Translates document embedding config.mode fun _ => none :=
    (Machine.Translates.blank (Machine.blank_create document config embedding)).perform fuel past
  refine ⟨hm.once, hm.ncard_isCompiled.symm, ?_, fun k hk => hm.compiled_of_bodiless hk, fun k body hb => hm.compile_eq hb,
    hm.compiled_after_compile, fun k code hk => ?_⟩
  · rw [hm.counted, List.countP_eq_length_filter]
    apply Document.length_le_bodied (hm.once.filter _)
    intro k hk
    exact hm.bodied (List.mem_of_mem_filter hk)
  · have hkept : m.Translates document embedding config.mode fun k => m.compiled[k]? := { hm with kept := fun _ _ h => h }
    exact (hkept.perform fuel later).kept k code hk

def idleDocument : Document :=
  .small [] [[Opcode.returnVoid.byte], [Opcode.returnVoid.byte]] [[], []]

def pickyEmbedding : Embedding where
  translator mode method body :=
    if method = 0 then .error (.memory (.allocationFailed 0)) else Compiled.ofBody .generous mode body

def earlyOperations : List (Operation Unit) :=
  [.answer (.compile 0), .answer (.compile 7), .answer (.callMethod 0 ⟨0⟩ []), .answer (.compile 7)]

def refusingMachine : Machine :=
  (Machine.create idleDocument { hostClasses := false, mode := .off } pickyEmbedding).perform (MachineM.execute 3)
    earlyOperations

/-- A method that could not be translated is not tried again, not even when the scripts run. -/
theorem compiled_methods_are_translated_once :
    refusingMachine.translations = [0] ∧ refusingMachine.translations.Nodup ∧
      refusingMachine.compileCount = 0 ∧ refusingMachine.compiled[(7 : UInt32)]? = none ∧
      refusingMachine.compiled[(0 : UInt32)]? = some none ∧
      MachineM.compile 0 refusingMachine = .ok none refusingMachine ∧
      (refusingMachine.perform (MachineM.execute 3) [(.runScripts : Operation Unit)]).compiled[(0 : UInt32)]? = some none ∧
      (refusingMachine.perform (MachineM.execute 3) [(.runScripts : Operation Unit)]).translations = [1, 0] := by
  obtain ⟨honce, -, -, hbodiless, hcompile, -, hkept⟩ := methods_are_translated_once idleDocument
    { hostClasses := false, mode := .off } pickyEmbedding 3 earlyOperations [.runScripts]
  have htranslations : refusingMachine.translations = [0] := by decide +kernel
  have hshape : refusingMachine.compiled[(0 : UInt32)]?.map Option.isSome = some false := by decide +kernel
  obtain ⟨code, hcode, hnone⟩ := Option.map_eq_some_iff.mp hshape
  cases Option.not_isSome_iff_eq_none.mp (Bool.eq_false_iff.mp hnone)
  obtain ⟨body, hbody⟩ := Option.isSome_iff_exists.mp (show (idleDocument.body? 0).isSome = true from rfl)
  have hagain : MachineM.compile 0 refusingMachine = .ok none
      (if 0 ∈ refusingMachine.translations then refusingMachine else refusingMachine.withCode 0 none) :=
    hcompile 0 body hbody
  rw [htranslations, if_pos List.mem_cons_self] at hagain
  exact ⟨htranslations, honce, by decide +kernel, hbodiless 7 rfl, hcode, hagain, hkept 0 none hcode, by decide +kernel⟩

end ActionVm
