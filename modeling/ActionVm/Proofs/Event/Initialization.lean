import ActionVm.Proofs.Event.Service
import Mathlib.Data.List.Dedup
import Mathlib.Data.List.Perm.Subperm

namespace ActionVm

def Note.began? : Note → Option UInt32
  | began init => some init
  | translated _ | ended _ => none

def Machine.begun (m : Machine) : List UInt32 :=
  m.journal.filterMap Note.began?

/-- The scripts that had begun and not returned when these notes were taken. One that failed stays. -/
def Note.active : List Note → List UInt32
  | [] => []
  | began init :: rest => init :: active rest
  | ended init :: rest => (active rest).erase init
  | translated _ :: rest => active rest

theorem Note.active_sublist (notes : List Note) : (active notes).Sublist (notes.filterMap began?) := by
  induction notes with
  | nil => exact .slnil
  | cons n rest ih =>
    cases n with
    | translated method => exact ih
    | began init => exact ih.cons_cons init
    | ended init => exact List.erase_sublist.trans ih

/-- Scripts that may begin did so at most once, and none of them was entered otherwise. -/
structure Machine.BeginsOnce (e : Embedding) (may : UInt32 → Prop) (entered : List UInt32) (m : Machine) : Prop where
  embedding : m.embedding = e
  once : m.begun.Nodup
  started : ∀ k ∈ m.begun, k ∈ m.started
  known : ∀ k ∈ m.begun, may k
  apart : ∀ k ∈ m.begun, k ∉ entered
  entered : ∀ k ∈ entered, k ∈ m.started
  deferred : ∀ r init, (m.store.value r).deferred? = some init → may init

/-- Placeholders stand for some scripts only. -/
def Limits.scripted (may : UInt32 → Prop) : Limits where
  good _ := True
  defers := may
  begins := may

namespace Machine.BeginsOnce

variable {m : Machine} {e : Embedding} {may : UInt32 → Prop} {entered : List UInt32}

theorem alloc (h : m.BeginsOnce e may entered) {o : Object} (ho : ∀ init, o.value.deferred? = some init → may init) :
    { m with store := (m.store.alloc o).2 }.BeginsOnce e may entered := by
  refine { h with deferred := fun r init hr => ?_ }
  rw [Store.value_push] at hr
  split at hr
  · exact ho init hr
  · exact h.deferred r init hr

theorem begin (h : m.BeginsOnce e may entered) (hnew : init ∉ m.started) (hi : may init) :
    { m with started := init :: m.started, journal := .began init :: m.journal }.BeginsOnce e may entered where
  embedding := h.embedding
  once := List.nodup_cons.mpr ⟨fun hb => hnew (h.started init hb), h.once⟩
  started k hk := by
    rcases List.mem_cons.mp hk with rfl | hk
    · exact List.mem_cons_self
    · exact List.mem_cons_of_mem _ (h.started k hk)
  known := List.forall_mem_cons.mpr ⟨hi, h.known⟩
  apart := List.forall_mem_cons.mpr ⟨fun he => hnew (h.entered init he), h.apart⟩
  entered k hk := List.mem_cons_of_mem _ (h.entered k hk)
  deferred := h.deferred

theorem change {new : Machine} (h : m.BeginsOnce e may entered) (hc : m.Change (.scripted may) new) :
    new.BeginsOnce e may entered := by
  cases hc with
  | alloc o ho =>
    apply h.alloc
    intro init hi
    rw [ho.deferred] at hi
    cases hi
  | defer hd =>
    apply h.alloc
    rintro _ ⟨⟩
    exact hd
  | copy hr => exact h.alloc (h.deferred _)
  | fill n =>
    refine { h with deferred := fun r init hr => ?_ }
    rw [Store.value, Store.get_allocUndefined] at hr
    exact h.deferred r init hr
  | update r f hf =>
    refine { h with deferred := fun other init hr => ?_ }
    rw [Store.value, (Store.alters_update hf other).deferred] at hr
    exact h.deferred other init hr
  | begin hnew hi => exact h.begin hnew hi
  | enter init =>
    exact { h with
      started := fun k hk => List.mem_cons_of_mem _ (h.started k hk)
      entered := fun k hk => List.mem_cons_of_mem _ (h.entered k hk) }
  | write | hold | translate | register | finish => exact { h with }

theorem of_fresh {d : Document} (h : m.Fresh d e early g) (hearly : ∀ init ∈ early, may init) (entered : List UInt32) :
    { m with started := entered }.BeginsOnce e may entered := by
  have hbegun : { m with started := entered }.begun = [] := by
    apply List.filterMap_eq_nil_iff.mpr
    intro n hn
    obtain ⟨method, rfl⟩ := h.journal n hn
    rfl
  refine ⟨h.embedding, ?_, ?_, ?_, ?_, fun k hk => hk, fun r init hr => hearly init (h.store.deferred r init hr)⟩
  · rw [hbegun]
    exact List.nodup_nil
  all_goals
    rw [hbegun]
    exact nofun

end Machine.BeginsOnce

def initialization (may : UInt32 → Prop) (e : Embedding) (he : e.Within (.scripted may)) (entered : List UInt32) :
    Policy where
  toLimits := .scripted may
  holds := Machine.BeginsOnce e may entered
  change := Machine.BeginsOnce.change
  reads r h := ⟨fun _ => trivial, fun init => h.deferred r init, fun _ _ => trivial⟩
  good_global _ := trivial
  functions h := h.embedding ▸ he

namespace Machine.BeginsOnce

variable {m : Machine} {e : Embedding} {may : UInt32 → Prop} {entered : List UInt32}

theorem handleAll (he : e.Within (.scripted may)) (h : m.BeginsOnce e may entered) (fuel : Nat)
    {events : List (Host σ × Event)} (hhosts : ∀ e ∈ events, e.1.Within (.scripted may)) :
    (m.handleAll (MachineM.execute fuel) events).BeginsOnce e may entered := by
  induction events generalizing m with
  | nil => exact h
  | cons event rest ih =>
    obtain ⟨hhost, hrest⟩ := List.forall_mem_cons.mp hhosts
    have hinvokes : (initialization may e he entered).Invokes (fun _ => False) _ _ :=
      MachineM.invokes_execute (fun _ => trivial) fuel
    exact ih (after_of_obeys (MachineM.concur_handleWith (fun _ => trivial) hinvokes hhost event.2) h) hrest

theorem runScripts {d : Document} {c : Config} {g : Ref} (he : e.Within (.scripted may)) (hblank : m.Blank d c e g)
    (fuel : Nat) (hmay : ∀ init ∈ d.scripts.map (·.init), may init) :
    (m.after (MachineM.runScriptsWith (MachineM.execute fuel))).BeginsOnce e may
      (d.scripts.getLast?.map (·.init)).toList := by
  cases hlast : d.scripts.getLast? with
  | none =>
    have hnone := MachineM.runScriptsWith_of_none (hblank.document ▸ hlast) (MachineM.execute fuel)
    have hsame : m.after (MachineM.runScriptsWith (MachineM.execute fuel)) = m := by
      rw [after, hnone]
    have hstart : m.BeginsOnce e may m.started := of_fresh (hblank.fresh []) (List.forall_mem_nil _) m.started
    rw [hsame, Option.map_none, Option.toList_none, ← hblank.started]
    exact hstart
  | some last =>
    obtain ⟨declared, -, hfresh, hrun⟩ := MachineM.runScriptsWith_of_blank hblank hlast
    have hearly : ∀ init ∈ d.scripts.dropLast.map (·.init), may init := fun init h =>
      hmay init (((List.dropLast_sublist _).map _).subset h)
    have hinvokes : (initialization may e he [last.init]).Invokes (fun _ => False) _ _ :=
      MachineM.invokes_execute (fun _ => trivial) fuel
    rw [after_congr (hrun (MachineM.execute fuel))]
    refine after_of_obeys (Q := fun _ => True) (p := initialization may e he [last.init]) ?_
      (of_fresh hfresh hearly [last.init])
    exact .bind (hinvokes (.method last.init) g [] trivial fun _ _ => trivial) fun _ _ => .done true

theorem serve {d : Document} {c : Config} {g : Ref} (he : e.Within (.scripted may)) (hblank : m.Blank d c e g) (fuel : Nat)
    (hmay : ∀ init ∈ d.scripts.map (·.init), may init) {events : List (Host σ × Event)}
    (hhosts : ∀ e ∈ events, e.1.Within (.scripted may)) :
    (m.serve (MachineM.execute fuel) events).BeginsOnce e may (d.scripts.getLast?.map (·.init)).toList :=
  (runScripts he hblank fuel hmay).handleAll he fuel hhosts

theorem active (h : m.BeginsOnce e may entered) {past : List Note} (hp : past <:+ m.journal) :
    (Note.active past).Nodup ∧ ∀ init ∈ Note.active past, may init := by
  have hsub : (Note.active past).Sublist m.begun := (Note.active_sublist past).trans (hp.sublist.filterMap _)
  exact ⟨h.once.sublist hsub, fun init hi => h.known init (hsub.subset hi)⟩

end Machine.BeginsOnce

/-- Scripts that run on demand begin at most once. To define what a script declares is to run it, with a note
before and after, if it was not started before. After the scripts were run and any events handled, with or
without success, no script began twice, and the entry script did not begin on demand. At every moment, the
scripts under way are different ones. There are never more of them than the document has initialisers of scripts,
together with the others, if there are any, behind the placeholders that the embedder and the hosts make and the
definitions that they ask for. -/
theorem scripts_begin_once (document : Document) (config : Config) (embedding : Embedding) (fuel : Nat)
    (events : List (Host σ × Event)) :
    let m := (Machine.create document config embedding).serve (MachineM.execute fuel) events
    let inits := document.scripts.map (·.init)
    (∀ (invoke : Invoke) init n, MachineM.define invoke init n =
      if init ∈ n.started then .ok () n
      else (do let _ ← invoke (.method init) n.global []; MachineM.note (.ended init))
        { n with started := init :: n.started, journal := .began init :: n.journal }) ∧
      m.begun.Nodup ∧
      (∀ last, document.scripts.getLast? = some last → last.init ∉ m.begun) ∧
      ∀ past, past <:+ m.journal →
        (Note.active past).Nodup ∧
        ∀ others : List UInt32, embedding.Within (.scripted (· ∈ inits ++ others)) →
          (∀ e ∈ events, e.1.Within (.scripted (· ∈ inits ++ others))) →
          (Note.active past).length ≤ (inits ++ others).dedup.length := by
  intro m inits
  have hblank := Machine.blank_create document config embedding
  have hm : m.BeginsOnce embedding (fun _ => True) (document.scripts.getLast?.map (·.init)).toList :=
    .serve embedding.within_none hblank fuel (fun _ _ => trivial) fun e _ => e.1.within_none
  refine ⟨MachineM.define_eq, hm.once, fun last hlast hb => ?_, fun past hp => ⟨(hm.active hp).1, ?_⟩⟩
  -- The entry script was marked as started before anything could begin on demand.
  · apply hm.apart last.init hb
    rw [hlast]
    exact List.mem_singleton_self _
  · intro others hembedding hhosts
    have hothers : m.BeginsOnce embedding (· ∈ inits ++ others) (document.scripts.getLast?.map (·.init)).toList :=
      .serve hembedding hblank fuel (fun _ => List.mem_append_left _) hhosts
    obtain ⟨hnodup, hknown⟩ := hothers.active hp
    exact (List.Nodup.subperm hnodup fun init hi => List.mem_dedup.mpr (hknown init hi)).length_le

/-- Two scripts that each define a name as what the name of the other one is defined as. The entry script makes an
object that reads one of the names when it is clicked at. -/
def crossingDocument : Document :=
  .small ["A", "B", "T", "click"]
    [[Opcode.getLocal0.byte, Opcode.getLex.byte, 2, Opcode.initProperty.byte, 1, Opcode.returnVoid.byte],
      [Opcode.getLocal0.byte, Opcode.getLex.byte, 1, Opcode.initProperty.byte, 2, Opcode.returnVoid.byte],
      [Opcode.getLocal0.byte, Opcode.newObject.byte, 0, Opcode.initProperty.byte, 3, Opcode.getLex.byte, 3,
        Opcode.newFunction.byte, 3, Opcode.initProperty.byte, 4, Opcode.returnVoid.byte],
      [Opcode.getLex.byte, 1, Opcode.pop.byte, Opcode.returnVoid.byte]]
    [[{ name := 1, kind := .classDef 1 0 }], [{ name := 2, kind := .classDef 2 1 }], []]

def crossingEvents : List (Host Unit × Event) :=
  [(.silent (), .dispatch "T" "click"), (.silent (), .dispatch "T" "click")]

def crossingMachine : Machine :=
  (Machine.create crossingDocument { hostClasses := false, mode := .off } {}).serve (MachineM.execute 6) crossingEvents

theorem crossing_scripts_begin_once :
    crossingMachine.begun = [1, 0] ∧ crossingMachine.begun.Nodup ∧ 2 ∉ crossingMachine.begun ∧
      Note.active (crossingMachine.journal.drop 2) = [1, 0] ∧
      (Note.active (crossingMachine.journal.drop 2)).length ≤ 3 := by
  obtain ⟨-, honce, hentry, hactive⟩ := scripts_begin_once crossingDocument { hostClasses := false, mode := .off } {} 6
    crossingEvents
  have hlast : crossingDocument.scripts.getLast? = some { init := 2, traits := [] } := rfl
  obtain ⟨-, hlength⟩ := hactive _ (List.drop_suffix 2 _)
  refine ⟨by decide +kernel, honce, hentry _ hlast, by decide +kernel, ?_⟩
  refine hlength [] (Embedding.within_default _) fun e he => ?_
  have hclick : e = (.silent (), .dispatch "T" "click") := by simpa [crossingEvents] using he
  rw [hclick]
  exact Host.within_silent () _

/-- A single script, the entry, makes an object that reads `P` when it is clicked at. The method that `P` may stand
for reads `Q`. There is also a class `C`, which is bound to nothing. -/
def strayDocument : Document :=
  { Document.small ["T", "click", "P", "Q", "C"]
      [[Opcode.getLocal0.byte, Opcode.newObject.byte, 0, Opcode.initProperty.byte, 1, Opcode.getLex.byte, 1,
          Opcode.newFunction.byte, 3, Opcode.initProperty.byte, 2, Opcode.returnVoid.byte],
        [Opcode.getLex.byte, 4, Opcode.pop.byte, Opcode.returnVoid.byte],
        [Opcode.returnVoid.byte],
        [Opcode.getLex.byte, 3, Opcode.pop.byte, Opcode.returnVoid.byte]]
      [[]] with
    instances := [{ name := 5, superName := 0, init := 2, traits := [] }] }

def strayHost : Host Unit where
  state := ()
  lookup tag state := do return (some (← Dialogue.request (.make (.deferred tag))), state)
  placed _ _ _ state := return state

def strayEvents : List (Host Unit × Event) :=
  [(strayHost, .bind { className := "C", tag := some 1, placement := some { parent := none, name := "P", placedBy := 0 } }),
    (strayHost, .bind { className := "C", tag := some 2, placement := some { parent := none, name := "Q", placedBy := 0 } }),
    (strayHost, .dispatch "T" "click")]

def strayMachine : Machine :=
  (Machine.create strayDocument { hostClasses := false, mode := .off } {}).serve (MachineM.execute 6) strayEvents

/-- With placeholders of a host, more scripts can be under way than the document has. -/
theorem strays_begin_deeper :
    ¬∀ past, past <:+ strayMachine.journal →
      (Note.active past).length ≤ (strayDocument.scripts.map (·.init)).dedup.length := by
  intro h
  exact absurd (h _ (List.drop_suffix 2 _)) (by decide +kernel)

end ActionVm
