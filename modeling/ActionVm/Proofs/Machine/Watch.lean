import ActionVm.Event.Handler
import ActionVm.Proofs.Machine.Conduct

namespace ActionVm

/-- Looks at a run and may stop it: before every step of a block and before the block is left, when there is no
next step, and before a callee runs. -/
structure Watch where
  step : Activation → Option Step → Option Stop
  call : Machine → Callee → Ref → List Ref → Option Stop

def unlessStopped (look : σ → Option Stop) : EStateM Stop σ Unit := fun s =>
  match look s with
  | some stop => .error stop s
  | none => .ok () s

namespace FrameM

def runWatched (w : Watch) (invoke : Invoke) (code : Threaded) : Nat → Nat → FrameM Unit
  | 0, _ => throw .outOfFuel
  | fuel + 1, place => do
    match code.blocks[place]? with
    | none => return
    | some block =>
      block.steps.forM fun s => do
        unlessStopped (w.step · (some s))
        act invoke s
      unlessStopped (w.step · none)
      match ← leave block.exit with
      | none => return
      | some next => runWatched w invoke code fuel next

end FrameM

namespace MachineM

/-- Runs a callee as `execute` does, under a watch. -/
def callWatched (w : Watch) : Nat → Invoke
  | 0, _, _, _ => throw .outOfFuel
  | fuel + 1, callee, this, args => do
    unlessStopped (w.call · callee this args)
    enter (callWatched w fuel) (fun code => FrameM.runWatched w (callWatched w fuel) code fuel 0) callee this args

end MachineM

def Watch.idle : Watch where
  step _ _ := none
  call _ _ _ _ := none

/-- Moments of a run: in a frame, at a call, and at an event that is to be handled. -/
structure Moments where
  step : Activation → Option Step → Bool := fun _ _ => false
  call : Machine → Callee → Ref → List Ref → Bool := fun _ _ _ _ => false
  event : Machine → Event → Bool := fun _ _ => false

def Watch.stopAt (bad : Moments) (alarm : Stop) : Watch where
  step a s := if bad.step a s then some alarm else none
  call m callee this args := if bad.call m callee this args then some alarm else none

namespace FrameM

theorem runWatched_idle (invoke : Invoke) (code : Threaded) (fuel : Nat) :
    runWatched .idle invoke code fuel = runFrom invoke code fuel := by
  induction fuel with
  | zero => rfl
  | succ fuel ih =>
    funext place
    unfold runWatched runFrom
    exact ih ▸ rfl

end FrameM

namespace MachineM

theorem callWatched_idle (fuel : Nat) : callWatched .idle fuel = execute fuel := by
  induction fuel with
  | zero => rfl
  | succ fuel ih =>
    have hrun : FrameM.runWatched .idle (callWatched .idle fuel) = FrameM.runFrom (execute fuel) := by
      funext code fuel
      rw [FrameM.runWatched_idle, ih]
    funext callee this args
    unfold callWatched execute
    exact hrun ▸ ih ▸ rfl

end MachineM

/-- Two watches that say the same under a policy, unless the first one raises an alarm. It stops before a slot
is read that holds anything but a good reference, and before a class is built as a copy of such a thing. -/
structure Policy.Watches (p : Policy) (A : Stop → Prop) (v w : Watch) : Prop where
  step : ∀ a s, p.Fair a → v.step a s = w.step a s ∨ ∃ stop, v.step a s = some stop ∧ A stop
  call : ∀ m callee this args, p.holds m → p.good this → (∀ r ∈ args, p.good r) →
    v.call m callee this args = w.call m callee this args ∨ ∃ stop, v.call m callee this args = some stop ∧ A stop
  slots : ∀ a s, p.Fair a → v.step a (some s) = none → s.action = .getSlot →
    ∀ r, FrameM.slotRead? s.a a = some r → p.good r
  copies : ∀ m name this args, p.holds m → v.call m (.construction name) this args = none →
    m.classes[name]? = some .builtin → ∀ r, (m.store.get m.global).properties[name]? = some r → p.good r

theorem unlessStopped_of_none {look : σ → Option Stop} (h : look s = none) : unlessStopped look s = .ok () s := by
  simp only [unlessStopped, h]

theorem unlessStopped_of_some {look : σ → Option Stop} (h : look s = some stop) :
    unlessStopped look s = .error stop s := by
  simp only [unlessStopped, h]

theorem concurAt_unlessStopped {look other : σ → Option Stop} {x y : EStateM Stop σ α} (hs : P s)
    (hsame : look s = other s ∨ ∃ stop, look s = some stop ∧ A stop)
    (h : look s = none → ConcurAt A P Q s x y) :
    ConcurAt A P Q s (unlessStopped look >>= fun _ => x) (unlessStopped other >>= fun _ => y) := by
  unfold ConcurAt
  cases hv : look s with
  | none =>
    have hother : other s = none := by simpa [hv, eq_comm] using hsame
    rw [bind_of_ok (unlessStopped_of_none hv), bind_of_ok (unlessStopped_of_none hother)]
    exact h hv
  | some stop =>
    rw [bind_of_error (unlessStopped_of_some hv)]
    rcases hsame with he | ⟨_, hv', hstop⟩
    · rw [bind_of_error (unlessStopped_of_some (he.symm.trans hv))]
      exact .error hs
    · cases hv.symm.trans hv'
      exact .alarm hstop hs

section Policy

variable {p : Policy} {v w : Watch}

namespace FrameM

theorem concur_watched (hw : p.Watches A v w) (hi : p.Invokes A i j) (s : Step) :
    Concur A p.Fair (fun _ => True)
      (do unlessStopped (v.step · (some s)); act i s)
      (do unlessStopped (w.step · (some s)); act j s) :=
  fun a ha => concurAt_unlessStopped ha (hw.step a (some s) ha) fun hv => concurAt_act hi s ha (hw.slots a s ha hv)

theorem concur_runWatched (hw : p.Watches A v w) (hi : p.Invokes A i j) (code : Threaded) (fuel place : Nat) :
    Concur A p.Fair (fun _ => True) (runWatched v i code fuel place) (runWatched w j code fuel place) := by
  induction fuel generalizing place with
  | zero => exact .throw _
  | succ fuel ih =>
    unfold runWatched
    cases code.blocks[place]? with
    | none => exact .done _
    | some block =>
      refine .bind (.forM fun s _ => concur_watched hw hi s) fun _ _ a ha => ?_
      refine concurAt_unlessStopped ha (hw.step a none ha) fun _ => ?_
      refine (obeys_leave block.exit a ha).bind fun next _ => ?_
      cases next with
      | none => exact .done _
      | some next => exact ih next

end FrameM

namespace MachineM

theorem concur_inFrame {f : Frame} {x y : FrameM Unit} (hf : ∀ r ∈ f.references, p.good r)
    (h : Concur A p.Fair (fun _ => True) x y) : Concur A p.holds p.good (inFrame f x) (inFrame f y) := by
  intro m hm
  have hc := h { machine := m, frame := f } ⟨hm, hf⟩
  simp only [ConcurAt, inFrame] at hc ⊢
  generalize x { machine := m, frame := f } = first at hc ⊢
  generalize y { machine := m, frame := f } = second at hc ⊢
  cases hc with
  | @ok _ a _ ha =>
    cases hr : a.frame.result with
    | none =>
      simp only [hr]
      exact obeys_simple (v := .undefined) ⟨rfl, rfl⟩ a.machine ha.machine
    | some r =>
      simp only [hr]
      exact .ok (ha.frame r (Frame.mem_references.mpr (.inr (.inr (.inr hr))))) ha.machine
  | error ha => exact .error ha.machine
  | alarm he ha => exact .alarm he ha.machine

theorem references_create {config : Config} {f : Frame}
    (h : Frame.create config method maxStack localCount this args = .ok f) : f.references = this :: args := by
  unfold Frame.create at h
  cases hm : Bounds.mul UInt64.size (max maxStack.toNat 1) (max config.stackSlack 1) with
  | error e => rw [hm] at h; cases h
  | ok limit =>
    rw [hm] at h
    cases h
    simp [Frame.references]

theorem concur_runMethod {run run' : Threaded → FrameM Unit}
    (hrun : ∀ code, Concur A p.Fair (fun _ => True) (run code) (run' code)) (method : UInt32) (hthis : p.good this)
    (hargs : ∀ r ∈ args, p.good r) :
    Concur A p.holds p.good (runMethod run method this args) (runMethod run' method this args) := by
  refine .bind (obeys_compile method) fun code _ => ?_
  cases code with
  | none => exact obeys_simple ⟨rfl, rfl⟩
  | some code =>
    refine .bind .get fun m _ => ?_
    split
    · exact obeys_simple ⟨rfl, rfl⟩
    · rename_i body _
      refine .bind (.within _ fun _ => references_create) fun f hf => ?_
      have hgood : ∀ r ∈ f.references, p.good r := by
        rw [hf]
        exact List.forall_mem_cons.mpr ⟨hthis, hargs⟩
      exact concur_inFrame hgood (hrun code.code)

theorem concurAt_enter {run run' : Threaded → FrameM Unit} (hi : p.Invokes A i j)
    (hrun : ∀ code, Concur A p.Fair (fun _ => True) (run code) (run' code)) (callee : Callee) (hm : p.holds m)
    (hcopy : ∀ name, callee = .construction name → m.classes[name]? = some .builtin →
      ∀ r, (m.store.get m.global).properties[name]? = some r → p.good r)
    (hthis : p.good this) (hargs : ∀ r ∈ args, p.good r) :
    ConcurAt A p.holds p.good m (enter i run callee this args) (enter j run' callee this args) := by
  cases callee with
  | code callable =>
    cases callable with
    | method method => exact concur_runMethod hrun method hthis hargs m hm
    | builtin f => exact obeys_callBuiltin f hargs m hm
    | host f => exact (p.functions hm f this args hthis hargs).concur_run (concur_answer hi) m hm
  | construction name => exact concurAt_buildNamed hi hm (hcopy name rfl) hthis hargs

/-- Under a policy, callees do the same whichever watch there is. -/
theorem invokes_callWatched (hw : p.Watches A v w) (fuel : Nat) :
    p.Invokes A (callWatched v fuel) (callWatched w fuel) := by
  induction fuel with
  | zero => exact fun _ _ _ _ _ => .throw _
  | succ fuel ih =>
    intro callee this args hthis hargs m hm
    refine concurAt_unlessStopped hm (hw.call m callee this args hm hthis hargs) fun hv => ?_
    refine concurAt_enter ih (fun code => FrameM.concur_runWatched hw ih code fuel 0) callee hm ?_ hthis hargs
    rintro name rfl
    exact hw.copies m name this args hm hv

theorem watches_idle (h : ∀ r, p.good r) : p.Watches A .idle .idle where
  step _ _ _ := .inl rfl
  call _ _ _ _ _ _ _ := .inl rfl
  slots _ _ _ _ _ r _ := h r
  copies _ _ _ _ _ _ _ r _ := h r

theorem invokes_execute (h : ∀ r, p.good r) (fuel : Nat) : p.Invokes A (execute fuel) (execute fuel) := by
  rw [← callWatched_idle]
  exact invokes_callWatched (watches_idle h) fuel

end MachineM

end Policy

def Limits.none : Limits where
  good _ := True
  defers _ := True
  begins _ := True

theorem ObjectRequest.within_none (q : ObjectRequest) : q.Within .none := by
  cases q with
  | make v =>
    cases hv : v.deferred? with
    | none => exact .inl ⟨hv, fun _ _ => trivial⟩
    | some init =>
      cases v with
      | deferred init => exact .inr ⟨init, rfl, trivial⟩
      | _ => cases hv
  | setItems r items => exact fun _ _ => trivial
  | capture f receiver => exact fun _ _ => trivial
  | _ => exact trivial

theorem Request.within_none (q : Request) : q.Within .none := by
  cases q with
  | object q => exact q.within_none
  | callMethod method this args => exact ⟨trivial, fun _ _ => trivial⟩
  | callFunction f this args => exact ⟨trivial, fun _ _ => trivial⟩
  | buildNamed name base args => exact ⟨trivial, fun _ _ => trivial⟩
  | buildTraits r traits init => exact fun _ _ => trivial
  | _ => exact trivial

theorem Embedding.within_none (e : Embedding) : e.Within .none :=
  fun _ _ _ _ _ => Dialogue.obliges_of_all Request.within_none (fun _ => trivial) _

def Policy.anything : Policy where
  toLimits := .none
  holds _ := True
  change _ _ := trivial
  reads _ _ := ⟨fun _ => trivial, fun _ _ => trivial, fun _ _ => trivial⟩
  good_global _ := trivial
  functions _ := Embedding.within_none _

def rings (alarm : Stop) : EStateM.Result Stop σ α → Bool
  | .ok .. => false
  | .error stop _ => stop = alarm

theorem exists_silent (result : EStateM.Result Stop σ α) : ∃ alarm, rings alarm result = false := by
  cases result with
  | ok => exact ⟨.outOfFuel, rfl⟩
  | error stop =>
    cases stop with
    | fault f => exact ⟨.outOfFuel, rfl⟩
    | endless => exact ⟨.outOfFuel, rfl⟩
    | outOfFuel => exact ⟨.fault (.emptyPop 0), rfl⟩

theorem Comes.eq_of_silent {sound : Stop} {first second : EStateM.Result Stop σ α}
    (h : Comes (· = sound) P Q first second)
    (hs : rings sound first = false) : first = second := by
  cases h with
  | ok => rfl
  | error => rfl
  | alarm he => simp [rings, he] at hs

/-- A run comes to no bad moment: nothing changes if an alarm stops it there. -/
def MachineM.Avoids (bad : Moments) (fuel : Nat) (x : Invoke → MachineM α) (m : Machine) : Prop :=
  ∀ alarm, x (callWatched (.stopAt bad alarm) fuel) m = x (execute fuel) m

theorem MachineM.Avoids.congr {x y : Invoke → MachineM α} (h : Avoids bad fuel x m)
    (hxy : ∀ invoke, x invoke m = y invoke n) :
    Avoids bad fuel y n := by
  intro alarm
  rw [← hxy, ← hxy]
  exact h alarm

theorem stopAt_cases {bad : Bool} {alarm : Stop} {other : Option Stop} (h : bad = false → other = none) :
    (if bad then some alarm else none) = other ∨
      ∃ stop, (if bad then some alarm else none) = some stop ∧ stop = alarm := by
  cases bad with
  | true => exact .inr ⟨alarm, rfl, rfl⟩
  | false => exact .inl (h rfl).symm

theorem eq_false_of_stopAt {bad : Bool} {alarm : Stop} (h : (if bad then some alarm else none) = none) : bad = false := by
  cases bad with
  | true => cases h
  | false => rfl

theorem Policy.watches_stopAt {w : Watch} (hstep : ∀ a s, bad.step a s = false → w.step a s = none)
    (hcall : ∀ m callee this args, bad.call m callee this args = false → w.call m callee this args = none) :
    Policy.anything.Watches (· = alarm) (.stopAt bad alarm) w where
  step a s _ := stopAt_cases (hstep a s)
  call m callee this args _ _ _ := stopAt_cases (hcall m callee this args)
  slots _ _ _ _ _ _ _ := trivial
  copies _ _ _ _ _ _ _ _ _ := trivial

theorem MachineM.Avoids.of_silent {x : Invoke → MachineM α} (alarm : Stop)
    (hx : ∀ {A i j}, Policy.anything.Invokes A i j → Concur A (fun _ => True) Q (x i) (x j))
    (h : rings alarm (x (callWatched (.stopAt bad alarm) fuel) m) = false) : Avoids bad fuel x m := by
  have hsame (w : Watch) (hstep : ∀ a s, bad.step a s = false → w.step a s = none)
      (hcall : ∀ m callee this args, bad.call m callee this args = false → w.call m callee this args = none) :
      x (callWatched (.stopAt bad alarm) fuel) m = x (callWatched w fuel) m :=
    (hx (invokes_callWatched (Policy.watches_stopAt hstep hcall) fuel) m trivial).eq_of_silent h
  intro other
  rw [← callWatched_idle, ← hsame .idle (fun _ _ _ => rfl) fun _ _ _ _ _ => rfl]
  refine (hsame (.stopAt bad other) (fun a s hb => ?_) fun m callee this args hb => ?_).symm
  · simp [Watch.stopAt, hb]
  · simp [Watch.stopAt, hb]

end ActionVm
