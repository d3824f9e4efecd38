import ActionVm.Proofs.Event.Order

namespace ActionVm

/-- What a worker that ends has done to its queue. -/
structure Exiting (w : Worker σ) : Prop where
  closed : w.phase.hasClosed = true → w.queue.closed = true
  drained : ∀ how, w.phase = .ended how → w.queue.events = []

namespace Exiting

variable {w next : Worker σ}

theorem of_open (h : w.phase.hasClosed = false) : Exiting w where
  closed := by
    rw [h]
    exact nofun
  drained how he := by
    rw [he] at h
    cases h

theorem does (h : Exiting w) (hw : w.Does deed next) : Exiting next := by
  cases hw with
  | boot | receive | panicStarting | panicHandling | leave => exact of_open rfl
  | @handle _ _ goOn => cases goOn <;> exact of_open rfl
  | close => exact ⟨fun _ => rfl, nofun⟩
  | drop hp hr =>
    obtain ⟨-, hq⟩ := Queue.tryReceive_eq_some.mp hr
    have hclosed := h.closed (by rw [hp]; rfl)
    refine ⟨fun _ => by rw [hq]; exact hclosed, fun how he => ?_⟩
    cases hp.symm.trans he
  | finish hp hr =>
    have hclosed := h.closed (by rw [hp]; rfl)
    exact ⟨fun _ => hclosed, fun _ _ => Queue.tryReceive_eq_none.mp hr⟩

theorem accept (h : Exiting w) (hq : w.queue.accept e = .ok q) : w.phase.hasClosed = false := by
  obtain ⟨hopen, -⟩ := Queue.accept_eq_ok.mp hq
  cases hc : w.phase.hasClosed with
  | false => rfl
  | true => cases hopen.symm.trans (h.closed hc)

theorem step [DecidableEq P] {s t : Parties P σ} (h : Exiting s.worker) (hs : s.Step move t) : Exiting t.worker := by
  cases hs with
  | worker hw => exact h.does hw
  | accept _ _ hq => exact of_open (h.accept hq)
  | refuse | acknowledged | abandoned => exact h
  | count => exact ⟨h.closed, h.drained⟩
  | close => exact ⟨fun _ => rfl, h.drained⟩

theorem not_holds (h : Exiting w) (he : w.phase = .ended how) (ticket : Nat) :
    ¬w.Holds ticket := by
  rintro (hm | hp)
  · rw [h.drained how he] at hm
    cases hm
  · cases he.symm.trans hp

end Exiting

theorem Worker.verdict_cases (w : Worker σ) (ticket : Nat) :
    w.verdict ticket = .ok () ∨ w.verdict ticket = .error .gone := by
  unfold verdict
  split
  · exact .inl rfl
  · exact .inr rfl

theorem Worker.Does.not_ended {w next : Worker σ} (hw : w.Does deed next) (how : Ending) :
    w.phase ≠ .ended how := by
  intro he
  cases hw with
  | boot hp | receive hp | handle hp | panicStarting hp | panicHandling hp | leave hp | close hp | drop hp
  | finish hp => cases hp.symm.trans he

namespace Parties

variable {P : Type} [DecidableEq P]

theorem Run.exiting {s : Parties P σ} (h : Run (start machine host) trace s) : Exiting s.worker := by
  induction h with
  | nil => exact .of_open rfl
  | snoc _ hs ih => exact ih.step hs

theorem Step.ended {s t : Parties P σ} (hs : Step s move t) (h : Exiting s.worker)
    (he : s.worker.phase = .ended how) : t.worker.phase = .ended how ∧ move.accepted? = none := by
  cases hs with
  | worker hw => exact absurd he (hw.not_ended how)
  | accept _ _ hq =>
    have hopen := h.accept hq
    rw [he] at hopen
    cases hopen
  | refuse | count | acknowledged | abandoned | close => exact ⟨he, rfl⟩

theorem Run.ended {s t : Parties P σ} (hr : Run s more t) (h : Exiting s.worker) (he : s.worker.phase = .ended how) :
    Exiting t.worker ∧ t.worker.phase = .ended how ∧ accepted more = [] := by
  induction hr with
  | nil => exact ⟨h, he, rfl⟩
  | snoc _ hs ih =>
    obtain ⟨hexit, hended, hnone⟩ := ih
    obtain ⟨hended', hmove⟩ := hs.ended hexit hended
    refine ⟨hexit.step hs, hended', ?_⟩
    simp [hnone, hmove]

/-- A caller is answered when nobody is left who could acknowledge its ticket. -/
theorem Step.answer {s : Parties P σ} (hp : s.callers p = .waiting ticket) (hh : ¬s.worker.Holds ticket) :
    Step s (.answer p ticket (s.worker.verdict ticket)) (s.withCaller p .free) := by
  unfold Worker.verdict
  split
  · rename_i ha
    exact .acknowledged hp (List.contains_iff_mem.mp ha)
  · rename_i ha
    exact .abandoned hp (fun hm => ha (List.contains_iff_mem.mpr hm)) hh

theorem Run.answer {s : Parties P σ} (hp : (s.callers p).event? = some (.sync ticket)) (hh : ¬s.worker.Holds ticket) :
    ∃ own r t, (own = [] ∨ own = [.count p]) ∧ (r = .ok () ∨ r = .error .gone) ∧
      Run s (own ++ [.answer p ticket r]) t ∧ t.callers p = .free := by
  have hfree (s : Parties P σ) : (s.withCaller p .free).callers p = .free := Function.update_self ..
  cases hc : s.callers p with
  | free =>
    rw [hc] at hp
    cases hp
  | waiting other =>
    rw [hc] at hp
    cases hp
    exact ⟨[], _, _, .inl rfl, s.worker.verdict_cases ticket, .one (.answer hc hh), hfree s⟩
  | posting e =>
    rw [hc] at hp
    cases hp
    have hwaits : ((s.withQueue s.worker.queue.count).withCaller p (.waiting ticket)).callers p = .waiting ticket :=
      Function.update_self ..
    exact ⟨[.count p], _, _, .inr rfl, Worker.verdict_cases _ ticket, .cons (.count hc) (.one (.answer hwaits hh)),
      hfree _⟩

theorem Step.refused {s : Parties P σ} (hp : s.callers p = .free) (hc : s.worker.queue.closed = true) (e : Event) :
    Step s (.refuse p e) s :=
  .refuse hp (by simp [Queue.accept, hc])

/-- Once a worker has ended, its queue is closed and empty for good. What was accepted with a ticket was
acknowledged, lost in a panic or dropped, and everyone who has a ticket under way can be answered. -/
theorem ended_worker_strands_no_caller {s : Parties P σ} (h : Run (start machine host) trace s)
    (he : s.worker.phase = .ended how) :
    (∀ more t, Run s more t → t.worker.phase = .ended how ∧ t.worker.queue.closed = true ∧
      t.worker.queue.events = [] ∧ accepted more = [] ∧
      ∀ p e, t.callers p = .free → Step t (.refuse p e) t) ∧
    (∀ ticket, .sync ticket ∈ accepted trace →
      ticket ∈ s.worker.acknowledged ∨ .sync ticket ∈ lost trace ∨ .sync ticket ∈ dropped trace) ∧
    (∀ p ticket, (s.callers p).event? = some (.sync ticket) → ¬s.worker.Holds ticket ∧
      ∃ own r t, (own = [] ∨ own = [.count p]) ∧ (r = .ok () ∨ r = .error .gone) ∧
        Run s (own ++ [.answer p ticket r]) t ∧ t.callers p = .free) := by
  have hexit := h.exiting
  refine ⟨?_, ?_, ?_⟩
  · intro more t hr
    obtain ⟨hexit', hended, hnone⟩ := hr.ended hexit he
    have hclosed := hexit'.closed (by rw [hended]; rfl)
    exact ⟨hended, hclosed, hexit'.drained how hended, hnone, fun p e hp => .refused hp hclosed e⟩
  · intro ticket hm
    have hs := h.served
    rw [hs.conserved, hexit.drained how he, hs.inHand, he] at hm
    simpa [Phase.inHand, hs.acknowledged, or_assoc] using hm
  · intro p ticket hp
    have hh := hexit.not_holds he ticket
    exact ⟨hh, Run.answer hp hh⟩

def desertion : List (Move Bool) :=
  [.accept false (.sync 0), .accept true (.sync 1), .worker .boot, .count true, .worker (.receive (.sync 0)),
    .worker (.panic (some (.sync 0))), .worker .close, .worker (.drop (.sync 1)), .worker .finish]

theorem run_desertion : ∃ s : Parties Bool Unit, s.worker.phase = .ended .failed ∧ s.callers true = .waiting 1 ∧
    Run (start (.bare {} {}) (.silent ())) desertion s := by
  apply Exists.intro
  apply And.intro
  case right =>
    apply And.intro
    case right =>
      unfold desertion
      apply Run.cons (.accept rfl (by simp [start]) rfl)
      apply Run.cons (.accept rfl (by simp [ticketsBehind]) rfl)
      apply Run.cons (.worker (.boot rfl rfl))
      apply Run.cons (.count rfl)
      apply Run.cons (.worker (.receive rfl rfl))
      apply Run.cons (.worker (.panicHandling (m := .bare {} {}) (x := ()) rfl))
      apply Run.cons (.worker (.close rfl))
      apply Run.cons (.worker (.drop rfl rfl))
      apply Run.cons (.worker (.finish rfl rfl))
      exact .nil
    case left => rfl
  case left => rfl

theorem desertion_strands_no_caller : ∃ s : Parties Bool Unit, Run (start (.bare {} {}) (.silent ())) desertion s ∧
    ∃ own r t, (r = .ok () ∨ r = .error .gone) ∧ Run s (own ++ [.answer true 1 r]) t ∧
      t.callers true = .free := by
  obtain ⟨s, he, hp, h⟩ := run_desertion
  obtain ⟨-, -, hanswer⟩ := ended_worker_strands_no_caller h he
  obtain ⟨-, own, r, t, -, hr, ht⟩ := hanswer true 1 (by rw [hp]; rfl)
  exact ⟨s, h, own, r, t, hr, ht⟩

end Parties

end ActionVm
