import ActionVm.Proofs.Event.Exit

namespace ActionVm

theorem Queue.receive_eq_blocks {q : Queue} : q.receive = .blocks ↔ q.events = [] ∧ q.closed = false := by
  rw [← tryReceive_eq_none, receive]
  split
  · rename_i h
    simp [h]
  · rename_i h
    cases q.closed <;> simp [h]

namespace Worker

/-- Short of a panic there is only one thing for a worker to do. -/
theorem advance_of_does {w next : Worker σ} (hw : w.Does deed next) (hd : ∀ inHand, deed ≠ .panic inHand) :
    w.advance = some next := by
  cases hw with
  | boot hp hr => simp [advance, hp, boot, hr]
  | receive hp hr => simp [advance, hp, hr]
  | handle hp hr => simp [advance, hp, complete, hr]
  | panicStarting | panicHandling => exact absurd rfl (hd _)
  | leave hp hr => simp [advance, hp, hr]
  | close hp => simp [advance, hp]
  | drop hp hr => simp [advance, hp, hr]
  | finish hp hr => simp [advance, hp, hr]

theorem advance_settle (w : Worker σ) : w.settle.advance = none := by
  fun_induction settle w with
  | case1 w h => exact h
  | case2 w next h ih => exact ih

theorem settled_cases {w : Worker σ} (h : w.advance = none) :
    w.phase = .waiting ∧ w.queue.events = [] ∧ w.queue.closed = false ∨ ∃ how, w.phase = .ended how := by
  unfold advance at h
  split at h
  · cases h
  · rename_i hp
    split at h
    · cases h
    · cases h
    · rename_i hr
      exact .inl ⟨hp, Queue.receive_eq_blocks.mp hr⟩
  · cases h
  · cases h
  · split at h <;> cases h
  · rename_i how hp
    exact .inr ⟨how, hp⟩

theorem post_closed {w : Worker σ} (hc : w.queue.closed = true) (e : Event) : w.post e = .error .gone := by
  simp [post, Queue.post, Queue.accept, hc, Except.map]

end Worker

theorem Exiting.not_holds_settled {w : Worker σ} (h : Exiting w) (hw : w.advance = none) (ticket : Nat) :
    ¬w.Holds ticket := by
  obtain ⟨hp, hevents, -⟩ | ⟨how, he⟩ := Worker.settled_cases hw
  · rintro (hm | hp')
    · rw [hevents] at hm
      cases hm
    · cases hp.symm.trans hp'
  · exact h.not_holds he ticket

namespace Parties

variable {P : Type} [DecidableEq P]

theorem Run.settle (s : Parties P σ) (w : Worker σ) :
    ∃ deeds : List Deed, Run { s with worker := w } (deeds.map .worker) { s with worker := w.settle } := by
  fun_induction Worker.settle w with
  | case1 w h => exact ⟨[], .nil⟩
  | case2 w next h ih =>
    obtain ⟨deed, hd⟩ := Worker.does_advance h
    obtain ⟨deeds, hr⟩ := ih
    exact ⟨deed :: deeds, .cons (.worker hd) hr⟩

theorem Step.closed {s t : Parties P σ} (hs : Step s move t) (h : s.worker.queue.closed = true) :
    t.worker.queue.closed = true := by
  cases hs with
  | worker hw =>
    cases hw with
    | receive _ hr =>
      obtain ⟨-, hq⟩ := Queue.receive_eq_event.mp hr
      rw [hq]
      exact h
    | drop _ hr =>
      obtain ⟨-, hq⟩ := Queue.tryReceive_eq_some.mp hr
      rw [hq]
      exact h
    | handle => rwa [Worker.queue_acknowledge]
    | close => rfl
    | boot | panicStarting | panicHandling | leave | finish => exact h
  | accept _ _ hq => cases h.symm.trans (Queue.accept_eq_ok.mp hq).1
  | refuse | count | acknowledged | abandoned => exact h
  | close => rfl

theorem Run.closed {s t : Parties P σ} (hr : Run s trace t) (h : s.worker.queue.closed = true) :
    t.worker.queue.closed = true := by
  induction hr with
  | nil => exact h
  | snoc _ hs ih => exact hs.closed ih

theorem Run.shutdown_not_handled {s : Parties P σ} (h : Run (start machine host) trace s)
    (hs : s.worker.phase.isActive = true) : .shutdown ∉ handled trace := by
  intro hm
  obtain ⟨before, rest, rfl⟩ := List.append_of_mem (mem_handled.mp hm)
  obtain ⟨t, u, -, hstep, hrest⟩ := h.around
  obtain ⟨-, hu⟩ := hstep.shutdown
  obtain ⟨hinactive, -, -⟩ := hrest.inactive hu
  cases hs.symm.trans hinactive

theorem Run.post {s : Parties P σ} (hp : s.callers p = .free) (ht : ∀ ticket, e = .sync ticket → s.tickets ≤ ticket)
    (hc : s.worker.queue.closed = false) :
    ∃ t, s.worker.post e = .ok t.worker ∧ t.callers p = .behind e ∧ Run s [.accept p e, .count p] t := by
  have hq : s.worker.queue.accept e = .ok { s.worker.queue with events := s.worker.queue.events ++ [e] } :=
    Queue.accept_eq_ok.mpr ⟨hc, rfl⟩
  refine ⟨_, ?_, Function.update_self .., .cons (.accept hp ht hq) (.one (.count (Function.update_self ..)))⟩
  simp [Worker.post, Queue.post, hq, Except.map]
  rfl

/-- A caller that lets its worker settle is answered as in a run. -/
theorem Run.sync {s : Parties P σ} (h : Run (start machine host) trace s) (hp : s.callers p = .free)
    (ht : s.tickets ≤ s.worker.queue.posted) (hc : s.worker.queue.closed = false) :
    ∃ (deeds : List Deed) (t : Parties P σ), t.worker = s.worker.sync.1 ∧ t.callers p = .free ∧
      Run s ([.accept p (.sync s.worker.queue.posted), .count p] ++ deeds.map .worker ++
        [.answer p s.worker.queue.posted s.worker.sync.2]) t := by
  obtain ⟨t, hpost, hwaits, hr⟩ := Run.post hp (e := .sync s.worker.queue.posted) (by rintro _ ⟨⟩; exact ht) hc
  obtain ⟨deeds, hsettle⟩ := Run.settle t t.worker
  have hsync : s.worker.sync = (t.worker.settle, t.worker.settle.verdict s.worker.queue.posted) := by
    simp [Worker.sync, hpost]
  have hexit := ((h.append hr).append hsettle).exiting
  have hanswer := Step.answer (s := { t with worker := t.worker.settle }) hwaits
    (hexit.not_holds_settled t.worker.advance_settle _)
  rw [hsync]
  exact ⟨deeds, _, rfl, Function.update_self .., (hr.append hsettle).snoc hanswer⟩

theorem Run.ended_of_settled {s : Parties P σ} (h : Run (start machine host) trace s) (hs : s.worker.advance = none)
    (hasked : .shutdown ∈ accepted trace ∨ s.worker.queue.closed = true) : ∃ how, s.worker.phase = .ended how := by
  obtain ⟨hp, hevents, hopen⟩ | hended := Worker.settled_cases hs
  · have hactive : s.worker.phase.isActive = true := by
      rw [hp]
      rfl
    obtain hm | hclosed := hasked
    · obtain ⟨hlost, hdropped⟩ := h.served.active hactive
      have hall : accepted trace = handled trace := by
        rw [h.served.conserved, h.served.inHand, hlost, hdropped, hevents, hp]
        simp [Phase.inHand]
      rw [hall] at hm
      exact absurd hm (h.shutdown_not_handled hactive)
    · cases hopen.symm.trans hclosed
  · exact hended

theorem Run.shutdown {s : Parties P σ} (h : Run (start machine host) trace s) (hp : s.callers p = .free) :
    ∃ (moves : List (Move P)) (t : Parties P σ), t.worker = s.worker.shutdown.1 ∧
      (∃ how, t.worker.phase = .ended how) ∧ Run s moves t := by
  cases hc : s.worker.queue.closed with
  | false =>
    obtain ⟨t, hpost, -, hr⟩ := Run.post hp (e := .shutdown) nofun hc
    obtain ⟨deeds, hsettle⟩ := Run.settle t t.worker
    have hshutdown : s.worker.shutdown.1 = t.worker.settle := by
      simp [Worker.shutdown, hpost, Except.toOption]
    rw [hshutdown]
    refine ⟨_, _, rfl, ?_, hr.append hsettle⟩
    apply (h.append (hr.append hsettle)).ended_of_settled t.worker.advance_settle
    simp [eventsOf_append, Move.accepted?]
  | true =>
    obtain ⟨deeds, hsettle⟩ := Run.settle s s.worker
    have hshutdown : s.worker.shutdown.1 = s.worker.settle := by
      simp [Worker.shutdown, Worker.post_closed hc, Except.toOption]
    rw [hshutdown]
    refine ⟨_, _, rfl, ?_, hsettle⟩
    exact (h.append hsettle).ended_of_settled s.worker.advance_settle (.inr (hsettle.closed hc))

end Parties

end ActionVm
