import ActionVm.Proofs.Event.Parties
import ActionVm.Proofs.Program
import Mathlib.Data.Finset.Card
import Mathlib.Data.List.Basic

namespace ActionVm

namespace Queue

theorem accept_eq_ok {q r : Queue} :
    q.accept e = .ok r ↔ q.closed = false ∧ r = { q with events := q.events ++ [e] } := by
  obtain ⟨events, closed, posted⟩ := q
  cases closed with
  | true => simp [accept]
  | false => simp [accept, eq_comm]

theorem tryReceive_eq_some {q r : Queue} :
    q.tryReceive = some (e, r) ↔ q.events = e :: r.events ∧ r = { q with events := r.events } := by
  obtain ⟨events, closed, posted⟩ := q
  obtain ⟨events', closed', posted'⟩ := r
  cases events with
  | nil => simp [tryReceive]
  | cons e' rest => simp [tryReceive]; grind

theorem tryReceive_eq_none {q : Queue} : q.tryReceive = none ↔ q.events = [] := by
  obtain ⟨events, closed, posted⟩ := q
  cases events <;> simp [tryReceive]

theorem receive_eq_event {q r : Queue} :
    q.receive = .event e r ↔ q.events = e :: r.events ∧ r = { q with events := r.events } := by
  rw [← tryReceive_eq_some, receive]
  split
  · rename_i h
    simp [h]
  · rename_i h
    split <;> simp [h]

end Queue

theorem MachineM.goOn_of_handle (h : handle host e m = .ok (goOn, told) m') : goOn = true ↔ e ≠ .shutdown := by
  cases e with
  | bind b =>
    obtain ⟨placed, _, -, h⟩ := bind_eq_ok.mp h
    obtain ⟨he, -⟩ := pure_eq_ok.mp h
    cases he
    simp
  | dispatch target type =>
    obtain ⟨_, _, -, h⟩ := bind_eq_ok.mp h
    obtain ⟨he, -⟩ := pure_eq_ok.mp h
    cases he
    simp
  | sync ticket =>
    obtain ⟨he, -⟩ := pure_eq_ok.mp h
    cases he
    simp
  | shutdown =>
    obtain ⟨he, -⟩ := pure_eq_ok.mp h
    cases he
    simp

variable {P : Type}

/-- The moves that were made, seen from the worker: what the queue took was received, or dropped, or is
still there, and what was received was handled, or lost in a panic, or is in hand. -/
structure Served (trace : List (Move P)) (w : Worker σ) : Prop where
  conserved : accepted trace = received trace ++ dropped trace ++ w.queue.events
  inHand : received trace = handled trace ++ lost trace ++ w.phase.inHand.toList
  active : w.phase.isActive = true → lost trace = [] ∧ dropped trace = []
  acknowledged : ∀ ticket, ticket ∈ w.acknowledged ↔ .sync ticket ∈ handled trace

namespace Served

theorem start (machine : Machine) (host : Host σ) : Served ([] : List (Move P)) { machine, host } where
  conserved := rfl
  inHand := rfl
  active _ := ⟨rfl, rfl⟩
  acknowledged _ := by simp

theorem silent {w next : Worker σ} {trace : List (Move P)} (h : Served trace w) (hm : move.IsSilent)
    (hevents : next.queue.events = w.queue.events) (hhand : next.phase.inHand = w.phase.inHand)
    (hactive : next.phase.isActive = true → w.phase.isActive = true)
    (hack : next.acknowledged = w.acknowledged) : Served (trace ++ [move]) next := by
  obtain ⟨ha, hr, hh, hd, hl⟩ := hm
  constructor
  · simpa [ha, hr, hd, hevents] using h.conserved
  · simpa [hr, hh, hl, hhand] using h.inHand
  · simpa [hl, hd] using fun hn => h.active (hactive hn)
  · simpa [hh, hack] using h.acknowledged

theorem accept {w : Worker σ} {trace : List (Move P)} (h : Served trace w) (hq : w.queue.accept e = .ok q) :
    Served (trace ++ [.accept p e]) { w with queue := q } := by
  obtain ⟨-, rfl⟩ := Queue.accept_eq_ok.mp hq
  constructor
  · simp [Move.accepted?, Move.received?, Move.dropped?, h.conserved]
  · simpa [Move.received?, Move.handled?, Move.lost?] using h.inHand
  · simpa [Move.lost?, Move.dropped?] using h.active
  · simpa [Move.handled?] using h.acknowledged

theorem receive {w : Worker σ} {trace : List (Move P)} (h : Served trace w) (hp : w.phase = .waiting)
    (hr : w.queue.receive = .event e q) :
    Served (trace ++ [.worker (.receive e)]) { w with queue := q, phase := .handling e } := by
  obtain ⟨hevents, -⟩ := Queue.receive_eq_event.mp hr
  have hactive := h.active (by rw [hp]; rfl)
  constructor
  · simpa [Move.accepted?, Move.received?, Move.dropped?, hactive.2, hevents] using h.conserved
  · simp [Move.received?, Move.handled?, Move.lost?, Phase.inHand, hp, h.inHand]
  · simpa [Move.lost?, Move.dropped?] using fun _ => hactive
  · simpa [Move.handled?] using h.acknowledged

theorem handle {w next : Worker σ} {trace : List (Move P)} (h : Served trace w) (hp : w.phase = .handling e)
    (hqueue : next.queue = w.queue) (hhand : next.phase.inHand = none)
    (hack : next.acknowledged = (w.acknowledge e).acknowledged) :
    Served (trace ++ [.worker (.handle e)]) next := by
  have hactive := h.active (by rw [hp]; rfl)
  have hlast : received trace = handled trace ++ [e] := by
    simpa [hp, Phase.inHand, hactive.1] using h.inHand
  constructor
  · simpa [Move.accepted?, Move.received?, Move.dropped?, hqueue] using h.conserved
  · simp [Move.received?, Move.handled?, Move.lost?, hhand, hactive.1, hlast]
  · simpa [Move.lost?, Move.dropped?] using fun _ => hactive
  · intro ticket
    rw [hack, Worker.mem_acknowledge, h.acknowledged]
    simp [Move.handled?, eq_comm]

theorem panic {w : Worker σ} {trace : List (Move P)} (h : Served trace w) (hp : w.phase = .handling e) :
    Served (trace ++ [.worker (.panic (some e))]) { w with machine := m, host, phase := .closing .failed } := by
  have hactive := h.active (by rw [hp]; rfl)
  constructor
  · simpa [Move.accepted?, Move.received?, Move.dropped?] using h.conserved
  · simpa [Move.received?, Move.handled?, Move.lost?, hp, Phase.inHand, hactive.1] using h.inHand
  · exact nofun
  · simpa [Move.handled?] using h.acknowledged

theorem drop {w : Worker σ} {trace : List (Move P)} (h : Served trace w) (hp : w.phase = .draining how)
    (hr : w.queue.tryReceive = some (e, q)) :
    Served (trace ++ [.worker (.drop e)]) { w with queue := q } := by
  obtain ⟨hevents, -⟩ := Queue.tryReceive_eq_some.mp hr
  constructor
  · simpa [Move.accepted?, Move.received?, Move.dropped?, hevents] using h.conserved
  · simpa [Move.received?, Move.handled?, Move.lost?] using h.inHand
  · simp [hp, Phase.isActive]
  · simpa [Move.handled?] using h.acknowledged

theorem does {w next : Worker σ} {trace : List (Move P)} (h : Served trace w) (hw : w.Does deed next) :
    Served (trace ++ [.worker deed]) next := by
  have inactive {phase : Phase} (hn : phase.isActive = false) : phase.isActive = true → w.phase.isActive = true := by
    rw [hn]
    exact nofun
  cases hw with
  | boot hp hr => exact h.silent ⟨rfl, rfl, rfl, rfl, rfl⟩ rfl (by rw [hp]; rfl) (by rw [hp]; exact id) rfl
  | receive hp hr => exact h.receive hp hr
  | @handle _ e goOn state m hp hr =>
    refine h.handle hp (Worker.queue_acknowledge w e) ?_ rfl
    cases goOn <;> rfl
  | panicStarting hp => exact h.silent ⟨rfl, rfl, rfl, rfl, rfl⟩ rfl (by rw [hp]; rfl) (inactive rfl) rfl
  | panicHandling hp => exact h.panic hp
  | leave hp hr => exact h.silent ⟨rfl, rfl, rfl, rfl, rfl⟩ rfl (by rw [hp]; rfl) (inactive rfl) rfl
  | close hp => exact h.silent ⟨rfl, rfl, rfl, rfl, rfl⟩ rfl (by rw [hp]; rfl) (inactive rfl) rfl
  | drop hp hr => exact h.drop hp hr
  | finish hp hr => exact h.silent ⟨rfl, rfl, rfl, rfl, rfl⟩ rfl (by rw [hp]; rfl) (inactive rfl) rfl

theorem step [DecidableEq P] {s t : Parties P σ} {trace : List (Move P)} (h : Served trace s.worker)
    (hs : s.Step move t) : Served (trace ++ [move]) t.worker := by
  cases hs with
  | worker hw => exact h.does hw
  | accept _ _ hq => exact h.accept hq
  | refuse | count | acknowledged | abandoned | close =>
    exact h.silent ⟨rfl, rfl, rfl, rfl, rfl⟩ rfl rfl id rfl

theorem received_isPrefix {w : Worker σ} {trace : List (Move P)} (h : Served trace w) :
    received trace <+: accepted trace := by
  rw [h.conserved, List.append_assoc]
  exact List.prefix_append _ _

theorem handled_isPrefix {w : Worker σ} {trace : List (Move P)} (h : Served trace w) :
    handled trace <+: received trace := by
  rw [h.inHand, List.append_assoc]
  exact List.prefix_append _ _

/-- While an event is in hand, exactly the events that were received before it are handled. -/
theorem handling {w : Worker σ} {trace : List (Move P)} (h : Served trace w) (hp : w.phase = .handling e) :
    received trace = handled trace ++ [e] ∧ accepted trace = handled trace ++ e :: w.queue.events := by
  obtain ⟨hlost, hdropped⟩ := h.active (by rw [hp]; rfl)
  have hreceived : received trace = handled trace ++ [e] := by
    simpa [hlost, hp, Phase.inHand] using h.inHand
  refine ⟨hreceived, ?_⟩
  simpa [hdropped, hreceived] using h.conserved

end Served

namespace Worker.Does

theorem serving {w next : Worker σ} (hw : w.Does deed next) (h : next.phase.isServing = true) :
    deed = .boot ∨ w.phase.isServing = true := by
  cases hw with
  | boot => exact .inl rfl
  | receive hp => exact .inr (by rw [hp]; rfl)
  | handle hp => exact .inr (by rw [hp]; rfl)
  | drop => exact .inr h
  | panicStarting | panicHandling | leave | close | finish => cases h

theorem posted {w next : Worker σ} (hw : w.Does deed next) : next.queue.posted = w.queue.posted := by
  cases hw with
  | receive _ hr =>
    obtain ⟨-, hq⟩ := Queue.receive_eq_event.mp hr
    rw [hq]
  | drop _ hr =>
    obtain ⟨-, hq⟩ := Queue.tryReceive_eq_some.mp hr
    rw [hq]
  | handle => rw [queue_acknowledge]
  | boot | panicStarting | panicHandling | leave | close | finish => rfl

theorem inactive {w next : Worker σ} (hw : w.Does deed next) (h : w.phase.isActive = false) :
    next.phase.isActive = false ∧ (Move.worker deed : Move P).received? = none ∧
      (Move.worker deed : Move P).handled? = none := by
  cases hw with
  | boot hp | receive hp | handle hp | panicStarting hp | panicHandling hp | leave hp =>
    rw [hp] at h
    cases h
  | close | finish => exact ⟨rfl, rfl, rfl⟩
  | drop => exact ⟨h, rfl, rfl⟩

end Worker.Does

def Caller.event? : Caller → Option Event
  | free => none
  | posting e => some e
  | waiting ticket => some (.sync ticket)

theorem Caller.event?_behind (h : (behind e).event? = some e') : e' = e := by
  cases e <;> cases h
  rfl

namespace Parties

section

variable [DecidableEq P]

theorem Run.served {s : Parties P σ} (h : Run (start machine host) trace s) : Served trace s.worker := by
  induction h with
  | nil => exact .start machine host
  | snoc _ hs ih => exact ih.step hs

theorem Step.serving {s t : Parties P σ} (hs : Step s move t) (h : t.worker.phase.isServing = true) :
    move = .worker .boot ∨ s.worker.phase.isServing = true := by
  cases hs with
  | worker hw =>
    obtain rfl | hserving := hw.serving h
    · exact .inl rfl
    · exact .inr hserving
  | accept | refuse | count | acknowledged | abandoned | close => exact .inr h

theorem Run.booted {s : Parties P σ} (h : Run (start machine host) trace s)
    (hs : s.worker.phase.isServing = true) : .worker .boot ∈ trace := by
  induction h with
  | nil => cases hs
  | snoc _ hstep ih =>
    obtain rfl | ht := hstep.serving hs
    · exact List.mem_append_right _ List.mem_cons_self
    · exact List.mem_append_left _ (ih ht)

theorem Step.inactive {s t : Parties P σ} (hs : Step s move t) (h : s.worker.phase.isActive = false) :
    t.worker.phase.isActive = false ∧ move.received? = none ∧ move.handled? = none := by
  cases hs with
  | worker hw => exact hw.inactive h
  | accept | refuse | count | acknowledged | abandoned | close => exact ⟨h, rfl, rfl⟩

theorem Run.inactive {s t : Parties P σ} (h : Run s trace t) (hs : s.worker.phase.isActive = false) :
    t.worker.phase.isActive = false ∧ received trace = [] ∧ handled trace = [] := by
  induction h with
  | nil => exact ⟨hs, rfl, rfl⟩
  | snoc _ hstep ih =>
    obtain ⟨ht, hreceived, hhandled⟩ := ih
    obtain ⟨hu, hr, hh⟩ := hstep.inactive ht
    refine ⟨hu, ?_, ?_⟩
    · simp [hreceived, hr]
    · simp [hhandled, hh]

theorem Step.tickets {s t : Parties P σ} (hs : Step s move t) :
    s.tickets ≤ t.tickets ∧
      ∀ ticket, move.accepted? = some (.sync ticket) → s.tickets ≤ ticket ∧ ticket < t.tickets := by
  cases hs with
  | worker | refuse | count | acknowledged | abandoned | close => exact ⟨Nat.le_refl _, nofun⟩
  | @accept _ p e _ _ ht =>
    cases e with
    | sync ticket =>
      have hfresh := ht ticket rfl
      refine ⟨Nat.le_succ_of_le hfresh, ?_⟩
      intro _ he
      cases he
      exact ⟨hfresh, Nat.lt_succ_self ticket⟩
    | bind | dispatch | shutdown => exact ⟨Nat.le_refl _, nofun⟩

theorem Run.tickets {s t : Parties P σ} (h : Run s trace t) :
    s.tickets ≤ t.tickets ∧ ∀ ticket, .sync ticket ∈ accepted trace → s.tickets ≤ ticket ∧ ticket < t.tickets := by
  induction h with
  | nil => exact ⟨Nat.le_refl _, nofun⟩
  | snoc _ hstep ih =>
    obtain ⟨hle, hbound⟩ := ih
    obtain ⟨hle', hbound'⟩ := hstep.tickets
    refine ⟨Nat.le_trans hle hle', ?_⟩
    intro ticket hm
    simp only [eventsOf_snoc, List.mem_append, Option.mem_toList] at hm
    obtain hm | hm := hm
    · obtain ⟨hlow, hhigh⟩ := hbound ticket hm
      exact ⟨hlow, Nat.lt_of_lt_of_le hhigh hle'⟩
    · obtain ⟨hlow, hhigh⟩ := hbound' ticket hm
      exact ⟨Nat.le_trans hle hlow, hhigh⟩

theorem callers_withCaller (s : Parties P σ) (p other : P) (c : Caller) :
    (s.withCaller p c).callers other = if other = p then c else s.callers other :=
  Function.update_apply s.callers p c other

theorem Step.called {s t : Parties P σ} (hs : Step s move t) (h : (t.callers p).event? = some e) :
    move = .accept p e ∨ (s.callers p).event? = some e := by
  cases hs with
  | worker | refuse | close => exact .inr h
  | @accept _ other e' q hp =>
    change ((s.withCaller other (.posting e')).callers p).event? = some e at h
    rw [callers_withCaller] at h
    split at h
    · rename_i heq
      subst heq
      cases h
      exact .inl rfl
    · exact .inr h
  | @count _ other e' hp =>
    change ((s.withCaller other (.behind e')).callers p).event? = some e at h
    rw [callers_withCaller] at h
    split at h
    · rename_i heq
      subst heq
      rw [hp, Caller.event?_behind h]
      exact .inr rfl
    · exact .inr h
  | acknowledged | abandoned =>
    rw [callers_withCaller] at h
    split at h
    · cases h
    · exact .inr h

theorem Run.called {s : Parties P σ} (h : Run (start machine host) trace s)
    (hs : (s.callers p).event? = some e) : .accept p e ∈ trace := by
  induction h with
  | nil => cases hs
  | snoc _ hstep ih =>
    obtain rfl | ht := hstep.called hs
    · exact List.mem_append_right _ List.mem_cons_self
    · exact List.mem_append_left _ (ih ht)

end

/-- Between the acceptance of an event and its counting there are the callers that are busy. -/
structure Counted (trace : List (Move P)) (s : Parties P σ) (busy : Finset P) : Prop where
  posting : ∀ p, p ∈ busy ↔ ∃ e, s.callers p = .posting e
  total : s.worker.queue.posted + busy.card = (accepted trace).length

namespace Counted

variable {busy : Finset P} {s t : Parties P σ} {trace : List (Move P)}

theorem start (machine : Machine) (host : Host σ) : Counted [] (start machine host : Parties P σ) ∅ where
  posting := by simp [Parties.start]
  total := rfl

theorem notMem (h : Counted trace s busy) (hp : ∀ e, s.callers p ≠ .posting e) : p ∉ busy := by
  intro hm
  obtain ⟨e, he⟩ := (h.posting p).mp hm
  exact hp e he

theorem same (h : Counted trace s busy) (hm : move.accepted? = none) (hc : t.callers = s.callers)
    (hq : t.worker.queue.posted = s.worker.queue.posted) : Counted (trace ++ [move]) t busy where
  posting := by rw [hc]; exact h.posting
  total := by simpa [hm, hq] using h.total

theorem accept [DecidableEq P] (h : Counted trace s busy) (hp : s.callers p = .free)
    (hc : t.callers = Function.update s.callers p (.posting e))
    (hq : t.worker.queue.posted = s.worker.queue.posted) :
    Counted (trace ++ [.accept p e]) t (insert p busy) where
  posting other := by
    by_cases heq : other = p
    · simp [heq, hc]
    · simpa [heq, hc] using h.posting other
  total := by
    have hfree : p ∉ busy := h.notMem (by simp [hp])
    simp [Move.accepted?, hq, Finset.card_insert_of_notMem hfree, ← h.total, Nat.add_assoc]

theorem erase_posting [DecidableEq P] (h : Counted trace s busy) (hn : ∀ e, c ≠ .posting e) :
    ∀ other, other ∈ busy.erase p ↔ ∃ e, Function.update s.callers p c other = .posting e := by
  intro other
  by_cases heq : other = p
  · simpa [heq] using hn
  · simpa [heq] using h.posting other

theorem count [DecidableEq P] (h : Counted trace s busy) (hp : s.callers p = .posting e)
    (hc : t.callers = Function.update s.callers p (.behind e))
    (hq : t.worker.queue.posted = s.worker.queue.posted + 1) :
    Counted (trace ++ [.count p]) t (busy.erase p) where
  posting := by
    rw [hc]
    exact h.erase_posting (by cases e <;> simp [Caller.behind])
  total := by
    have hbusy : p ∈ busy := (h.posting p).mpr ⟨e, hp⟩
    have hcard := Finset.card_erase_add_one hbusy
    have hsame : accepted (trace ++ [.count p]) = accepted trace := by simp [Move.accepted?]
    rw [hsame, ← h.total, hq]
    omega

theorem answer [DecidableEq P] (h : Counted trace s busy) (hp : s.callers p = .waiting ticket) :
    Counted (trace ++ [.answer p ticket r]) (s.withCaller p .free) busy where
  posting := by
    rw [← Finset.erase_eq_of_notMem (h.notMem (p := p) (by simp [hp]))]
    exact h.erase_posting (by simp)
  total := by simpa [Move.accepted?, withCaller] using h.total

theorem step [DecidableEq P] (h : Counted trace s busy) (hs : s.Step move t) :
    ∃ busy', Counted (trace ++ [move]) t busy' := by
  cases hs with
  | worker hw => exact ⟨busy, h.same rfl rfl hw.posted⟩
  | accept hp _ hq =>
    obtain ⟨-, rfl⟩ := Queue.accept_eq_ok.mp hq
    exact ⟨_, h.accept hp rfl rfl⟩
  | refuse => exact ⟨busy, h.same rfl rfl rfl⟩
  | count hp => exact ⟨_, h.count hp rfl rfl⟩
  | acknowledged hp => exact ⟨busy, h.answer hp⟩
  | abandoned hp => exact ⟨busy, h.answer hp⟩
  | close => exact ⟨busy, h.same rfl rfl rfl⟩

end Counted

theorem Run.counted [DecidableEq P] {s : Parties P σ} (h : Run (start machine host) trace s) :
    ∃ busy, Counted trace s busy := by
  induction h with
  | nil => exact ⟨∅, .start machine host⟩
  | snoc _ hs ih =>
    obtain ⟨busy, ih⟩ := ih
    exact ih.step hs

theorem mem_handled {trace : List (Move P)} : e ∈ handled trace ↔ .worker (.handle e) ∈ trace := by
  simp only [eventsOf, List.mem_filterMap]
  constructor
  · rintro ⟨move, hm, he⟩
    unfold Move.handled? at he
    split at he <;> cases he
    exact hm
  · intro hm
    exact ⟨_, hm, rfl⟩

section

variable [DecidableEq P]

theorem Run.booted_before_receive {s : Parties P σ}
    (h : Run (start machine host) (before ++ .worker (.receive e) :: rest) s) : .worker .boot ∈ before := by
  obtain ⟨t, _, hbefore, hstep, -⟩ := h.around
  cases hstep with
  | worker hw =>
    cases hw with
    | receive hp => exact hbefore.booted (by rw [hp]; rfl)

theorem Step.shutdown {s t : Parties P σ} (hs : Step s (.worker (.handle .shutdown)) t) :
    s.worker.phase = .handling .shutdown ∧ t.worker.phase.isActive = false := by
  cases hs with
  | worker hw =>
    cases hw with
    | @handle _ _ goOn _ _ hp hr =>
      have hstop : goOn = false := by
        have := MachineM.goOn_of_handle hr
        simpa using this
      subst hstop
      exact ⟨hp, rfl⟩

theorem Run.handled_at_shutdown {s : Parties P σ}
    (h : Run (start machine host) (before ++ .worker (.handle .shutdown) :: rest) s) :
    received rest = [] ∧ handled rest = [] ∧ handled before ++ [.shutdown] <+: accepted before := by
  obtain ⟨t, u, hbefore, hstep, hrest⟩ := h.around
  obtain ⟨hp, hu⟩ := hstep.shutdown
  obtain ⟨-, hreceived, hhandled⟩ := hrest.inactive hu
  refine ⟨hreceived, hhandled, ?_⟩
  rw [← (hbefore.served.handling hp).1]
  exact hbefore.served.received_isPrefix

theorem Run.ticket_fresh {s : Parties P σ}
    (h : Run (start machine host) (earlier ++ .accept p (.sync ticket) :: later) s) :
    .sync ticket ∉ accepted earlier ∧ .sync ticket ∉ accepted later := by
  obtain ⟨t, u, hearlier, hstep, hlater⟩ := h.around
  obtain ⟨hlow, hhigh⟩ := hstep.tickets.2 ticket rfl
  constructor
  · intro hm
    have := (hearlier.tickets.2 ticket hm).2
    omega
  · intro hm
    have := (hlater.tickets.2 ticket hm).1
    omega

/-- A caller that is answered has met the worker: when its ticket was acknowledged, exactly the events that
were accepted before its own had been handled, and its own was in hand. -/
theorem Run.rendezvous {s : Parties P σ}
    (h : Run (start machine host) (before ++ .answer p ticket (.ok ()) :: rest) s) :
    ∃ earlier between since : List (Move P),
      before = earlier ++ .accept p (.sync ticket) :: between ++ .worker (.handle (.sync ticket)) :: since ∧
      handled (earlier ++ .accept p (.sync ticket) :: between) = accepted earlier ∧
      received (earlier ++ .accept p (.sync ticket) :: between) = accepted earlier ++ [.sync ticket] := by
  obtain ⟨t, _, hbefore, hstep, -⟩ := h.around
  cases hstep with
  | acknowledged hp ha =>
    have haccept : .accept p (.sync ticket) ∈ before := hbefore.called (by rw [hp]; rfl)
    have hack : .sync ticket ∈ handled before := (hbefore.served.acknowledged ticket).mp ha
    obtain ⟨earlier, later, rfl⟩ := List.append_of_mem haccept
    obtain ⟨hfresh, hfresh'⟩ := hbefore.ticket_fresh
    have hhandle : .worker (.handle (.sync ticket)) ∈ later := by
      obtain ⟨u, _, hearlier, -, -⟩ := hbefore.around
      have hnot : .sync ticket ∉ handled earlier := fun hm =>
        hfresh (hearlier.served.received_isPrefix.subset (hearlier.served.handled_isPrefix.subset hm))
      rw [← mem_handled]
      simpa [eventsOf_append, Move.handled?, hnot] using hack
    obtain ⟨between, since, rfl⟩ := List.append_of_mem hhandle
    refine ⟨earlier, between, since, by simp, ?_⟩
    rw [← List.cons_append, ← List.append_assoc] at hbefore
    obtain ⟨u, _, hmet, hstep, -⟩ := hbefore.around
    cases hstep with
    | worker hw =>
      cases hw with
      | handle hp =>
        obtain ⟨hreceived, haccepted⟩ := hmet.served.handling hp
        have hsplit : accepted (earlier ++ .accept p (.sync ticket) :: between) =
            accepted earlier ++ .sync ticket :: accepted between := by
          simp [eventsOf_append, Move.accepted?]
        have hnot : .sync ticket ∉ accepted between := fun hm =>
          hfresh' (by simp [eventsOf_append, hm])
        rw [hsplit] at haccepted
        obtain ⟨heq, -, -⟩ := (List.append_cons_inj_of_notMem hfresh hnot).mp haccepted
        exact ⟨heq.symm, by rw [hreceived, heq]⟩

/-- Whatever the callers and the worker do in turn, events are handled once and in the order of their
acceptance, after the scripts and not beyond a shutdown; a caller that is answered has met the worker at
its own event, and nothing that was accepted is left out of the count. -/
theorem events_are_served_in_order {s : Parties P σ} (h : Run (start machine host) trace s) :
    handled trace <+: received trace ∧ received trace <+: accepted trace ∧
    accepted trace = received trace ++ dropped trace ++ s.worker.queue.events ∧
    (s.worker.phase.isActive = true →
      accepted trace = handled trace ++ s.worker.phase.inHand.toList ++ s.worker.queue.events) ∧
    (∀ (before rest : List (Move P)) e, trace = before ++ .worker (.receive e) :: rest → .worker .boot ∈ before) ∧
    (∀ before rest : List (Move P), trace = before ++ .worker (.handle .shutdown) :: rest →
      received rest = [] ∧ handled trace <+: accepted before) ∧
    (∀ (before rest : List (Move P)) p ticket, trace = before ++ .answer p ticket (.ok ()) :: rest →
      ∃ earlier between since : List (Move P),
        before = earlier ++ .accept p (.sync ticket) :: between ++ .worker (.handle (.sync ticket)) :: since ∧
        handled (earlier ++ .accept p (.sync ticket) :: between) = accepted earlier ∧
        received (earlier ++ .accept p (.sync ticket) :: between) = accepted earlier ++ [.sync ticket]) ∧
    ((∀ p e, s.callers p ≠ .posting e) → s.worker.queue.posted = (accepted trace).length) := by
  have hs := h.served
  refine ⟨hs.handled_isPrefix, hs.received_isPrefix, hs.conserved, ?_, ?_, ?_, ?_, ?_⟩
  · intro hactive
    obtain ⟨hlost, hdropped⟩ := hs.active hactive
    have hhand : received trace = handled trace ++ s.worker.phase.inHand.toList := by
      simpa [hlost] using hs.inHand
    rw [hs.conserved, hdropped, List.append_nil, hhand]
  · rintro before rest e rfl
    exact h.booted_before_receive
  · rintro before rest rfl
    obtain ⟨hreceived, hhandled, hbefore⟩ := h.handled_at_shutdown
    refine ⟨hreceived, ?_⟩
    simpa [eventsOf_append, Move.handled?, hhandled] using hbefore
  · rintro before rest p ticket rfl
    exact h.rendezvous
  · intro hidle
    obtain ⟨busy, hcounted⟩ := h.counted
    have hnone : busy = ∅ := Finset.eq_empty_of_forall_notMem fun p => hcounted.notMem (hidle p)
    simpa [hnone] using hcounted.total

def crossingPosts : List (Move Bool) :=
  [.accept false (.sync 0), .worker .boot, .accept true (.sync 1), .worker (.receive (.sync 0)), .count true,
    .worker (.handle (.sync 0)), .count false, .answer false 0 (.ok ()), .accept false .shutdown,
    .worker (.receive (.sync 1)), .worker (.handle (.sync 1)), .count false, .worker (.receive .shutdown),
    .answer true 1 (.ok ()), .worker (.handle .shutdown), .worker .close, .worker .finish]

theorem run_crossingPosts :
    ∃ s : Parties Bool Unit, (∀ p e, s.callers p ≠ .posting e) ∧ Run (start (.bare {} {}) (.silent ())) crossingPosts s := by
  apply Exists.intro
  apply And.intro
  case right =>
    unfold crossingPosts
    apply Run.cons (.accept rfl (by simp [start]) rfl)
    apply Run.cons (.worker (.boot rfl rfl))
    apply Run.cons (.accept rfl (by simp [ticketsBehind]) rfl)
    apply Run.cons (.worker (.receive rfl rfl))
    apply Run.cons (.count rfl)
    apply Run.cons (.worker (.handle rfl rfl))
    apply Run.cons (.count rfl)
    apply Run.cons (.acknowledged rfl (List.mem_singleton_self 0))
    apply Run.cons (.accept rfl (by simp) rfl)
    apply Run.cons (.worker (.receive rfl rfl))
    apply Run.cons (.worker (.handle rfl rfl))
    apply Run.cons (.count rfl)
    apply Run.cons (.worker (.receive rfl rfl))
    apply Run.cons (.acknowledged rfl List.mem_cons_self)
    apply Run.cons (.worker (.handle rfl rfl))
    apply Run.cons (.worker (.close rfl))
    apply Run.cons (.worker (.finish rfl rfl))
    exact .nil
  case left =>
    intro p e h
    cases p <;> cases h

theorem crossingPosts_are_served_in_order : ∃ s, Run (start (.bare {} {}) (.silent ())) crossingPosts s ∧
    s.worker.queue.posted = (accepted crossingPosts).length := by
  obtain ⟨s, hidle, h⟩ := run_crossingPosts
  obtain ⟨-, -, -, -, -, -, -, hposted⟩ := events_are_served_in_order h
  exact ⟨s, h, hposted hidle⟩

end

end Parties

end ActionVm
