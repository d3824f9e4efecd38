namespace ActionVm

/-- What a turn comes to: none where there is nothing to do, else the place to go on at, or none at
the end. -/
abbrev Turn (ε σ π : Type) := Option (EStateM.Result ε σ (Option π))

inductive Visits (step : π → σ → Turn ε σ π) : π → σ → π → σ → Prop
  | refl : Visits step p s p s
  | next (h : step p s = some (.ok (some q) t)) (hv : Visits step q t p' s') : Visits step p s p' s'

inductive Runs (step : π → σ → Turn ε σ π) : π → σ → EStateM.Result ε σ Unit → Prop
  | done (h : step p s = some (.ok none t)) : Runs step p s (.ok () t)
  | fail (h : step p s = some (.error e t)) : Runs step p s (.error e t)
  | next (h : step p s = some (.ok (some q) t)) (hr : Runs step q t r) : Runs step p s r

theorem Visits.one {step : π → σ → Turn ε σ π} (h : step p s = some (.ok (some q) t)) :
    Visits step p s q t :=
  .next h .refl

theorem Visits.trans {step : π → σ → Turn ε σ π} (h : Visits step p s q t)
    (h' : Visits step q t q' t') : Visits step p s q' t' := by
  induction h with
  | refl => exact h'
  | next h _ ih => exact .next h (ih h')

theorem Visits.tail {step : π → σ → Turn ε σ π} (h : Visits step p s q t)
    (h' : step q t = some (.ok (some q') t')) : Visits step p s q' t' :=
  h.trans (.one h')

theorem Visits.eq_or_after {step : π → σ → Turn ε σ π} (hv : Visits step p s q t)
    (h : step p s = some (.ok (some p') s')) : q = p ∧ t = s ∨ Visits step p' s' q t := by
  cases hv with
  | refl => exact .inl ⟨rfl, rfl⟩
  | next h' hv => rw [h] at h'; cases h'; exact .inr hv

theorem Visits.eq_of_done {step : π → σ → Turn ε σ π} (hv : Visits step p s q t)
    (h : step p s = some (.ok none u)) : q = p ∧ t = s := by
  cases hv with
  | refl => exact ⟨rfl, rfl⟩
  | next h' _ => rw [h] at h'; cases h'

theorem Runs.of_visits {step : π → σ → Turn ε σ π} (hv : Visits step p s q t)
    (hr : Runs step q t r) : Runs step p s r := by
  induction hv with
  | refl => exact hr
  | next h _ ih => exact .next h (ih hr)

theorem Runs.after_next {step : π → σ → Turn ε σ π} (hr : Runs step p s r)
    (h : step p s = some (.ok (some q) t)) : Runs step q t r := by
  cases hr with
  | done h' => rw [h] at h'; cases h'
  | fail h' => rw [h] at h'; cases h'
  | next h' hr => rw [h] at h'; cases h'; exact hr

theorem Runs.after_visits {step : π → σ → Turn ε σ π} (hr : Runs step p s r)
    (hv : Visits step p s q t) : Runs step q t r := by
  induction hv with
  | refl => exact hr
  | next h _ ih => exact ih (hr.after_next h)

theorem Runs.eq_of_done {step : π → σ → Turn ε σ π} (hr : Runs step p s r)
    (h : step p s = some (.ok none t)) : r = .ok () t := by
  cases hr with
  | done h' => rw [h] at h'; cases h'; rfl
  | fail h' => rw [h] at h'; cases h'
  | next h' _ => rw [h] at h'; cases h'

theorem Runs.eq_of_fail {step : π → σ → Turn ε σ π} (hr : Runs step p s r)
    (h : step p s = some (.error e t)) : r = .error e t := by
  cases hr with
  | done h' => rw [h] at h'; cases h'
  | fail h' => rw [h] at h'; cases h'; rfl
  | next h' _ => rw [h] at h'; cases h'

section

variable (step' : π' → σ' → Turn ε' σ' π') (R : π → σ → π' → σ' → Prop)
  (E : EStateM.Result ε σ Unit → EStateM.Result ε' σ' Unit → Prop)

/-- Turns of a second loop lead from a place to where a turn of the first one leads: to a related
place, or to an end with a related result. -/
inductive Turn.Leads : Turn ε σ π → π' → σ' → Prop
  | next (hv : Visits step' q t q' t') (h : R p s q' t') : Leads (some (.ok (some p) s)) q t
  | done (hv : Visits step' q t q' t') (hs : step' q' t' = some (.ok none u))
      (h : E (.ok () s) (.ok () u)) : Leads (some (.ok none s)) q t
  | fail (hv : Visits step' q t q' t') (hs : step' q' t' = some (.error e' u))
      (h : E (.error e s) (.error e' u)) : Leads (some (.error e s)) q t

/-- The same, by at least one turn of the second loop. -/
inductive Turn.Follows : Turn ε σ π → π' → σ' → Prop
  | step (hs : step' q t = some (.ok (some q') t')) (h : Turn.Leads step' R E turn q' t') :
      Follows turn q t
  | done (hs : step' q t = some (.ok none u)) (h : E (.ok () s) (.ok () u)) :
      Follows (some (.ok none s)) q t
  | fail (hs : step' q t = some (.error e' u)) (h : E (.error e s) (.error e' u)) :
      Follows (some (.error e s)) q t

/-- At related places, a turn of the first loop is followed by turns of the second one. -/
def Simulates (step : π → σ → Turn ε σ π) : Prop :=
  ∀ p s q t, R p s q t → Turn.Follows step' R E (step p s) q t

end

section

variable {step : π → σ → Turn ε σ π} {step' : π' → σ' → Turn ε' σ' π'}
  {R : π → σ → π' → σ' → Prop} {E : EStateM.Result ε σ Unit → EStateM.Result ε' σ' Unit → Prop}

theorem Turn.Leads.of_visits (hv : Visits step' q t q' t') (h : Turn.Leads step' R E turn q' t') :
    Turn.Leads step' R E turn q t := by
  cases h with
  | next hv' h => exact .next (hv.trans hv') h
  | done hv' hs h => exact .done (hv.trans hv') hs h
  | fail hv' hs h => exact .fail (hv.trans hv') hs h

theorem Turn.Follows.leads (h : Turn.Follows step' R E turn q t) : Turn.Leads step' R E turn q t := by
  cases h with
  | step hs h => exact h.of_visits (.one hs)
  | done hs h => exact .done .refl hs h
  | fail hs h => exact .fail .refl hs h

theorem Turn.Follows.of_visits (hv : Visits step' q t q' t')
    (h : Turn.Follows step' R E turn q' t') : Turn.Follows step' R E turn q t := by
  cases hv with
  | refl => exact h
  | next hs hv => exact .step hs (h.leads.of_visits hv)

namespace Simulates

theorem forward (h : Simulates step' R E step) (hR : R p s q t) (hr : Runs step p s r) :
    ∃ r', Runs step' q t r' ∧ E r r' := by
  induction hr generalizing q t with
  | done hs =>
    have hf := (h _ _ _ _ hR).leads
    rw [hs] at hf
    cases hf with
    | done hv hs' hE => exact ⟨_, .of_visits hv (.done hs'), hE⟩
  | fail hs =>
    have hf := (h _ _ _ _ hR).leads
    rw [hs] at hf
    cases hf with
    | fail hv hs' hE => exact ⟨_, .of_visits hv (.fail hs'), hE⟩
  | next hs _ ih =>
    have hf := (h _ _ _ _ hR).leads
    rw [hs] at hf
    cases hf with
    | next hv hR' =>
      obtain ⟨r', hr', hE⟩ := ih hR'
      exact ⟨r', .of_visits hv hr', hE⟩

theorem backward_of_visits (h : Simulates step' R E step) (hr : Runs step' q₀ t₀ r')
    (hv₀ : Visits step' q₀ t₀ q t) (hR : R p s q t) : ∃ r, Runs step p s r ∧ E r r' := by
  induction hr generalizing p s q t with
  | done hs₀ =>
    cases hv₀ with
    | next hn _ => rw [hs₀] at hn; cases hn
    | refl =>
      have hf := h _ _ _ _ hR
      generalize hs : step p s = turn at hf
      cases hf with
      | step hn _ => rw [hs₀] at hn; cases hn
      | done hn hE => rw [hs₀] at hn; cases hn; exact ⟨_, .done hs, hE⟩
      | fail hn _ => rw [hs₀] at hn; cases hn
  | fail hs₀ =>
    cases hv₀ with
    | next hn _ => rw [hs₀] at hn; cases hn
    | refl =>
      have hf := h _ _ _ _ hR
      generalize hs : step p s = turn at hf
      cases hf with
      | step hn _ => rw [hs₀] at hn; cases hn
      | done hn _ => rw [hs₀] at hn; cases hn
      | fail hn hE => rw [hs₀] at hn; cases hn; exact ⟨_, .fail hs, hE⟩
  | next hs₀ hr ih =>
    cases hv₀ with
    | next hn hv₀ =>
      -- The second loop is still on its way to where the two are related.
      rw [hs₀] at hn
      cases hn
      exact ih hv₀ hR
    | refl =>
      have hf := h _ _ _ _ hR
      generalize hs : step p s = turn at hf
      cases hf with
      | done hn _ => rw [hs₀] at hn; cases hn
      | fail hn _ => rw [hs₀] at hn; cases hn
      | step hn hl =>
        rw [hs₀] at hn
        cases hn
        cases hl with
        | next hv hR' =>
          obtain ⟨r, hr, hE⟩ := ih hv hR'
          exact ⟨r, .next hs hr, hE⟩
        | done hv hs' hE =>
          rw [(hr.after_visits hv).eq_of_done hs']
          exact ⟨_, .done hs, hE⟩
        | fail hv hs' hE =>
          rw [(hr.after_visits hv).eq_of_fail hs']
          exact ⟨_, .fail hs, hE⟩

theorem backward (h : Simulates step' R E step) (hR : R p s q t) (hr : Runs step' q t r') :
    ∃ r, Runs step p s r ∧ E r r' :=
  h.backward_of_visits hr .refl hR

end Simulates

end

end ActionVm
