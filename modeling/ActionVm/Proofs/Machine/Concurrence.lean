import ActionVm.Machine.Dialogue
import ActionVm.Proofs.Program

namespace ActionVm

variable {A : ε → Prop} {P : σ → Prop} {Q : α → Prop} {R : β → Prop}

/-- The same result twice, of `Q` or an error, in a state of `P`. If the first one is an alarm, the second one
may be anything. -/
inductive Comes (A : ε → Prop) (P : σ → Prop) (Q : α → Prop) :
    EStateM.Result ε σ α → EStateM.Result ε σ α → Prop where
  | ok : Q r → P s → Comes A P Q (.ok r s) (.ok r s)
  | error : P s → Comes A P Q (.error e s) (.error e s)
  | alarm : A e → P s → Comes A P Q (.error e s) other

/-- Two programs that do the same in one state, unless the first one raises an alarm. -/
def ConcurAt (A : ε → Prop) (P : σ → Prop) (Q : α → Prop) (s : σ) (x y : EStateM ε σ α) : Prop :=
  Comes A P Q (x s) (y s)

/-- Two programs that do the same in every state of `P`, which they do not leave. -/
def Concur (A : ε → Prop) (P : σ → Prop) (Q : α → Prop) (x y : EStateM ε σ α) : Prop :=
  ∀ s, P s → ConcurAt A P Q s x y

abbrev Obeys (A : ε → Prop) (P : σ → Prop) (Q : α → Prop) (x : EStateM ε σ α) : Prop :=
  Concur A P Q x x

theorem ConcurAt.bind {x y : EStateM ε σ α} {f g : α → EStateM ε σ β} (h : ConcurAt A P Q s x y)
    (hf : ∀ r, Q r → Concur A P R (f r) (g r)) : ConcurAt A P R s (x >>= f) (y >>= g) := by
  unfold ConcurAt at h ⊢
  cases hx : x s with
  | ok r t =>
    cases hy : y s with
    | ok r' t' =>
      rw [hx, hy] at h
      cases h with
      | ok hq ht =>
        rw [bind_of_ok hx, bind_of_ok hy]
        exact hf r hq t ht
    | error e t' =>
      rw [hx, hy] at h
      cases h
  | error e t =>
    rw [hx] at h
    rw [bind_of_error hx]
    cases hy : y s with
    | ok r' t' =>
      rw [hy] at h
      cases h with
      | alarm he ht => exact .alarm he ht
    | error e' t' =>
      rw [hy] at h
      rw [bind_of_error hy]
      cases h with
      | error ht => exact .error ht
      | alarm he ht => exact .alarm he ht

namespace Concur

variable {x y : EStateM ε σ α}

theorem bind {f g : α → EStateM ε σ β} (h : Concur A P Q x y) (hf : ∀ r, Q r → Concur A P R (f r) (g r)) :
    Concur A P R (x >>= f) (y >>= g) :=
  fun s hs => (h s hs).bind hf

theorem pure (h : Q r) : Obeys A P Q (pure r : EStateM ε σ α) :=
  fun _ hs => .ok h hs

theorem done (r : α) : Obeys A P (fun _ => True) (Pure.pure r : EStateM ε σ α) :=
  pure trivial

theorem throw (e : ε) : Obeys A P Q (throw e : EStateM ε σ α) :=
  fun _ hs => .error hs

theorem within {A : Stop → Prop} (x : Except BoundsError α) (h : ∀ r, x = .ok r → Q r) :
    Obeys A P Q (Stop.within x : EStateM Stop σ α) := by
  cases x with
  | ok r => exact pure (h r rfl)
  | error e => exact throw _

theorem get : Obeys A P P (get : EStateM ε σ σ) :=
  fun _ hs => .ok hs hs

theorem get_bind {f g : σ → EStateM ε σ α} (h : ∀ s, P s → ConcurAt A P Q s (f s) (g s)) :
    Concur A P Q (MonadState.get >>= f) (MonadState.get >>= g) :=
  fun s hs => h s hs

theorem modify {f : σ → σ} (h : ∀ s, P s → P (f s)) :
    Obeys A P (fun _ => True) (modify f : EStateM ε σ PUnit) :=
  fun s hs => .ok trivial (h s hs)

theorem mono {Q' : α → Prop} (h : Concur A P Q x y) (hq : ∀ r, Q r → Q' r) : Concur A P Q' x y := by
  intro s hs
  have hc := h s hs
  unfold ConcurAt at hc ⊢
  generalize x s = first at hc ⊢
  generalize y s = second at hc ⊢
  cases hc with
  | ok hr hs => exact .ok (hq _ hr) hs
  | error hs => exact .error hs
  | alarm he hs => exact .alarm he hs

theorem forM {f g : β → EStateM ε σ PUnit} {l : List β} (h : ∀ b ∈ l, Concur A P (fun _ => True) (f b) (g b)) :
    Concur A P (fun _ => True) (l.forM f) (l.forM g) := by
  induction l with
  | nil => exact pure trivial
  | cons b l ih =>
    refine bind (h b List.mem_cons_self) fun _ _ => ?_
    exact ih fun c hc => h c (List.mem_cons_of_mem _ hc)

theorem mapM {f g : β → EStateM ε σ α} {l : List β} (h : ∀ b ∈ l, Concur A P Q (f b) (g b)) :
    Concur A P (fun rs => ∀ r ∈ rs, Q r) (l.mapM f) (l.mapM g) := by
  induction l with
  | nil => exact pure nofun
  | cons b l ih =>
    rw [List.mapM_cons, List.mapM_cons]
    refine bind (h b List.mem_cons_self) fun r hr => ?_
    refine bind (ih fun c hc => h c (List.mem_cons_of_mem _ hc)) fun rs hrs => ?_
    exact pure (List.forall_mem_cons.mpr ⟨hr, hrs⟩)

end Concur

namespace Dialogue

variable {Request : Type} {Reply : Request → Type} {may : Request → Prop} {told : (q : Request) → Reply q → Prop}

/-- A dialogue that asks for nothing but what it may and comes to a result of `Q`, given that every reply is as it
was told. -/
def Obliges (may : Request → Prop) (told : (q : Request) → Reply q → Prop) (Q : α → Prop) :
    Dialogue Request Reply α → Prop
  | done r => Q r
  | fail _ => True
  | ask q next => may q ∧ ∀ reply, told q reply → (next reply).Obliges may told Q

theorem obliges_of_all {Q : α → Prop} (hmay : ∀ q, may q) (hq : ∀ r, Q r) (d : Dialogue Request Reply α) :
    d.Obliges may told Q := by
  induction d with
  | done r => exact hq r
  | fail stop => exact trivial
  | ask q next ih => exact ⟨hmay q, fun reply _ => ih reply⟩

/-- Who answers as told keeps what every answer keeps, however long the dialogue is. -/
theorem Obliges.concur_run {A : Stop → Prop} {P : σ → Prop} {Q : α → Prop} {d : Dialogue Request Reply α}
    {x y : (q : Request) → EStateM Stop σ (Reply q)} (h : ∀ q, may q → Concur A P (told q) (x q) (y q))
    (hd : d.Obliges may told Q) : Concur A P Q (d.run x) (d.run y) := by
  induction d with
  | done r => exact .pure hd
  | fail stop => exact .throw stop
  | ask q next ih => exact .bind (h q hd.1) fun reply hreply => ih reply (hd.2 reply hreply)

end Dialogue

end ActionVm
