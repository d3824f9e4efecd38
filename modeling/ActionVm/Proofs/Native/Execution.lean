import ActionVm.Proofs.Native.Layout

namespace ActionVm.Native

structure Standing (code : Bytes) (target : Nat → Nat) (start : Nat) (items : List Item) : Prop where
  inside : start ≤ code.length
  bytes : ∃ behind, code.drop start = Item.patchwork.assemble (Item.displacement target) start items ++ behind

namespace Standing

theorem append (h : Standing code target start (items ++ more)) :
    Standing code target (start + extent Item.patchwork.size items) more := by
  obtain ⟨behind, hb⟩ := h.bytes
  have hlen := congrArg List.length hb
  rw [Patchwork.assemble_append, List.append_assoc] at hb
  simp only [List.length_drop, List.length_append, Item.length_assemble, extent_append] at hlen
  have hin := h.inside
  refine ⟨by omega, behind, ?_⟩
  rw [← List.drop_drop, hb, List.drop_left' (Item.length_assemble ..)]

theorem tail (h : Standing code target start (item :: rest)) :
    Standing code target (start + Item.patchwork.size item) rest := by
  have hcons : Standing code target start ([item] ++ rest) := h
  simpa [extent] using hcons.append

theorem size_le (h : Standing code target start items) : start + extent Item.patchwork.size items ≤ code.length := by
  have hnil : Standing code target start (items ++ []) := by rwa [List.append_nil]
  exact hnil.append.inside

end Standing

namespace Host

variable (host : Host ε σ) {code : Bytes} {target : Nat → Nat}

theorem turn_instr (h : Standing code target start (.instr i :: rest)) (p : Process σ) :
    host.turn code start p = host.execute (start + i.encode.length) p i := by
  obtain ⟨behind, hb⟩ := h.bytes
  have hlen := congrArg List.length hb
  have hin := h.inside
  have hdecode := Form.decode_encode i
    (Item.patchwork.assemble (Item.displacement target) (start + Item.patchwork.size (Item.instr i)) rest ++ behind)
  rw [Patchwork.assemble, List.append_assoc] at hb
  rw [turn, hb]
  simp only [Item.bytes_instr, hdecode]
  congr 1
  simp only [List.length_drop, List.length_append, Item.length_assemble, Patchwork.assemble, Item.bytes_instr] at hlen ⊢
  omega

theorem turn_jump (h : Standing code target start (.jump j place :: rest)) (hcode : code.length < 2 ^ 31)
    (ht : target place ≤ code.length) (p : Process σ) :
    host.turn code start p = some (.ok (some
      (if j.taken p.equal then target place else start + Item.patchwork.size (Item.jump j place))) p) := by
  obtain ⟨behind, hb⟩ := h.bytes
  have hlen := congrArg List.length hb
  have hin := h.inside
  have hsize := h.size_le
  simp only [extent, Item.size_jump] at hsize
  have hdecode := Form.decode_jump j
    (d := (target place : Int) - ((start + j.opcode.length : Nat) + 4)) (by omega) (by omega)
    (Item.patchwork.assemble (Item.displacement target) (start + Item.patchwork.size (Item.jump j place)) rest ++
      behind)
  rw [Patchwork.assemble, List.append_assoc] at hb
  have hnext : code.length - (Item.patchwork.assemble (Item.displacement target)
      (start + Item.patchwork.size (Item.jump j place)) rest ++ behind).length =
        start + Item.patchwork.size (Item.jump j place) := by
    simp only [List.length_drop, List.length_append, Item.length_assemble, Patchwork.assemble,
      Item.bytes_jump, Item.length_displacement, Item.size_jump] at hlen ⊢
    omega
  rw [turn, hb]
  simp only [Item.bytes_jump, Item.displacement, hdecode, hnext]
  cases j.taken p.equal with
  | false => rfl
  | true =>
    have hdist : ((start + Item.patchwork.size (Item.jump j place) : Nat) : Int) +
        ((target place : Int) - ((start + j.opcode.length : Nat) + 4)) = target place := by
      simp only [Item.size_jump]
      omega
    rw [hdist]
    simp

theorem visits_instr (h : Standing code target start (.instr i :: rest))
    (he : host.execute (start + i.encode.length) p i = some (.ok (some next) q)) :
    Visits (host.turn code) start p next q :=
  .one ((host.turn_instr h p).trans he)

end Host

/-- Between calls, the frame is in its register, and the stack is as it was behind the entry. -/
structure Holds (frame : UInt64) (saved : List UInt64) (p : Process σ) : Prop where
  frame : p.regs .rbx = frame
  stack : p.stack = saved

/-- The code between two offsets does what `x` does to the world, and stops where `x` fails. -/
def Performs (host : Host ε σ) (code : Bytes) (frame : UInt64) (saved : List UInt64)
    (pre : Process σ → Prop) (start stop : Nat) (x : EStateM ε σ α) (post : α → Process σ → Prop) : Prop :=
  ∀ p, Holds frame saved p → pre p →
    match x p.world with
    | .ok a world =>
      ∃ q, Visits (host.turn code) start p stop q ∧ Holds frame saved q ∧ q.world = world ∧ post a q
    | .error e world =>
      ∃ place q u, Visits (host.turn code) start p place q ∧
        host.turn code place q = some (.error e u) ∧ u.world = world

namespace Performs

variable {host : Host ε σ} {code : Bytes} {frame : UInt64} {saved : List UInt64} {target : Nat → Nat}

theorem skip (pre : Process σ → Prop) :
    Performs host code frame saved pre start start (pure ()) fun _ => pre :=
  fun p hp hpre => ⟨p, .refl, hp, rfl, hpre⟩

theorem bind {x : EStateM ε σ α} {f : α → EStateM ε σ β} {post : α → Process σ → Prop}
    {post' : β → Process σ → Prop} (hx : Performs host code frame saved pre start middle x post)
    (hf : ∀ a, Performs host code frame saved (post a) middle stop (f a) post') :
    Performs host code frame saved pre start stop (x >>= f) post' := by
  intro p hp hpre
  have hx := hx p hp hpre
  cases hr : x p.world with
  | error e world =>
    rw [hr] at hx
    rw [bind_of_error hr]
    exact hx
  | ok a world =>
    rw [hr] at hx
    obtain ⟨q, hv, hq, rfl, hpost⟩ := hx
    have hf := hf a q hq hpost
    rw [bind_of_ok hr]
    cases hr' : f a q.world with
    | error e world' =>
      rw [hr'] at hf
      obtain ⟨place, u, w, hv', hs, hw⟩ := hf
      exact ⟨place, u, w, hv.trans hv', hs, hw⟩
    | ok b world' =>
      rw [hr'] at hf
      obtain ⟨u, hv', hu, hw, hpost'⟩ := hf
      exact ⟨u, hv.trans hv', hu, hw, hpost'⟩

theorem after {x : EStateM ε σ α} {post : α → Process σ → Prop}
    (hv : ∀ p, Holds frame saved p → pre p →
      ∃ q, Visits (host.turn code) start p middle q ∧ Holds frame saved q ∧ q.world = p.world ∧ pre' q)
    (hx : Performs host code frame saved pre' middle stop x post) :
    Performs host code frame saved pre start stop x post := by
  intro p hp hpre
  obtain ⟨q, hv, hq, hw, hpre'⟩ := hv p hp hpre
  have hx := hx q hq hpre'
  rw [hw] at hx
  cases hr : x p.world with
  | error e world =>
    rw [hr] at hx
    obtain ⟨place, u, w, hv', hs, hw⟩ := hx
    exact ⟨place, u, w, hv.trans hv', hs, hw⟩
  | ok a world =>
    rw [hr] at hx
    obtain ⟨u, hv', hu, hw, hpost⟩ := hx
    exact ⟨u, hv.trans hv', hu, hw, hpost⟩

theorem of_map {x : EStateM ε σ α} {f : α → β} {post : β → Process σ → Prop}
    (h : Performs host code frame saved pre start stop (x >>= fun a => pure (f a)) post) :
    Performs host code frame saved pre start stop x fun a => post (f a) := by
  intro p hp hpre
  have h := h p hp hpre
  cases hr : x p.world with
  | error e world =>
    rw [bind_of_error hr] at h
    exact h
  | ok a world =>
    rw [bind_of_ok hr] at h
    exact h

theorem weaken {x : EStateM ε σ α} {post post' : α → Process σ → Prop}
    (h : Performs host code frame saved pre start stop x post) (hpost : ∀ a q, post a q → post' a q) :
    Performs host code frame saved pre start stop x post' := by
  intro p hp hpre
  have h := h p hp hpre
  cases hr : x p.world with
  | error e world =>
    rw [hr] at h
    exact h
  | ok a world =>
    rw [hr] at h
    obtain ⟨q, hv, hq, hw, hp⟩ := h
    exact ⟨q, hv, hq, hw, hpost a q hp⟩

theorem call (ha : ∀ a b, host.address a = host.address b → a = b)
    (h : Standing code target start (callItems host.address callee ++ rest)) (a b : UInt32) :
    Performs host code frame saved
      (fun p => p.regs .rdi = frame ∧ (p.regs .rsi).toUInt32 = a ∧ (p.regs .rdx).toUInt32 = b)
      start (start + extent Item.patchwork.size (callItems host.address callee)) (host.run frame a b callee)
      fun result q => ∃ v, q.regs .rax = result v := by
  rintro p hp ⟨hframe, rfl, rfl⟩
  let q := p.set .rax (host.address callee)
  have hmov : Visits (host.turn code) start p (start + 10) q := host.visits_instr h rfl
  have hcall : host.turn code (start + 10) q = host.execute (start + 10 + 2) q (.callR .rax) :=
    host.turn_instr h.tail q
  have hcallee : Callee.at? host.address (q.regs .rax) = some callee := Callee.at?_address ha callee
  have hrun : host.run (q.regs .rdi) (q.regs .rsi).toUInt32 (q.regs .rdx).toUInt32 callee q.world =
      host.run frame (p.regs .rsi).toUInt32 (p.regs .rdx).toUInt32 callee p.world := by
    rw [← hframe]
    rfl
  simp only [Host.execute, hcallee, Option.map_some, hrun] at hcall
  cases hr : host.run frame (p.regs .rsi).toUInt32 (p.regs .rdx).toUInt32 callee p.world with
  | error e world =>
    rw [hr] at hcall
    exact ⟨_, q, _, hmov, hcall, rfl⟩
  | ok result world =>
    rw [hr] at hcall
    exact ⟨_, hmov.tail hcall, ⟨hp.frame, hp.stack⟩, rfl, _, rfl⟩

theorem step (ha : ∀ a b, host.address a = host.address b → a = b)
    (h : Standing code target start (stepItems host.address s ++ rest)) :
    Performs host code frame saved (fun _ => True) start
      (start + extent Item.patchwork.size (stepItems host.address s)) ((host.calls frame).act s) fun _ _ => True := by
  have hmoves (p : Process σ) (hp : Holds frame saved p) (_ : True) :
      ∃ q, Visits (host.turn code) start p (start + 3 + 5 + 5) q ∧ Holds frame saved q ∧ q.world = p.world ∧
        q.regs .rdi = frame ∧ (q.regs .rsi).toUInt32 = s.a ∧ (q.regs .rdx).toUInt32 = s.b := by
    refine ⟨((p.set .rdi (p.regs .rbx)).set .rsi s.a.toUInt64).set .rdx s.b.toUInt64, ?_, ⟨hp.frame, hp.stack⟩,
      rfl, hp.frame, ?_, ?_⟩
    · exact (host.visits_instr h rfl).trans
        ((host.visits_instr h.tail rfl).trans (host.visits_instr h.tail.tail rfl))
    · exact UInt32.toUInt32_toUInt64 s.a
    · exact UInt32.toUInt32_toUInt64 s.b
  have hcall : Performs host code frame saved _ (start + 3 + 5 + 5)
      (start + extent Item.patchwork.size (stepItems host.address s)) ((host.calls frame).act s >>= fun _ => pure id) _ :=
    call ha h.tail.tail.tail s.a s.b
  exact (of_map (after hmoves hcall)).weaken fun _ _ _ => trivial

theorem steps (ha : ∀ a b, host.address a = host.address b → a = b) {l : List Step}
    (h : Standing code target start (l.flatMap (stepItems host.address) ++ rest)) :
    Performs host code frame saved (fun _ => True) start
      (start + extent Item.patchwork.size (l.flatMap (stepItems host.address))) (l.forM (host.calls frame).act)
      fun _ _ => True := by
  induction l generalizing start with
  | nil => exact skip _
  | cons s l ih =>
    rw [List.flatMap_cons, List.append_assoc] at h
    rw [List.flatMap_cons, extent_append, ← Nat.add_assoc]
    exact (step ha h).bind fun _ => ih h.append

theorem test (ha : ∀ a b, host.address a = host.address b → a = b)
    (h : Standing code target start
      ([.instr (.movRR .rdi .rbx)] ++ callItems host.address (.condition condition) ++ rest)) :
    Performs host code frame saved (fun _ => True) start
      (start + extent Item.patchwork.size ([.instr (.movRR .rdi .rbx)] ++ callItems host.address (.condition condition)))
      ((host.calls frame).test condition) fun b q => ∃ v, q.regs .rax = withLow8 b v := by
  intro p hp _
  have hmoves (p' : Process σ) (hp' : Holds frame saved p') (he : p' = p) :
      ∃ q, Visits (host.turn code) start p' (start + 3) q ∧ Holds frame saved q ∧ q.world = p'.world ∧
        q.regs .rdi = frame ∧ (q.regs .rsi).toUInt32 = (p.regs .rsi).toUInt32 ∧
          (q.regs .rdx).toUInt32 = (p.regs .rdx).toUInt32 := by
    subst he
    exact ⟨_, host.visits_instr h rfl, ⟨hp.frame, hp.stack⟩, rfl, hp.frame, rfl, rfl⟩
  have hcall : Performs host code frame saved _ (start + 3)
      (start + extent Item.patchwork.size ([.instr (.movRR .rdi .rbx)] ++ callItems host.address (.condition condition)))
      ((host.calls frame).test condition >>= fun b => pure (withLow8 b)) _ :=
    call ha h.tail (p.regs .rsi).toUInt32 (p.regs .rdx).toUInt32
  exact (of_map (after hmoves hcall)) p hp rfl

theorem select (ha : ∀ a b, host.address a = host.address b → a = b)
    (h : Standing code target start
      ([.instr (.movRR .rdi .rbx), .instr (.movRI32 .rsi last)] ++
        callItems host.address .lookupSwitch ++ rest)) :
    Performs host code frame saved (fun _ => True) start
      (start + extent Item.patchwork.size ([.instr (.movRR .rdi .rbx), .instr (.movRI32 .rsi last)] ++
        callItems host.address .lookupSwitch))
      ((host.calls frame).select last) fun i q => ∃ v, q.regs .rax = withLow32 i v := by
  intro p hp _
  have hmoves (p' : Process σ) (hp' : Holds frame saved p') (he : p' = p) :
      ∃ q, Visits (host.turn code) start p' (start + 3 + 5) q ∧ Holds frame saved q ∧ q.world = p'.world ∧
        q.regs .rdi = frame ∧ (q.regs .rsi).toUInt32 = last ∧
          (q.regs .rdx).toUInt32 = (p.regs .rdx).toUInt32 := by
    subst he
    exact ⟨_, (host.visits_instr h rfl).trans (host.visits_instr h.tail rfl), ⟨hp.frame, hp.stack⟩, rfl,
      hp.frame, UInt32.toUInt32_toUInt64 last, rfl⟩
  have hcall : Performs host code frame saved _ (start + 3 + 5)
      (start + extent Item.patchwork.size ([.instr (.movRR .rdi .rbx), .instr (.movRI32 .rsi last)] ++
        callItems host.address .lookupSwitch))
      ((host.calls frame).select last >>= fun i => pure (withLow32 i)) _ :=
    call ha h.tail.tail last (p.regs .rdx).toUInt32
  exact (of_map (after hmoves hcall)) p hp rfl

end Performs

/-- The comparisons of a switch lead to the selected case, or else to the default. The induction is
on the cases that are left, which the selector is known to count at least. -/
theorem visits_cases (host : Host ε σ) {cases : List Nat} {target : Nat → Nat} (hcode : code.length < 2 ^ 31)
    (h : Standing code target start (caseItems (cases.zipIdx n) ++ .jump .always fallback :: rest))
    (ht : ∀ place ∈ cases ++ [fallback], target place ≤ code.length) (hn : n + cases.length ≤ 2 ^ 32)
    {p : Process σ} (hi : n ≤ (p.regs .rax).toUInt32.toNat) :
    ∃ q stop, Visits (host.turn code) start p stop q ∧
      host.turn code stop q =
        some (.ok (some (target (cases.getD ((p.regs .rax).toUInt32.toNat - n) fallback))) q) ∧
      q.regs = p.regs ∧ q.stack = p.stack ∧ q.world = p.world := by
  induction cases generalizing start n p with
  | nil =>
    have hjump := host.turn_jump h hcode (ht fallback (by simp)) p
    exact ⟨p, start, .refl, hjump, rfl, rfl, rfl⟩
  | cons place cases ih =>
    rw [List.length_cons] at hn
    have hnat : (UInt32.ofNat n).toNat = n := by
      rw [UInt32.toNat_ofNat']
      omega
    let q : Process σ := { p with equal := (p.regs .rax).toUInt32 = UInt32.ofNat n }
    have hcmp : Visits (host.turn code) start p (start + 5) q := host.visits_instr h rfl
    have hjump : host.turn code (start + 5) q =
        some (.ok (some (if q.equal then target place else start + 5 + 6)) q) :=
      host.turn_jump h.tail hcode (ht place (by simp)) q
    by_cases he : (p.regs .rax).toUInt32 = UInt32.ofNat n
    · have hzero : (p.regs .rax).toUInt32.toNat - n = 0 := by rw [he, hnat, Nat.sub_self]
      rw [if_pos (decide_eq_true he)] at hjump
      rw [hzero, List.getD_cons_zero]
      exact ⟨q, start + 5, hcmp, hjump, rfl, rfl, rfl⟩
    · have hne : (p.regs .rax).toUInt32.toNat ≠ n := fun hn => he (by rw [← hn, UInt32.ofNat_toNat])
      rw [if_neg (by simpa [q] using he)] at hjump
      have hi' : n + 1 ≤ (q.regs .rax).toUInt32.toNat := by
        change n + 1 ≤ (p.regs .rax).toUInt32.toNat
        omega
      obtain ⟨u, stop, hv, hs, hregs, hstack, hworld⟩ := ih h.tail.tail
        (fun place hp => ht place (List.mem_cons_of_mem _ hp)) (by omega) hi'
      refine ⟨u, stop, (hcmp.tail hjump).trans hv, ?_, hregs, hstack, hworld⟩
      rw [hs]
      change some (EStateM.Result.ok
        (some (target (cases.getD ((p.regs .rax).toUInt32.toNat - (n + 1)) fallback))) u) = _
      rw [show (p.regs .rax).toUInt32.toNat - n = (p.regs .rax).toUInt32.toNat - (n + 1) + 1 by omega,
        List.getD_cons_succ]

end ActionVm.Native
