import JanusRT.Delivery

/-!
# The interrupt behind the ring

A caller of `rtcore_sched_prog` publishes a request and then pends an
edge-triggered interrupt, whose pending state is one bit. The real-time side clears
the bit when it takes the interrupt and runs `ipc_sched`, which pops at most three
requests. Signals that coalesce into one bit therefore have to find at most three
requests behind it.
-/
namespace JanusRT
open SlotWindow

variable {P R : Type}

/-- The mailbox, and the value of `budget` while `ipc_sched` runs. -/
structure Doorbell (P R : Type) where
  mbox : Mailbox P R
  ipcSched : Option ℕ

/-- Number of iterations of the loop in `ipc_sched`. -/
def ipcBudget : ℕ := 3

/-- Taking the interrupt clears its pending state and enters `ipc_sched`; interrupts
are masked until that returns. -/
def takeSpi (d : Doorbell P R) : Doorbell P R :=
  if d.mbox.spi = true ∧ d.ipcSched = none then
    { mbox := { d.mbox with spi := false }, ipcSched := some 0 }
  else d

/-- One step of `ipc_sched`: the loop test, or an access of the running `mpsc_pop`.
A returned record goes to `schedule_req`, which does not touch the ring. -/
def ipcSchedStep (d : Doorbell P R) : Doorbell P R :=
  match d.ipcSched with
  | none => d
  | some budget =>
    if d.mbox.receiver = none then
      if budget < ipcBudget then { d with mbox := receiverCall d.mbox }
      else { d with ipcSched := none }
    else
      let s := receiverStep d.mbox
      match s.2 with
      | none => { d with mbox := s.1 }
      | some none => { mbox := s.1, ipcSched := none }
      | some (some _) => { mbox := s.1, ipcSched := some (budget + 1) }

inductive DoorbellStep (P R : Type)
  | lock (p : P) (req : R)
  | sender (p : P)
  | takeSpi
  | ipcSched
  deriving DecidableEq, Repr

def doorbellStep [DecidableEq P] (d : Doorbell P R) : DoorbellStep P R → Doorbell P R
  | .lock p req => { d with mbox := mutexLock d.mbox p req }
  | .sender p => { d with mbox := senderStep d.mbox p }
  | .takeSpi => takeSpi d
  | .ipcSched => ipcSchedStep d

def doorbellInit (r : MpscRing R) : Doorbell P R := ⟨mailboxInit r, none⟩

def doorbellRun [DecidableEq P] (r : MpscRing R) (ss : List (DoorbellStep P R)) : Doorbell P R :=
  ss.foldl doorbellStep (doorbellInit r)

/-- When nothing is going to look at the ring again, it is empty. -/
def NotStranded (d : Doorbell P R) : Prop :=
  d.mbox.spi = false → d.ipcSched = none → (∀ p, d.mbox.sender p ≠ .pend) →
    ∀ i, i < tojrtSize → d.mbox.ring.flags i = false

/-- The published requests that `mpsc_pop` has not returned. -/
def backlog (m : Mailbox P R) : ℕ := m.pushed.length - m.returned.length

/-- The interrupt is taken with at most three requests behind it, or before a push
that has already published pends it again. -/
def TakenInTime (d : Doorbell P R) : DoorbellStep P R → Prop
  | .takeSpi => d.mbox.spi = true → d.ipcSched = none →
      backlog d.mbox ≤ ipcBudget ∨ ∃ p, d.mbox.sender p = .pend
  | _ => True

/-- All steps of a run are in time. -/
def AllTakenInTime [DecidableEq P] (d : Doorbell P R) : List (DoorbellStep P R) → Prop
  | [] => True
  | s :: ss => TakenInTime d s ∧ AllTakenInTime (doorbellStep d s) ss

instance [Fintype P] [DecidableEq R] (d : Doorbell P R) (s : DoorbellStep P R) :
    Decidable (TakenInTime d s) :=
  match s with
  | .takeSpi => inferInstanceAs (Decidable (_ → _ → _ ∨ _))
  | .lock _ _ => .isTrue trivial
  | .sender _ => .isTrue trivial
  | .ipcSched => .isTrue trivial

instance instDecidableAllTakenInTime [DecidableEq P] [Fintype P] [DecidableEq R]
    (d : Doorbell P R) :
    (ss : List (DoorbellStep P R)) → Decidable (AllTakenInTime d ss)
  | [] => .isTrue trivial
  | s :: ss =>
    have := instDecidableAllTakenInTime (doorbellStep d s) ss
    inferInstanceAs (Decidable (_ ∧ _))

/-! ## The invariant of timely runs -/

/-- Iterations `ipc_sched` still has. -/
def budgetLeft : Option ℕ → ℕ
  | none => 0
  | some budget => ipcBudget - budget

/-- Every published request has a signal, a push about to signal, or a place in the
budget of the running handler. -/
def Covered (d : Doorbell P R) : Prop :=
  d.mbox.spi = true ∨ (∃ p, d.mbox.sender p = .pend) ∨ backlog d.mbox ≤ budgetLeft d.ipcSched

structure DoorbellInv (d : Doorbell P R) : Prop where
  mbox : MailboxInv d.mbox
  popping : d.mbox.receiver ≠ none → ∃ budget, d.ipcSched = some budget ∧ budget < ipcBudget

theorem DoorbellInv.receiver_idle {d : Doorbell P R} (h : DoorbellInv d) (hidle : d.ipcSched = none) :
    d.mbox.receiver = none := by
  by_contra hne
  obtain ⟨b, hb, _⟩ := h.popping hne
  rw [hidle] at hb
  cases hb

theorem MailboxInv.taken_of_idle {m : Mailbox P R} (h : MailboxInv m) (hr : m.receiver = none) :
    m.taken = m.returned := by
  have := h.receiver
  rwa [hr] at this

/-- What one access of the receiver does to the rest of the mailbox. -/
theorem receiverStep_frame (m : Mailbox P R) :
    (receiverStep m).1.sender = m.sender ∧ (receiverStep m).1.spi = m.spi ∧
      (receiverStep m).1.pushed = m.pushed := by
  unfold receiverStep
  cases m.receiver with
  | none => exact ⟨rfl, rfl, rfl⟩
  | some pc =>
    cases hs : (mpscPop m.ring pc).2 <;> simp only [hs, and_self]

/-- The receiver returns one record at a time, and the error only for an empty ring. -/
theorem receiverStep_result {m : Mailbox P R} (h : MailboxInv m) :
    match (receiverStep m).2 with
    | none => (receiverStep m).1.returned = m.returned
    | some none => (receiverStep m).1.returned = m.pushed ∧ (receiverStep m).1.receiver = none
    | some (some x) => (receiverStep m).1.returned = m.returned ++ [x] ∧
        (receiverStep m).1.receiver = none := by
  have hrefused := h.delivered.refused
  unfold receiverStep
  cases hm : m.receiver with
  | none => rfl
  | some pc =>
    cases pc with
    | load t =>
      cases hf : m.ring.flags (t &&& tojrtMask) with
      | true => simp [mpscPop, hf]
      | false => simpa [mpscPop, hf] using hrefused t hm hf
    | _ => simp [mpscPop]

/-- What one step of `ipc_sched` can be. -/
theorem ipcSchedStep_cases {d : Doorbell P R} (h : DoorbellInv d) {budget : ℕ}
    (hb : d.ipcSched = some budget) :
    (d.mbox.receiver = none ∧ budget < ipcBudget ∧
      ipcSchedStep d = ⟨receiverCall d.mbox, some budget⟩) ∨
    (d.mbox.receiver = none ∧ ipcBudget ≤ budget ∧ ipcSchedStep d = ⟨d.mbox, none⟩) ∨
    (∃ m, budget < ipcBudget ∧ m = (receiverStep d.mbox).1 ∧
      ((ipcSchedStep d = ⟨m, some budget⟩ ∧ m.returned = d.mbox.returned) ∨
       (ipcSchedStep d = ⟨m, none⟩ ∧ m.returned = d.mbox.pushed ∧ m.receiver = none) ∨
       (∃ x, ipcSchedStep d = ⟨m, some (budget + 1)⟩ ∧ m.returned = d.mbox.returned ++ [x] ∧
          m.receiver = none))) := by
  by_cases hr : d.mbox.receiver = none
  · by_cases hlt : budget < ipcBudget
    · exact Or.inl ⟨hr, hlt, by simp [ipcSchedStep, hb, hr, hlt]⟩
    · exact Or.inr (Or.inl ⟨hr, Nat.le_of_not_lt hlt, by simp [ipcSchedStep, hb, hr, hlt]⟩)
  · have hres := receiverStep_result h.mbox
    obtain ⟨b, hb', hlt⟩ := h.popping hr
    obtain rfl : budget = b := Option.some.inj (hb.symm.trans hb')
    refine Or.inr (Or.inr ⟨_, hlt, rfl, ?_⟩)
    cases hs : (receiverStep d.mbox).2 with
    | none =>
      rw [hs] at hres
      exact Or.inl ⟨by simp [ipcSchedStep, hb, hr, hs], hres⟩
    | some res =>
      rw [hs] at hres
      cases res with
      | none => exact Or.inr (Or.inl ⟨by simp [ipcSchedStep, hb, hr, hs], hres⟩)
      | some x => exact Or.inr (Or.inr ⟨x, by simp [ipcSchedStep, hb, hr, hs], hres⟩)

theorem ipcSchedStep_inv {d : Doorbell P R} (h : DoorbellInv d) : DoorbellInv (ipcSchedStep d) := by
  cases hb : d.ipcSched with
  | none =>
    unfold ipcSchedStep
    rw [hb]
    exact h
  | some budget =>
    obtain ⟨_, hlt, he⟩ | ⟨hr, _, he⟩ | ⟨m, hlt, hm, ⟨he, _⟩ | ⟨he, _, hr⟩ | ⟨_, he, _, hr⟩⟩ :=
      ipcSchedStep_cases h hb
    all_goals rw [he]
    · exact ⟨h.mbox.receiverCall, fun _ => ⟨budget, rfl, hlt⟩⟩
    · exact ⟨h.mbox, fun hne => absurd hr hne⟩
    · exact ⟨hm ▸ h.mbox.receiverStep, fun _ => ⟨budget, rfl, hlt⟩⟩
    · exact ⟨hm ▸ h.mbox.receiverStep, fun hne => absurd hr hne⟩
    · exact ⟨hm ▸ h.mbox.receiverStep, fun hne => absurd hr hne⟩

theorem doorbellStep_inv [DecidableEq P] {d : Doorbell P R} (h : DoorbellInv d)
    (s : DoorbellStep P R) : DoorbellInv (doorbellStep d s) := by
  cases s with
  | lock p req =>
    refine ⟨h.mbox.mutexLock p req, ?_⟩
    have hr : (mutexLock d.mbox p req).receiver = d.mbox.receiver := by
      unfold mutexLock
      split_ifs <;> rfl
    simpa only [doorbellStep, hr] using h.popping
  | sender p =>
    refine ⟨h.mbox.senderStep p, ?_⟩
    have hr : (senderStep d.mbox p).receiver = d.mbox.receiver := by
      unfold senderStep
      split <;> rfl
    simpa only [doorbellStep, hr] using h.popping
  | takeSpi =>
    change DoorbellInv (takeSpi d)
    unfold takeSpi
    split_ifs with htake
    · refine ⟨⟨h.mbox.window, h.mbox.fifo, h.mbox.locked, h.mbox.head_free, h.mbox.head_held,
        h.mbox.tail, h.mbox.sender, h.mbox.receiver⟩, ?_⟩
      intro hne
      obtain ⟨b, hb, _⟩ := h.popping hne
      rw [htake.2] at hb
      cases hb
    · exact h
  | ipcSched => exact ipcSchedStep_inv h

theorem doorbellInit_inv (r : MpscRing R) : DoorbellInv (doorbellInit r : Doorbell P R) :=
  ⟨MailboxInv.init r, fun hne => absurd rfl hne⟩

theorem doorbellRun_inv [DecidableEq P] (r : MpscRing R) (ss : List (DoorbellStep P R)) :
    DoorbellInv (doorbellRun r ss) := by
  unfold doorbellRun
  generalize hd : (doorbellInit r : Doorbell P R) = d
  have h : DoorbellInv d := hd ▸ doorbellInit_inv r
  clear hd
  induction ss generalizing d with
  | nil => exact h
  | cons s ss ih => exact ih _ (doorbellStep_inv h s)

theorem receiverCall_frame (m : Mailbox P R) :
    (receiverCall m).sender = m.sender ∧ (receiverCall m).spi = m.spi ∧
      (receiverCall m).pushed = m.pushed ∧ (receiverCall m).returned = m.returned := by
  unfold receiverCall
  split_ifs <;> exact ⟨rfl, rfl, rfl, rfl⟩

theorem ipcSchedStep_frame {d : Doorbell P R} (h : DoorbellInv d) :
    (ipcSchedStep d).mbox.sender = d.mbox.sender ∧ (ipcSchedStep d).mbox.spi = d.mbox.spi ∧
      (ipcSchedStep d).mbox.pushed = d.mbox.pushed := by
  cases hb : d.ipcSched with
  | none =>
    unfold ipcSchedStep
    rw [hb]
    exact ⟨rfl, rfl, rfl⟩
  | some budget =>
    have hcall := receiverCall_frame d.mbox
    have hstep := receiverStep_frame d.mbox
    obtain ⟨_, _, he⟩ | ⟨_, _, he⟩ | ⟨m, _, rfl, ⟨he, _⟩ | ⟨he, _, _⟩ | ⟨_, he, _, _⟩⟩ :=
      ipcSchedStep_cases h hb
    all_goals rw [he]
    · exact ⟨hcall.1, hcall.2.1, hcall.2.2.1⟩
    · exact ⟨rfl, rfl, rfl⟩
    all_goals exact hstep

/-- `ipc_sched` pays for every request it takes with one iteration. -/
theorem ipcSchedStep_covered {d : Doorbell P R} (h : DoorbellInv d) (hc : Covered d) :
    Covered (ipcSchedStep d) := by
  obtain ⟨hsender, hspi, hpush⟩ := ipcSchedStep_frame h
  obtain hset | ⟨p, hp⟩ | hle := hc
  · exact Or.inl (hspi.trans hset)
  · exact Or.inr (Or.inl ⟨p, (congrFun hsender p).trans hp⟩)
  refine Or.inr (Or.inr ?_)
  rw [backlog, hpush]
  cases hb : d.ipcSched with
  | none =>
    have he : ipcSchedStep d = d := by simp [ipcSchedStep, hb]
    rw [he]
    exact hle
  | some budget =>
    rw [hb, backlog] at hle
    obtain ⟨_, _, he⟩ | ⟨_, hge, he⟩ | ⟨m, hlt, _, ⟨he, hm⟩ | ⟨he, hm, _⟩ | ⟨_, he, hm, _⟩⟩ :=
      ipcSchedStep_cases h hb
    all_goals rw [he]
    · rw [(receiverCall_frame d.mbox).2.2.2]
      exact hle
    · simp only [budgetLeft] at hle ⊢
      omega
    · rw [hm]
      exact hle
    · rw [hm, Nat.sub_self]
      exact Nat.zero_le _
    · simp only [hm, List.length_append, List.length_singleton, budgetLeft] at hle ⊢
      omega

theorem senderStep_covered [DecidableEq P] {d : Doorbell P R} (h : DoorbellInv d) (hc : Covered d)
    (p : P) : Covered { d with mbox := senderStep d.mbox p } := by
  unfold senderStep
  cases hp : d.mbox.sender p with
  | idle => exact hc
  | pushing pc =>
    -- a sender that is not the lock holder is idle, so nobody else is between its two writes
    have hlock := h.mbox.locked p (by simp [hp])
    have hnone : ∀ q, d.mbox.sender q ≠ .pend := by
      intro q hq
      by_cases he : q = p
      · rw [he, hp] at hq
        cases hq
      · rw [h.mbox.idle_of_ne hlock he] at hq
        cases hq
    cases pc with
    | publish req idx =>
      exact Or.inr (Or.inl ⟨p, by simp [Mailbox.setSender, mpscPush]⟩)
    | _ =>
      obtain hspi | ⟨q, hq⟩ | hle := hc
      · exact Or.inl hspi
      · exact absurd hq (hnone q)
      · refine Or.inr (Or.inr ?_)
        simpa [backlog, Mailbox.setSender, PushPc.published] using hle
  | pend => exact Or.inl rfl
  | unlock =>
    have hlock := h.mbox.locked p (by simp [hp])
    obtain hspi | ⟨q, hq⟩ | hle := hc
    · exact Or.inl hspi
    · apply absurd hq
      by_cases he : q = p
      · simp [he, hp]
      · simp [h.mbox.idle_of_ne hlock he]
    · exact Or.inr (Or.inr hle)

theorem doorbellStep_covered [DecidableEq P] {d : Doorbell P R} (h : DoorbellInv d)
    (hc : Covered d) (s : DoorbellStep P R) (hs : TakenInTime d s) :
    Covered (doorbellStep d s) := by
  cases s with
  | lock p req =>
    change Covered { d with mbox := mutexLock d.mbox p req }
    unfold mutexLock
    split_ifs with hfree
    · obtain hspi | ⟨q, hq⟩ | hle := hc
      · exact Or.inl hspi
      · have hlock := h.mbox.locked q (by simp [hq])
        rw [hfree] at hlock
        cases hlock
      · exact Or.inr (Or.inr hle)
    · exact hc
  | sender p => exact senderStep_covered h hc p
  | takeSpi =>
    change Covered (takeSpi d)
    unfold takeSpi
    split_ifs with htake
    · obtain hle | hp := hs htake.1 htake.2
      · exact Or.inr (Or.inr hle)
      · exact Or.inr (Or.inl hp)
    · exact hc
  | ipcSched => exact ipcSchedStep_covered h hc

/-- Along a timely run every request stays covered. -/
theorem covered_of_inTime [DecidableEq P] (ss : List (DoorbellStep P R)) {d : Doorbell P R}
    (h : DoorbellInv d) (hc : Covered d) (ht : AllTakenInTime d ss) :
    Covered (ss.foldl doorbellStep d) := by
  induction ss generalizing d with
  | nil => exact hc
  | cons s ss ih => exact ih (doorbellStep_inv h s) (doorbellStep_covered h hc s ht.1) ht.2

theorem Covered.notStranded {d : Doorbell P R} (h : DoorbellInv d) (hc : Covered d) :
    NotStranded d := by
  intro hspi hidle hpend i hi
  have hle : backlog d.mbox ≤ 0 := by
    obtain h' | ⟨p, hp⟩ | hle := hc
    · rw [hspi] at h'
      cases h'
    · exact absurd hp (hpend p)
    · rwa [hidle] at hle
  by_contra hf
  obtain ⟨j, hj, _⟩ := h.mbox.delivered.flagged i hi (Bool.eq_true_of_not_eq_false hf)
  have hlen := congrArg List.length h.mbox.delivered.accounted
  rw [h.receiver_idle hidle] at hlen
  simp only [inHand, List.length_append, List.length_nil, add_zero, backlog] at hlen hle hj
  omega

/-! ## Late interrupts strand requests -/

/-- The accesses of one successful `mpsc_pop`, with the loop test before it. -/
theorem ipcSchedStep_pop {d : Doorbell P R} (h : DoorbellInv d) {budget : ℕ}
    (hb : d.ipcSched = some budget) (hlt : budget < ipcBudget) (hr : d.mbox.receiver = none)
    (hpos : 0 < backlog d.mbox) :
    let d' := ipcSchedStep^[6] d
    d'.ipcSched = some (budget + 1) ∧ d'.mbox.receiver = none ∧ d'.mbox.pushed = d.mbox.pushed ∧
      d'.mbox.returned.length = d.mbox.returned.length + 1 := by
  have hf : d.mbox.ring.flags (d.mbox.ring.tail &&& tojrtMask) = true := by
    have htaken := h.mbox.taken_of_idle hr
    rw [h.mbox.tail, slot_eq, ← htaken, h.mbox.window.front_iff tojrtSize_pos, htaken]
    rw [backlog] at hpos
    omega
  simp [ipcSchedStep, receiverCall, receiverStep, mpscPop, hb, hlt, hr, hf]

theorem ipcSchedStep_iterate_inv {d : Doorbell P R} (h : DoorbellInv d) (n : ℕ) :
    DoorbellInv (ipcSchedStep^[n] d) ∧ (ipcSchedStep^[n] d).mbox.sender = d.mbox.sender ∧
      (ipcSchedStep^[n] d).mbox.spi = d.mbox.spi := by
  induction n with
  | zero => exact ⟨h, rfl, rfl⟩
  | succ n ih =>
    obtain ⟨hinv, hsender, hspi⟩ := ih
    obtain ⟨hsender', hspi', _⟩ := ipcSchedStep_frame hinv
    rw [Function.iterate_succ_apply']
    exact ⟨ipcSchedStep_inv hinv, hsender'.trans hsender, hspi'.trans hspi⟩

/-- A handler run with nothing arriving pops three of at least three requests. -/
theorem ipcSched_pops_three {d : Doorbell P R} (h : DoorbellInv d) (hb : d.ipcSched = some 0)
    (hr : d.mbox.receiver = none) (hback : ipcBudget ≤ backlog d.mbox) :
    let d' := ipcSchedStep^[19] d
    d'.ipcSched = none ∧ d'.mbox.pushed = d.mbox.pushed ∧
      d'.mbox.returned.length = d.mbox.returned.length + ipcBudget := by
  have hback' : 3 ≤ d.mbox.pushed.length - d.mbox.returned.length := hback
  obtain ⟨b₁, r₁, p₁, n₁⟩ := ipcSchedStep_pop h hb (by decide) hr (by rw [backlog]; omega)
  have h₁ := (ipcSchedStep_iterate_inv h 6).1
  obtain ⟨b₂, r₂, p₂, n₂⟩ := ipcSchedStep_pop h₁ b₁ (by decide) r₁ (by rw [backlog, p₁, n₁]; omega)
  have h₂ := (ipcSchedStep_iterate_inv h₁ 6).1
  obtain ⟨b₃, r₃, p₃, n₃⟩ := ipcSchedStep_pop h₂ b₂ (by decide) r₂
    (by rw [backlog, p₂, p₁, n₂, n₁]; omega)
  have h₃ := (ipcSchedStep_iterate_inv h₂ 6).1
  have hlast : ipcSchedStep^[19] d = ipcSchedStep (ipcSchedStep^[6] (ipcSchedStep^[6]
      (ipcSchedStep^[6] d))) := rfl
  generalize ipcSchedStep^[6] (ipcSchedStep^[6] (ipcSchedStep^[6] d)) = d₃ at *
  have hdone : ipcSchedStep d₃ = ⟨d₃.mbox, none⟩ := by
    simp [ipcSchedStep, b₃, r₃, ipcBudget]
  intro d'
  rw [show d' = ⟨d₃.mbox, none⟩ from hlast.trans hdone]
  exact ⟨rfl, p₃.trans (p₂.trans p₁), by rw [n₃, n₂, n₁]; rfl⟩

theorem foldl_replicate_ipcSched [DecidableEq P] (n : ℕ) (d : Doorbell P R) :
    (List.replicate n DoorbellStep.ipcSched).foldl doorbellStep d = ipcSchedStep^[n] d := by
  induction n generalizing d with
  | zero => rfl
  | succ n ih => exact ih _

/-- Taking the interrupt with four or more requests behind it, and no push about to
pend it, leaves a request that nothing will look at. -/
theorem late_strands [DecidableEq P] {d : Doorbell P R} (h : DoorbellInv d)
    (hlate : ¬ TakenInTime d .takeSpi) :
    ¬ NotStranded ((DoorbellStep.takeSpi :: List.replicate 19 .ipcSched).foldl doorbellStep d) := by
  simp only [TakenInTime, not_forall, not_or, not_exists] at hlate
  obtain ⟨hspi, hidle, hback, hpend⟩ := hlate
  have hr := h.receiver_idle hidle
  rw [List.foldl_cons, foldl_replicate_ipcSched]
  have htake : doorbellStep d .takeSpi = ⟨{ d.mbox with spi := false }, some 0⟩ := by
    simp [doorbellStep, takeSpi, hspi, hidle]
  have hinv := doorbellStep_inv h .takeSpi
  obtain ⟨hend, hsender, hspi'⟩ := ipcSchedStep_iterate_inv hinv 19
  rw [htake] at hinv hend hsender hspi' ⊢
  obtain ⟨hidle', hpush', hret'⟩ := ipcSched_pops_three hinv rfl hr (Nat.le_of_not_le hback)
  intro hns
  have hempty := hns hspi' hidle' (fun p => by rw [hsender]; exact hpend p)
  have hr' := hend.mbox.taken_of_idle (hend.receiver_idle hidle')
  have hfront := (hend.mbox.window.front_iff tojrtSize_pos).mpr (by
    rw [hr', hret', hpush']
    rw [backlog] at hback
    change d.mbox.returned.length + ipcBudget < d.mbox.pushed.length
    omega)
  rw [hempty _ (Nat.mod_lt _ tojrtSize_pos)] at hfront
  cases hfront

/-- A run strands no request if each of its interrupts is taken in time, and an
interrupt taken late strands one as soon as the handler has run. -/
theorem doorbellRun_notStranded [DecidableEq P] (r : MpscRing R) (ss : List (DoorbellStep P R)) :
    (AllTakenInTime (doorbellInit r) ss → NotStranded (doorbellRun r ss)) ∧
    (¬ TakenInTime (doorbellRun r ss) .takeSpi →
      ¬ NotStranded (doorbellRun r (ss ++ .takeSpi :: List.replicate 19 .ipcSched))) := by
  refine ⟨?_, ?_⟩
  · intro ht
    have hc := covered_of_inTime ss (doorbellInit_inv r) (Or.inr (Or.inr le_rfl)) ht
    exact hc.notStranded (doorbellRun_inv r ss)
  · intro hlate
    rw [doorbellRun, List.foldl_append]
    exact late_strands (doorbellRun_inv r ss) hlate

/-- Lock, the accesses of a push that finds its slot clear, pend and unlock. -/
def sendOnce (req : SchedReq) : List (DoorbellStep Unit SchedReq) :=
  .lock () req :: List.replicate 6 (.sender ())

/-- Four requests that arrive before the interrupt is taken. -/
def fourRequests : List (DoorbellStep Unit SchedReq) :=
  sendOnce ⟨0x50100000, 0x1000, 0x1000⟩ ++ sendOnce ⟨0x50101000, 0x1000, 0x1000⟩ ++
    sendOnce ⟨0x50102000, 0x1000, 0x1000⟩ ++ sendOnce ⟨0x50103000, 0x1000, 0x1000⟩

/-- A ring as found in zeroed memory. -/
def zeroRing : MpscRing SchedReq := ⟨0, 0, fun _ => false, fun _ => ⟨0, 0, 0⟩⟩

theorem doorbellRun_notStranded_example :
    NotStranded (doorbellRun zeroRing
      (sendOnce ⟨0x50100000, 0x1000, 0x1000⟩ ++ .takeSpi :: List.replicate 9 .ipcSched)) ∧
    ¬ NotStranded (doorbellRun zeroRing
      (fourRequests ++ .takeSpi :: List.replicate 19 .ipcSched)) :=
  ⟨(doorbellRun_notStranded zeroRing _).1 (by decide),
    (doorbellRun_notStranded zeroRing fourRequests).2 (by decide)⟩

/-- The fourth of four requests stays in its slot, with no signal left. -/
theorem fourRequests_strands :
    let d := doorbellRun zeroRing (fourRequests ++ .takeSpi :: List.replicate 19 .ipcSched)
    d.mbox.spi = false ∧ d.ipcSched = none ∧ (∀ p, d.mbox.sender p ≠ .pend) ∧
      d.mbox.ring.flags 3 = true ∧ ¬ NotStranded d := by
  refine ⟨by decide, by decide, by decide, by decide, ?_⟩
  intro hns
  exact absurd (hns (by decide) (by decide) (by decide) 3 (by decide)) (by decide)

end JanusRT
