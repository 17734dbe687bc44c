import JanusRT.Mailbox

/-!
# Delivery through the ring

Under the lock the tickets of `mpsc_push` are the positions of a log, and the ring
is a window of `TOJRT_SIZE` entries into it. The free-running counters only matter
modulo `2 ^ 32`, which the ring size divides, so neither side notices their wrap.
-/
namespace JanusRT
open SlotWindow

variable {P R : Type}

/-- The slot of position `k`, computed from a wrapping counter. -/
theorem slot_eq (k : ℕ) : k % u32 &&& tojrtMask = k % tojrtSize := by
  have hmask : tojrtMask = 2 ^ 12 - 1 := rfl
  have hsize : tojrtSize = 2 ^ 12 := rfl
  rw [hmask, Nat.and_two_pow_sub_one_eq_mod, hsize, u32]
  exact Nat.mod_mod_of_dvd k (pow_dvd_pow 2 (by omega))

theorem tojrtSize_pos : 0 < tojrtSize := by decide

theorem prefix_concat {l l' : List R} {x : R} (h : l <+: l') (hx : l'[l.length]? = some x) :
    l ++ [x] <+: l' := by
  obtain ⟨rest, rfl⟩ := h
  rw [List.getElem?_append_right le_rfl, Nat.sub_self] at hx
  cases rest with
  | nil => cases hx
  | cons y rest =>
    obtain rfl : y = x := Option.some.inj hx
    exact ⟨rest, by simp⟩

/-- One while the sender holds a ticket that it has not published. -/
def SenderPc.claimed : SenderPc R → ℕ
  | .pushing (.claim _) => 0
  | .pushing _ => 1
  | _ => 0

/-- What a sender at each of its steps knows about the slot of position `n`. -/
def SenderOk (r : MpscRing R) (n : ℕ) : SenderPc R → Prop
  | .pushing (.spin _ idx) => idx = n % tojrtSize
  | .pushing (.copy _ idx) => idx = n % tojrtSize ∧ r.flags idx = false
  | .pushing (.publish req idx) => idx = n % tojrtSize ∧ r.flags idx = false ∧ r.data idx = req
  | _ => True

/-- What the receiver at each of its steps knows about the front of the window. -/
def ReceiverOk (m : Mailbox P R) : Option (PopPc R) → Prop
  | none => m.taken = m.returned
  | some .start => m.taken = m.returned
  | some (.load t) => m.taken = m.returned ∧ t = m.ring.tail
  | some (.copy t) =>
    m.taken = m.returned ∧ t = m.ring.tail ∧ m.taken.length < m.pushed.length
  | some (.clear t out) =>
    m.taken = m.returned ∧ t = m.ring.tail ∧ m.pushed[m.taken.length]? = some out
  | some (.advance t out) => m.taken = m.returned ++ [out] ∧ t = m.ring.tail

structure MailboxInv (m : Mailbox P R) : Prop where
  window : Window tojrtSize m.ring.flags m.ring.data m.pushed m.taken.length
  fifo : m.taken <+: m.pushed
  locked : ∀ p, m.sender p ≠ .idle → m.schedLock = some p
  head_free : m.schedLock = none → m.ring.head = m.pushed.length % u32
  head_held : ∀ p, m.schedLock = some p →
    m.ring.head = (m.pushed.length + (m.sender p).claimed) % u32
  tail : m.ring.tail = m.returned.length % u32
  sender : ∀ p, SenderOk m.ring m.pushed.length (m.sender p)
  receiver : ReceiverOk m m.receiver

namespace MailboxInv
variable {m : Mailbox P R}

theorem init (r : MpscRing R) : MailboxInv (mailboxInit r : Mailbox P R) where
  window := Window.init r.data
  fifo := List.nil_prefix
  locked p hp := absurd rfl hp
  head_free _ := rfl
  head_held p hp := by cases hp
  tail := rfl
  sender _ := trivial
  receiver := rfl

/-- The lock holder is the only sender that is not idle. -/
theorem idle_of_ne (h : MailboxInv m) {p q : P} (hp : m.schedLock = some p) (hq : q ≠ p) :
    m.sender q = .idle := by
  by_contra hne
  exact hq (Option.some.inj ((h.locked q hne).symm.trans hp))

section Senders
variable [DecidableEq P]

theorem mutexLock (h : MailboxInv m) (p : P) (req : R) : MailboxInv (mutexLock m p req) := by
  unfold JanusRT.mutexLock
  split_ifs with hfree
  · have hidle : ∀ q, m.sender q = .idle := by
      intro q
      by_contra hne
      rw [h.locked q hne] at hfree
      cases hfree
    refine ⟨h.window, h.fifo, ?_, ?_, ?_, h.tail, ?_, h.receiver⟩
    · intro q hq
      by_cases he : q = p
      · rw [he]
        rfl
      · simp only [Mailbox.setSender, Function.update_of_ne he] at hq
        exact absurd (hidle q) hq
    · intro hnone
      cases hnone
    · intro q hq
      obtain rfl : p = q := Option.some.inj hq
      simp only [Mailbox.setSender, Function.update_self, SenderPc.claimed, add_zero]
      exact h.head_free hfree
    · intro q
      by_cases he : q = p
      · subst q
        simp only [Mailbox.setSender, Function.update_self, SenderOk]
      · simp only [Mailbox.setSender, Function.update_of_ne he, hidle q, SenderOk]
  · exact h

/-- A step of the lock holder: the other senders are idle, so only its own place and
the shared ring matter. -/
theorem step_sender (h : MailboxInv m) {p : P} (hp : m.schedLock = some p) (r : MpscRing R)
    (new : List R) (pc : SenderPc R)
    (hwin : Window tojrtSize r.flags r.data (m.pushed ++ new) m.taken.length)
    (hhead : r.head = ((m.pushed ++ new).length + pc.claimed) % u32)
    (htail : r.tail = m.ring.tail) (hpc : SenderOk r (m.pushed ++ new).length pc) :
    MailboxInv ({ m with ring := r, pushed := m.pushed ++ new }.setSender p pc) where
  window := hwin
  fifo := h.fifo.trans (List.prefix_append _ _)
  locked q hq := by
    by_cases he : q = p
    · rw [he]
      exact hp
    · simp only [Mailbox.setSender, Function.update_of_ne he] at hq
      exact h.locked q hq
  head_free hfree := by
    rw [show m.schedLock = none from hfree] at hp
    cases hp
  head_held q hq := by
    obtain rfl : p = q := Option.some.inj (hp.symm.trans hq)
    simpa only [Mailbox.setSender, Function.update_self] using hhead
  tail := htail.trans h.tail
  sender q := by
    by_cases he : q = p
    · subst q
      simpa only [Mailbox.setSender, Function.update_self] using hpc
    · simp only [Mailbox.setSender, Function.update_of_ne he, h.idle_of_ne hp he, SenderOk]
  receiver := by
    have hr := h.receiver
    simp only [Mailbox.setSender]
    cases hm : m.receiver with
    | none => rwa [hm] at hr
    | some pop =>
      rw [hm] at hr
      cases pop with
      | start => exact hr
      | load t => exact ⟨hr.1, hr.2.trans htail.symm⟩
      | copy t =>
        refine ⟨hr.1, hr.2.1.trans htail.symm, ?_⟩
        rw [List.length_append]
        exact hr.2.2.trans_le (Nat.le_add_right _ _)
      | clear t out =>
        have hlt := (List.getElem?_eq_some_iff.mp hr.2.2).1
        exact ⟨hr.1, hr.2.1.trans htail.symm, by rw [List.getElem?_append_left hlt, hr.2.2]⟩
      | advance t out => exact ⟨hr.1, hr.2.trans htail.symm⟩

theorem senderStep (h : MailboxInv m) (p : P) : MailboxInv (senderStep m p) := by
  have hok := h.sender p
  unfold JanusRT.senderStep
  cases hpc : m.sender p with
  | idle => exact h
  | pushing pc =>
    rw [hpc] at hok
    have hp : m.schedLock = some p := h.locked p (by simp [hpc])
    have hhead := h.head_held p hp
    rw [hpc] at hhead
    have hwin : Window tojrtSize m.ring.flags m.ring.data (m.pushed ++ []) m.taken.length := by
      rw [List.append_nil]
      exact h.window
    cases pc with
    | claim req =>
      refine h.step_sender hp _ [] _ hwin ?_ rfl ?_
      · simp only [mpscPush, List.append_nil, Sum.elim_inl, SenderPc.claimed]
        rw [hhead, SenderPc.claimed, add_zero, Nat.mod_add_mod]
      · simp only [mpscPush, List.append_nil, Sum.elim_inl, SenderOk]
        rw [hhead, SenderPc.claimed, add_zero, slot_eq]
    | spin req idx =>
      have hnext : (mpscPush false m.ring (.spin req idx)).2 =
          .inl (if m.ring.flags idx then .spin req idx else .copy req idx) := by
        simp only [mpscPush, Bool.false_eq_true, if_false]
        split_ifs <;> rfl
      refine h.step_sender hp _ [] _ hwin ?_ rfl ?_
      · rw [hnext]
        split_ifs <;> simpa [mpscPush, SenderPc.claimed] using hhead
      · rw [hnext, List.append_nil]
        split_ifs with hf
        · exact hok
        · exact ⟨hok, Bool.eq_false_of_not_eq_true hf⟩
    | copy req idx =>
      obtain ⟨rfl, hf⟩ := hok
      refine h.step_sender hp _ [] _ ?_ ?_ rfl ?_
      · rw [List.append_nil]
        exact h.window.write tojrtSize_pos hf req
      · simpa [mpscPush, SenderPc.claimed] using hhead
      · simpa [mpscPush, SenderOk] using hf
    | publish req idx =>
      obtain ⟨rfl, hf, hd⟩ := hok
      refine h.step_sender hp _ [req] _ ?_ ?_ rfl trivial
      · have hpub := h.window.publish tojrtSize_pos hf
        rwa [hd] at hpub
      · simpa [mpscPush, SenderPc.claimed] using hhead
  | pend =>
    have hp : m.schedLock = some p := h.locked p (by simp [hpc])
    have hhead := h.head_held p hp
    rw [hpc] at hhead
    have hstep := h.step_sender hp m.ring [] .unlock (by simpa using h.window)
      (by simpa [SenderPc.claimed] using hhead) rfl trivial
    simp only [List.append_nil] at hstep
    exact ⟨hstep.window, hstep.fifo, hstep.locked, hstep.head_free, hstep.head_held, hstep.tail,
      hstep.sender, hstep.receiver⟩
  | unlock =>
    have hp : m.schedLock = some p := h.locked p (by simp [hpc])
    have hhead := h.head_held p hp
    rw [hpc] at hhead
    refine ⟨h.window, h.fifo, ?_, fun _ => hhead, ?_, h.tail, ?_, h.receiver⟩
    · intro q hq
      by_cases he : q = p
      · subst q
        exact absurd (Function.update_self _ _ _) hq
      · simp only [Mailbox.setSender, Function.update_of_ne he] at hq
        exact absurd (h.idle_of_ne hp he) hq
    · intro q hq
      cases hq
    · intro q
      by_cases he : q = p
      · subst q
        simp only [Mailbox.setSender, Function.update_self, SenderOk]
      · simp only [Mailbox.setSender, Function.update_of_ne he, h.idle_of_ne hp he, SenderOk]

end Senders

theorem receiverCall (h : MailboxInv m) : MailboxInv (receiverCall m) := by
  unfold JanusRT.receiverCall
  split_ifs with hn
  · have hr := h.receiver
    rw [hn] at hr
    exact ⟨h.window, h.fifo, h.locked, h.head_free, h.head_held, h.tail, h.sender, hr⟩
  · exact h

/-- The receiver's own steps: the front of the log is what it copies, clears and
returns. -/
theorem receiverStep (h : MailboxInv m) : MailboxInv (receiverStep m).1 := by
  have hr := h.receiver
  unfold JanusRT.receiverStep
  cases hm : m.receiver with
  | none => exact h
  | some pc =>
    rw [hm] at hr
    cases pc with
    | start =>
      simp only [mpscPop, PopPc.cleared, List.append_nil]
      exact ⟨h.window, h.fifo, h.locked, h.head_free, h.head_held, h.tail, h.sender, hr, rfl⟩
    | load t =>
      obtain ⟨hr, rfl⟩ := hr
      have hslot : m.ring.tail &&& tojrtMask = m.taken.length % tojrtSize := by
        rw [h.tail, slot_eq, hr]
      cases hf : m.ring.flags (m.taken.length % tojrtSize) with
      | true =>
        simp only [mpscPop, PopPc.cleared, List.append_nil, hslot, hf, if_true]
        exact ⟨h.window, h.fifo, h.locked, h.head_free, h.head_held, h.tail, h.sender, hr, rfl,
          (h.window.front_iff tojrtSize_pos).mp hf⟩
      | false =>
        simp only [mpscPop, PopPc.cleared, List.append_nil, hslot, hf, Bool.false_eq_true,
          if_false, Option.toList_none]
        exact ⟨h.window, h.fifo, h.locked, h.head_free, h.head_held, h.tail, h.sender, hr⟩
    | copy t =>
      obtain ⟨hr, rfl, hlt⟩ := hr
      have hslot : m.ring.tail &&& tojrtMask = m.taken.length % tojrtSize := by
        rw [h.tail, slot_eq, hr]
      simp only [mpscPop, PopPc.cleared, List.append_nil, hslot]
      refine ⟨h.window, h.fifo, h.locked, h.head_free, h.head_held, h.tail, h.sender, hr, rfl, ?_⟩
      rw [(h.window.full _ hlt le_rfl).2]
      exact List.getElem?_eq_getElem hlt
    | clear t out =>
      obtain ⟨hr, rfl, hout⟩ := hr
      have hslot : m.ring.tail &&& tojrtMask = m.taken.length % tojrtSize := by
        rw [h.tail, slot_eq, hr]
      have hlt := (List.getElem?_eq_some_iff.mp hout).1
      simp only [mpscPop, PopPc.cleared, hslot]
      refine ⟨?_, ?_, h.locked, h.head_free, h.head_held, h.tail, ?_, ?_, rfl⟩
      · rw [List.length_append]
        exact h.window.take tojrtSize_pos hlt
      · exact prefix_concat h.fifo hout
      · intro p
        have hok := h.sender p
        have hkeep : ∀ i, m.ring.flags i = false →
            Function.update m.ring.flags (m.taken.length % tojrtSize) false i = false := by
          intro i hi
          rw [Function.update_apply]
          split_ifs
          · rfl
          · exact hi
        cases hp : m.sender p with
        | pushing push =>
          rw [hp] at hok
          cases push with
          | claim req => trivial
          | spin req idx => exact hok
          | copy req idx => exact ⟨hok.1, hkeep _ hok.2⟩
          | publish req idx => exact ⟨hok.1, hkeep _ hok.2.1, hok.2.2⟩
        | _ => trivial
      · rw [hr]
    | advance t out =>
      obtain ⟨hr, rfl⟩ := hr
      simp only [mpscPop, PopPc.cleared, List.append_nil, Option.toList_some]
      refine ⟨h.window, h.fifo, h.locked, h.head_free, h.head_held, ?_, h.sender, hr⟩
      rw [h.tail, List.length_append, List.length_singleton, Nat.mod_add_mod]

theorem mailboxStep [DecidableEq P] (h : MailboxInv m) (s : MailboxStep P R) :
    MailboxInv (mailboxStep m s) := by
  cases s with
  | lock p req => exact h.mutexLock p req
  | sender p => exact h.senderStep p
  | call => exact h.receiverCall
  | receiver => exact h.receiverStep

end MailboxInv

theorem mailboxRun_inv [DecidableEq P] (r : MpscRing R) (ss : List (MailboxStep P R)) :
    MailboxInv (mailboxRun r ss) := by
  unfold mailboxRun
  generalize hm : (mailboxInit r : Mailbox P R) = m
  have h : MailboxInv m := hm ▸ MailboxInv.init r
  clear hm
  induction ss generalizing m with
  | nil => exact h
  | cons s ss ih => exact ih _ (h.mailboxStep s)

/-- The record the receiver has taken out of the ring and not returned yet. -/
def inHand : Option (PopPc R) → List R
  | some (.advance _ out) => [out]
  | _ => []

/-- Every record for which `mpsc_push` has returned success (`mpscPush_published`) was returned by
`mpsc_pop`, is about to be returned, or is untorn in its slot, in this order, and the flagged slots
are those of the last kind. -/
structure Delivered (m : Mailbox P R) (inRing : List R) : Prop where
  returned_prefix : m.returned <+: m.pushed
  accounted : m.pushed = m.returned ++ inHand m.receiver ++ inRing
  bounded : inRing.length ≤ tojrtSize
  stored : ∀ i (hi : i < inRing.length),
    m.ring.flags (((m.returned ++ inHand m.receiver).length + i) % tojrtSize) = true ∧
    m.ring.data (((m.returned ++ inHand m.receiver).length + i) % tojrtSize) = inRing[i]
  flagged : ∀ i, i < tojrtSize → m.ring.flags i = true →
    ∃ j, j < inRing.length ∧ ((m.returned ++ inHand m.receiver).length + j) % tojrtSize = i
  refused : ∀ t, m.receiver = some (.load t) → m.ring.flags (t &&& tojrtMask) = false →
    m.returned = m.pushed

theorem MailboxInv.taken_eq {m : Mailbox P R} (h : MailboxInv m) :
    m.taken = m.returned ++ inHand m.receiver := by
  have hr := h.receiver
  cases hm : m.receiver with
  | none =>
    rw [hm] at hr
    exact hr.trans (List.append_nil _).symm
  | some pc =>
    rw [hm] at hr
    cases pc with
    | start => exact hr.trans (List.append_nil _).symm
    | advance t out => exact hr.1
    | _ => exact hr.1.trans (List.append_nil _).symm

theorem MailboxInv.delivered {m : Mailbox P R} (h : MailboxInv m) :
    Delivered m (m.pushed.drop m.taken.length) := by
  have htaken := h.taken_eq
  obtain ⟨rest, hrest⟩ := h.fifo
  have hdrop : m.pushed.drop m.taken.length = rest := by
    rw [← hrest, List.drop_left]
  rw [hdrop]
  have hlen : m.taken.length + rest.length = m.pushed.length := by
    rw [← hrest, List.length_append]
  refine ⟨?_, ?_, ?_, ?_, ?_, ?_⟩
  · exact ⟨inHand m.receiver ++ rest, by rw [← List.append_assoc, ← htaken, hrest]⟩
  · rw [← htaken, hrest]
  · have := h.window.room
    omega
  · intro i hi
    rw [← htaken]
    obtain ⟨hf, hd⟩ := h.window.full (m.taken.length + i) (by omega) (Nat.le_add_right _ _)
    refine ⟨hf, hd.trans ?_⟩
    simp only [← hrest]
    rw [List.getElem_append_right (Nat.le_add_right _ _)]
    simp only [Nat.add_sub_cancel_left]
  · intro i hi hf
    obtain ⟨k, hle, hlt, hmod⟩ := h.window.flagged tojrtSize_pos hi hf
    refine ⟨k - m.taken.length, by omega, ?_⟩
    rw [← htaken, Nat.add_sub_cancel' hle, hmod]
  · intro t ht hf
    have hr := h.receiver
    rw [ht] at hr
    obtain ⟨hr, rfl⟩ := hr
    rw [h.tail, slot_eq, ← hr] at hf
    have hge : ¬ m.taken.length < m.pushed.length := by
      rw [← h.window.front_iff tojrtSize_pos, hf]
      exact Bool.false_ne_true
    rw [← hr]
    exact h.fifo.eq_of_length_le (Nat.le_of_not_lt hge)

/-- For every interleaving of any number of senders with the receiver, and every
number of requests, what `mpsc_pop` has returned is a prefix of what was pushed, and
the rest of what was pushed is still there. -/
theorem mailboxRun_delivered [DecidableEq P] (r : MpscRing R) (ss : List (MailboxStep P R)) :
    ∃ inRing, Delivered (mailboxRun r ss) inRing :=
  ⟨_, (mailboxRun_inv r ss).delivered⟩

end JanusRT
