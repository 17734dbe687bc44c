import JanusRT.Delivery

/-!
# The ring without its lock

`mailbox.h` lets producers claim tickets concurrently. Here any number of them are inside
`mpsc_push` at once, with no lock, and one consumer is inside `mpsc_pop`; each access is one
step. A ticket only selects a slot, and the flag of the slot does not say whose it is: a
producer that has lapped the ring takes the slot of one that has not written yet. Where this
does not happen the tickets are the positions of a log that is written out of order.
-/
namespace JanusRT
open SlotWindow

variable {P R : Type}

/-! ## Producers and the consumer -/

/-- The ring and both sides. The last five fields record history and nothing reads them:
the last ticket of each producer, counted without wrap, the records in the order of their
tickets, the tickets whose push has returned, and the records taken and returned. -/
structure Contention (P R : Type) where
  ring : MpscRing R
  producer : P → Option (PushPc R)
  consumer : Option (PopPc R)
  ticket : P → ℕ
  claimed : List R
  published : List ℕ
  taken : List R
  returned : List R

def contentionInit (r : MpscRing R) : Contention P R where
  ring := ipcInit r
  producer _ := none
  consumer := none
  ticket _ := 0
  claimed := []
  published := []
  taken := []
  returned := []

/-- The record that a push access claims a ticket for. -/
def PushPc.claiming : PushPc R → List R
  | .claim req => [req]
  | _ => []

section Steps
variable [DecidableEq P]

/-- A producer outside `mpsc_push` calls it. -/
def producerCall (m : Contention P R) (p : P) (req : R) : Contention P R :=
  if (m.producer p).isNone then
    { m with producer := Function.update m.producer p (some (.claim req)) }
  else m

/-- One access of a producer. -/
def producerStep (m : Contention P R) (p : P) : Contention P R :=
  match m.producer p with
  | none => m
  | some pc =>
    let s := mpscPush false m.ring pc
    { m with
      ring := s.1
      producer := Function.update m.producer p (s.2.elim some fun _ => none)
      ticket := Function.update m.ticket p
        (if pc.claiming.isEmpty then m.ticket p else m.claimed.length)
      claimed := m.claimed ++ pc.claiming
      published := m.published ++ pc.published.map fun _ => m.ticket p }

end Steps

def consumerCall (m : Contention P R) : Contention P R :=
  if m.consumer.isNone then { m with consumer := some .start } else m

/-- One access of the consumer. -/
def consumerStep (m : Contention P R) : Contention P R :=
  match m.consumer with
  | none => m
  | some pc =>
    let s := mpscPop m.ring pc
    { m with
      ring := s.1
      consumer := s.2.elim some fun _ => none
      taken := m.taken ++ pc.cleared
      returned := m.returned ++ s.2.elim (fun _ => []) Option.toList }

/-- What can happen next. -/
inductive ContentionStep (P R : Type)
  | callPush (p : P) (req : R)
  | producer (p : P)
  | callPop
  | consumer
  deriving DecidableEq, Repr

def contentionStep [DecidableEq P] (m : Contention P R) : ContentionStep P R → Contention P R
  | .callPush p req => producerCall m p req
  | .producer p => producerStep m p
  | .callPop => consumerCall m
  | .consumer => consumerStep m

/-- Any interleaving, from a freshly initialised ring. -/
def contentionRun [DecidableEq P] (r : MpscRing R) (ss : List (ContentionStep P R)) :
    Contention P R :=
  ss.foldl contentionStep (contentionInit r)

/-- One whole call of `mpsc_pop`, with no other step in between. -/
def popCall (m : Contention P R) : Contention P R :=
  consumerStep^[5] (consumerCall m)

/-- The pops are in ticket order and intact, what was published is popped or still in its
slot, and `mpsc_pop` returns the published records up to the first ticket that is not. -/
structure MultiProducerSafe (m : Contention P R) : Prop where
  inOrder : m.returned <+: m.claimed
  popped : ∀ t, t < m.returned.length → t ∈ m.published
  once : m.published.Nodup
  kept : ∀ t ∈ m.published, m.taken.length ≤ t →
    m.ring.flags (t % tojrtSize) = true ∧
      m.claimed[t]? = some (m.ring.data (t % tojrtSize))
  delivered : ∀ n, m.consumer = none → m.returned.length ≤ n → (∀ t, t < n → t ∈ m.published) →
    (popCall^[n - m.returned.length] m).returned = m.claimed.take n

/-- A producer that finds its slot clear is less than the ring ahead of the consumer: the
earlier ticket of this slot has been taken. -/
def inTurn (m : Contention P R) : ContentionStep P R → Bool
  | .producer p =>
    match m.producer p with
    | some (.spin _ idx) => m.ring.flags idx || m.ticket p < m.taken.length + tojrtSize
    | _ => true
  | _ => true

def runInTurn [DecidableEq P] (m : Contention P R) : List (ContentionStep P R) → Bool
  | [] => true
  | s :: ss => inTurn m s && runInTurn (contentionStep m s) ss

/-! ## The invariant -/

/-- Between the claim and the publication. -/
def HoldsTicket : Option (PushPc R) → Prop
  | none => False
  | some (.claim _) => False
  | some _ => True

/-- What a producer with ticket `t` knows at each of its accesses. -/
def ProducerOk (data : ℕ → R) (claimed : List R) (taken t : ℕ) : Option (PushPc R) → Prop
  | none => True
  | some (.claim _) => True
  | some (.spin req idx) => idx = t % tojrtSize ∧ claimed[t]? = some req
  | some (.copy req idx) =>
    idx = t % tojrtSize ∧ claimed[t]? = some req ∧ t < taken + tojrtSize
  | some (.publish req idx) =>
    idx = t % tojrtSize ∧ claimed[t]? = some req ∧ t < taken + tojrtSize ∧ data idx = req

/-- What the consumer knows at each of its accesses. -/
def ConsumerOk (m : Contention P R) : Option (PopPc R) → Prop
  | none => m.taken = m.returned
  | some .start => m.taken = m.returned
  | some (.load t) => m.taken = m.returned ∧ t = m.ring.tail
  | some (.copy t) =>
    m.taken = m.returned ∧ t = m.ring.tail ∧ m.taken.length ∈ m.published
  | some (.clear t out) =>
    m.taken = m.returned ∧ t = m.ring.tail ∧ m.taken.length ∈ m.published ∧
      m.claimed[m.taken.length]? = some out
  | some (.advance t out) => m.taken = m.returned ++ [out] ∧ t = m.ring.tail

structure ContentionInv (m : Contention P R) : Prop where
  slots : Sparse tojrtSize m.ring.flags m.ring.data m.claimed {t | t ∈ m.published}
    m.taken.length
  fifo : m.taken <+: m.claimed
  nodup : m.published.Nodup
  head : m.ring.head = m.claimed.length % u32
  tail : m.ring.tail = m.returned.length % u32
  unpublished : ∀ p, HoldsTicket (m.producer p) → m.ticket p ∉ m.published
  distinct : ∀ p q, HoldsTicket (m.producer p) → HoldsTicket (m.producer q) →
    m.ticket p = m.ticket q → p = q
  producer : ∀ p, ProducerOk m.ring.data m.claimed m.taken.length (m.ticket p) (m.producer p)
  consumer : ConsumerOk m m.consumer

/-- A record once claimed keeps its ticket, and the consumer only moves on. -/
theorem ProducerOk.mono {data data' : ℕ → R} {claimed claimed' : List R} {taken taken' t : ℕ}
    {pc : Option (PushPc R)} (h : ProducerOk data claimed taken t pc)
    (hclaimed : claimed <+: claimed') (htaken : taken ≤ taken')
    (hdata : ∀ req idx, pc = some (.publish req idx) → data' idx = data idx) :
    ProducerOk data' claimed' taken' t pc := by
  have hget : ∀ req, claimed[t]? = some req → claimed'[t]? = some req := by
    intro req hreq
    obtain ⟨more, rfl⟩ := hclaimed
    rw [List.getElem?_append_left (List.getElem?_eq_some_iff.mp hreq).1]
    exact hreq
  cases pc with
  | none => trivial
  | some pc =>
    cases pc with
    | claim req => trivial
    | spin req idx => exact ⟨h.1, hget _ h.2⟩
    | copy req idx => exact ⟨h.1, hget _ h.2.1, h.2.2.trans_le (by omega)⟩
    | publish req idx =>
      refine ⟨h.1, hget _ h.2.1, h.2.2.1.trans_le (by omega), ?_⟩
      rw [hdata req idx rfl]
      exact h.2.2.2

/-- A producer that holds a ticket has a record of that number. -/
theorem ProducerOk.lt_claimed {data : ℕ → R} {claimed : List R} {taken t : ℕ}
    {pc : Option (PushPc R)} (h : ProducerOk data claimed taken t pc) (hpc : HoldsTicket pc) :
    t < claimed.length := by
  have hlt : ∀ req, claimed[t]? = some req → t < claimed.length := by
    intro req hreq
    exact (List.getElem?_eq_some_iff.mp hreq).1
  cases pc with
  | none => exact hpc.elim
  | some pc =>
    cases pc with
    | claim req => exact hpc.elim
    | spin req idx => exact hlt _ h.2
    | copy req idx => exact hlt _ h.2.1
    | publish req idx => exact hlt _ h.2.1

/-- Nothing the consumer relies on is undone by a producer. -/
theorem ConsumerOk.mono {m m' : Contention P R} {pc : Option (PopPc R)} (h : ConsumerOk m pc)
    (htail : m'.ring.tail = m.ring.tail) (htaken : m'.taken = m.taken)
    (hreturned : m'.returned = m.returned) (hclaimed : m.claimed <+: m'.claimed)
    (hpublished : ∀ t ∈ m.published, t ∈ m'.published) : ConsumerOk m' pc := by
  cases pc with
  | none => simpa only [ConsumerOk, htaken, hreturned] using h
  | some pc =>
    cases pc with
    | start => simpa only [ConsumerOk, htaken, hreturned] using h
    | load t => simpa only [ConsumerOk, htaken, hreturned, htail] using h
    | copy t =>
      simp only [ConsumerOk, htaken, hreturned, htail]
      exact ⟨h.1, h.2.1, hpublished _ h.2.2⟩
    | clear t out =>
      simp only [ConsumerOk, htaken, hreturned, htail]
      refine ⟨h.1, h.2.1, hpublished _ h.2.2.1, ?_⟩
      obtain ⟨more, hmore⟩ := hclaimed
      rw [← hmore, List.getElem?_append_left (List.getElem?_eq_some_iff.mp h.2.2.2).1]
      exact h.2.2.2
    | advance t out => simpa only [ConsumerOk, htaken, hreturned, htail] using h

namespace ContentionInv
variable {m : Contention P R}

theorem init (r : MpscRing R) : ContentionInv (contentionInit r : Contention P R) where
  slots := by
    simpa [contentionInit, ipcInit] using Sparse.init r.data
  fifo := List.nil_prefix
  nodup := List.nodup_nil
  head := rfl
  tail := rfl
  unpublished _ hp := hp.elim
  distinct _ _ hp := hp.elim
  producer _ := trivial
  consumer := rfl

/-- Two producers in their turn write to different slots. -/
theorem slot_ne (h : ContentionInv m) {p q : P} (hq : q ≠ p) (hp : HoldsTicket (m.producer p))
    (hlt : m.ticket p < m.taken.length + tojrtSize) {req : R} {idx : ℕ}
    (hpub : m.producer q = some (.publish req idx)) : idx ≠ m.ticket p % tojrtSize := by
  have hok := h.producer q
  have hholds : HoldsTicket (m.producer q) := by
    rw [hpub]
    trivial
  rw [hpub] at hok
  obtain ⟨rfl, -, hlt', -⟩ := hok
  have hfront : ∀ p, HoldsTicket (m.producer p) → m.taken.length ≤ m.ticket p := by
    intro p hp
    by_contra hlt
    exact h.unpublished p hp (h.slots.front _ (Nat.lt_of_not_le hlt))
  intro hmod
  have htick := eq_of_mod_eq (hfront q hholds) hlt' (hfront p hp) hlt hmod
  exact hq (h.distinct q p hholds hp htick)

section Producers
variable [DecidableEq P]

theorem producerCall (h : ContentionInv m) (p : P) (req : R) :
    ContentionInv (producerCall m p req) := by
  unfold JanusRT.producerCall
  split_ifs with hnone
  · have hcases : ∀ q, HoldsTicket (Function.update m.producer p (some (.claim req)) q) →
        HoldsTicket (m.producer q) := by
      intro q hq
      by_cases he : q = p
      · rw [he, Function.update_self] at hq
        exact hq.elim
      · rwa [Function.update_of_ne he] at hq
    refine ⟨h.slots, h.fifo, h.nodup, h.head, h.tail, ?_, ?_, ?_, h.consumer⟩
    · intro q hq
      exact h.unpublished q (hcases q hq)
    · intro q q' hq hq'
      exact h.distinct q q' (hcases q hq) (hcases q' hq')
    · intro q
      by_cases he : q = p
      · simp only [he, Function.update_self]
        trivial
      · simp only [Function.update_of_ne he]
        exact h.producer q
  · exact h

/-- A step of one producer. The others keep their tickets, and what they have written. -/
theorem step_producer (h : ContentionInv m) {p : P} (r : MpscRing R) (pc : Option (PushPc R))
    (t : ℕ) (new : List R) (pub : List ℕ)
    (hslots : Sparse tojrtSize r.flags r.data (m.claimed ++ new) {t | t ∈ m.published ++ pub}
      m.taken.length)
    (hnodup : (m.published ++ pub).Nodup) (hhead : r.head = (m.claimed ++ new).length % u32)
    (htail : r.tail = m.ring.tail) (ht : HoldsTicket pc → t ∉ m.published ++ pub)
    (hothers : ∀ q, q ≠ p → HoldsTicket (m.producer q) →
      m.ticket q ∉ pub ∧ (HoldsTicket pc → m.ticket q ≠ t))
    (hdata : ∀ q, q ≠ p → ∀ req idx, m.producer q = some (.publish req idx) →
      r.data idx = m.ring.data idx)
    (hpc : ProducerOk r.data (m.claimed ++ new) m.taken.length t pc) :
    ContentionInv { m with
      ring := r, producer := Function.update m.producer p pc
      ticket := Function.update m.ticket p t
      claimed := m.claimed ++ new, published := m.published ++ pub } where
  slots := hslots
  fifo := h.fifo.trans (List.prefix_append _ _)
  nodup := hnodup
  head := hhead
  tail := htail.trans h.tail
  unpublished q hq := by
    by_cases he : q = p
    · simp only [he, Function.update_self] at hq ⊢
      exact ht hq
    · simp only [Function.update_of_ne he] at hq ⊢
      rw [List.mem_append, not_or]
      exact ⟨h.unpublished q hq, (hothers q he hq).1⟩
  distinct q q' hq hq' htick := by
    by_cases he : q = p
    · by_cases he' : q' = p
      · rw [he, he']
      · simp only [he, Function.update_self, Function.update_of_ne he'] at hq hq' htick
        exact absurd htick.symm ((hothers q' he' hq').2 hq)
    · by_cases he' : q' = p
      · simp only [he', Function.update_self, Function.update_of_ne he] at hq hq' htick
        exact absurd htick ((hothers q he hq).2 hq')
      · simp only [Function.update_of_ne he, Function.update_of_ne he'] at hq hq' htick
        exact h.distinct q q' hq hq' htick
  producer q := by
    by_cases he : q = p
    · simp only [he, Function.update_self]
      exact hpc
    · simp only [Function.update_of_ne he]
      exact (h.producer q).mono (List.prefix_append _ _) le_rfl (hdata q he)
  consumer := h.consumer.mono htail rfl rfl (List.prefix_append _ _) fun t ht =>
    List.mem_append_left _ ht

theorem producerStep (h : ContentionInv m) (p : P)
    (hturn : inTurn m (.producer p) = true) : ContentionInv (producerStep m p) := by
  have hok := h.producer p
  have hfresh := h.unpublished p
  have hdist := h.distinct
  unfold JanusRT.producerStep
  cases hpc : m.producer p with
  | none => exact h
  | some pc =>
    rw [hpc] at hok hfresh
    have hslots : Sparse tojrtSize m.ring.flags m.ring.data (m.claimed ++ [])
        {t | t ∈ m.published ++ []} m.taken.length := by
      rw [List.append_nil, List.append_nil]
      exact h.slots
    have hnodup : (m.published ++ []).Nodup := by
      rw [List.append_nil]
      exact h.nodup
    have hhead : m.ring.head = (m.claimed ++ []).length % u32 := by
      rw [List.append_nil]
      exact h.head
    -- the ticket that `p` holds is nobody else's
    have hothers : ∀ q, q ≠ p → HoldsTicket (some pc) → HoldsTicket (m.producer q) →
        m.ticket q ≠ m.ticket p := by
      intro q hq hholds hholds' htick
      exact hq (hdist q p hholds' (hpc ▸ hholds) htick)
    cases pc with
    | claim req =>
      apply h.step_producer _ _ _ [req] []
      · rw [List.append_nil]
        exact h.slots.claim req
      · exact hnodup
      · simp only [mpscPush]
        rw [h.head, Nat.mod_add_mod, List.length_append, List.length_singleton]
      · rfl
      · intro _ hmem
        rw [List.append_nil] at hmem
        exact absurd (h.slots.reach _ hmem).1 (lt_irrefl _)
      · intro q hq hholds
        have hlt := (h.producer q).lt_claimed hholds
        exact ⟨List.not_mem_nil, fun _ => hlt.ne⟩
      · intro q _ req' idx _
        rfl
      · refine ⟨?_, ?_⟩
        · rw [h.head, slot_eq]
          rfl
        · simp [PushPc.claiming]
    | spin req idx =>
      obtain ⟨rfl, hreq⟩ := hok
      have hnext : (mpscPush false m.ring (.spin req (m.ticket p % tojrtSize))).2 =
          .inl (if m.ring.flags (m.ticket p % tojrtSize) then
            .spin req (m.ticket p % tojrtSize) else .copy req (m.ticket p % tojrtSize)) := by
        simp only [mpscPush, Bool.false_eq_true, if_false]
        split_ifs <;> rfl
      simp only [hnext]
      apply h.step_producer _ _ (m.ticket p) [] []
      · exact hslots
      · exact hnodup
      · exact hhead
      · rfl
      · intro _
        rw [List.append_nil]
        exact hfresh trivial
      · intro q hq hholds
        exact ⟨List.not_mem_nil, fun _ => hothers q hq trivial hholds⟩
      · intro q _ req' idx _
        rfl
      · rw [List.append_nil]
        simp only [Sum.elim_inl]
        split_ifs with hf
        · exact ⟨rfl, hreq⟩
        · refine ⟨rfl, hreq, ?_⟩
          simpa [inTurn, hpc, hf] using hturn
    | copy req idx =>
      obtain ⟨rfl, hreq, hlt⟩ := hok
      apply h.step_producer _ _ _ [] []
      · rw [List.append_nil, List.append_nil]
        exact h.slots.write (hfresh trivial) hlt req
      · exact hnodup
      · exact hhead
      · rfl
      · intro _
        rw [List.append_nil]
        exact hfresh trivial
      · intro q hq hholds
        exact ⟨List.not_mem_nil, fun _ => hothers q hq trivial hholds⟩
      · intro q hq req' idx hpub
        have hne := h.slot_ne hq (by rw [hpc]; trivial) hlt hpub
        simp only [mpscPush, Function.update_of_ne hne]
      · rw [List.append_nil]
        refine ⟨rfl, hreq, hlt, ?_⟩
        simp only [mpscPush, Function.update_self]
    | publish req idx =>
      obtain ⟨rfl, hreq, hlt, hd⟩ := hok
      apply h.step_producer _ _ _ [] [m.ticket p]
      · rw [List.append_nil]
        have hpub := h.slots.publish (hfresh trivial) hlt (by rw [hd]; exact hreq)
        have hset : {t | t ∈ m.published ++ [m.ticket p]} =
            insert (m.ticket p) {t | t ∈ m.published} := by
          ext t
          simp [or_comm]
        rw [hset]
        exact hpub
      · rw [List.nodup_append_comm]
        exact List.nodup_cons.mpr ⟨hfresh trivial, h.nodup⟩
      · exact hhead
      · rfl
      · intro hholds
        exact hholds.elim
      · intro q hq hholds
        refine ⟨?_, fun hholds => hholds.elim⟩
        rw [List.mem_singleton]
        exact hothers q hq trivial hholds
      · intro q _ req' idx _
        rfl
      · trivial

end Producers

theorem consumerCall (h : ContentionInv m) : ContentionInv (consumerCall m) := by
  unfold JanusRT.consumerCall
  split_ifs with hnone
  · have hc := h.consumer
    rw [Option.isNone_iff_eq_none.mp hnone] at hc
    exact ⟨h.slots, h.fifo, h.nodup, h.head, h.tail, h.unpublished, h.distinct, h.producer, hc⟩
  · exact h

theorem consumerStep (h : ContentionInv m) : ContentionInv (consumerStep m) := by
  have hc := h.consumer
  unfold JanusRT.consumerStep
  cases hm : m.consumer with
  | none => exact h
  | some pc =>
    rw [hm] at hc
    cases pc with
    | start =>
      simp only [mpscPop, PopPc.cleared, List.append_nil, Sum.elim_inl]
      exact ⟨h.slots, h.fifo, h.nodup, h.head, h.tail, h.unpublished, h.distinct, h.producer,
        hc, rfl⟩
    | load t =>
      obtain ⟨hc, rfl⟩ := hc
      have hslot : m.ring.tail &&& tojrtMask = m.taken.length % tojrtSize := by
        rw [h.tail, slot_eq, hc]
      cases hf : m.ring.flags (m.taken.length % tojrtSize) with
      | true =>
        simp only [mpscPop, PopPc.cleared, List.append_nil, Sum.elim_inl, hslot, hf, if_true]
        exact ⟨h.slots, h.fifo, h.nodup, h.head, h.tail, h.unpublished, h.distinct, h.producer,
          hc, rfl, (h.slots.front_iff tojrtSize_pos).mp hf⟩
      | false =>
        simp only [mpscPop, PopPc.cleared, List.append_nil, Sum.elim_inr, hslot, hf,
          Bool.false_eq_true, if_false, Option.toList_none]
        exact ⟨h.slots, h.fifo, h.nodup, h.head, h.tail, h.unpublished, h.distinct, h.producer,
          hc⟩
    | copy t =>
      obtain ⟨hc, rfl, hpub⟩ := hc
      have hslot : m.ring.tail &&& tojrtMask = m.taken.length % tojrtSize := by
        rw [h.tail, slot_eq, hc]
      simp only [mpscPop, PopPc.cleared, List.append_nil, Sum.elim_inl, hslot]
      exact ⟨h.slots, h.fifo, h.nodup, h.head, h.tail, h.unpublished, h.distinct, h.producer,
        hc, rfl, hpub, (h.slots.full _ hpub le_rfl).2⟩
    | clear t out =>
      obtain ⟨hc, rfl, hpub, hout⟩ := hc
      have hslot : m.ring.tail &&& tojrtMask = m.taken.length % tojrtSize := by
        rw [h.tail, slot_eq, hc]
      simp only [mpscPop, PopPc.cleared, List.append_nil, Sum.elim_inl, hslot]
      refine ⟨?_, ?_, h.nodup, h.head, h.tail, h.unpublished, h.distinct, ?_, ?_, rfl⟩
      · rw [List.length_append]
        exact h.slots.take hpub
      · exact prefix_concat h.fifo hout
      · intro p
        apply (h.producer p).mono List.prefix_rfl
        · rw [List.length_append]
          exact Nat.le_add_right _ _
        · intro req idx _
          rfl
      · rw [hc]
    | advance t out =>
      obtain ⟨hc, rfl⟩ := hc
      simp only [mpscPop, PopPc.cleared, List.append_nil, Sum.elim_inr, Option.toList_some]
      refine ⟨h.slots, h.fifo, h.nodup, h.head, ?_, h.unpublished, h.distinct, h.producer, hc⟩
      rw [h.tail, List.length_append, List.length_singleton, Nat.mod_add_mod]

theorem contentionStep [DecidableEq P] (h : ContentionInv m) (s : ContentionStep P R)
    (hturn : inTurn m s = true) : ContentionInv (contentionStep m s) := by
  cases s with
  | callPush p req => exact h.producerCall p req
  | producer p => exact h.producerStep p hturn
  | callPop => exact h.consumerCall
  | consumer => exact h.consumerStep

theorem steps [DecidableEq P] (h : ContentionInv m) (ss : List (ContentionStep P R))
    (hturn : runInTurn m ss = true) : ContentionInv (ss.foldl JanusRT.contentionStep m) := by
  induction ss generalizing m with
  | nil => exact h
  | cons s ss ih =>
    rw [runInTurn, Bool.and_eq_true] at hturn
    exact ih (h.contentionStep s hturn.1) hturn.2

/-! ## What the consumer gets -/

/-- The record in the consumer's hand is the one it has taken and not returned. -/
theorem taken_eq (h : ContentionInv m) : m.taken = m.returned ++ inHand m.consumer := by
  have hc := h.consumer
  cases hm : m.consumer with
  | none =>
    rw [hm] at hc
    exact hc.trans (List.append_nil _).symm
  | some pc =>
    rw [hm] at hc
    cases pc with
    | start => exact hc.trans (List.append_nil _).symm
    | advance t out => exact hc.1
    | _ => exact hc.1.trans (List.append_nil _).symm

theorem returned_prefix (h : ContentionInv m) : m.returned <+: m.claimed := by
  have hfifo := h.fifo
  rw [h.taken_eq] at hfifo
  exact (List.prefix_append _ _).trans hfifo

theorem popCall (h : ContentionInv m) : ContentionInv (popCall m) := by
  unfold JanusRT.popCall
  have hiter : ∀ n (m : Contention P R), ContentionInv m →
      ContentionInv (JanusRT.consumerStep^[n] m) := by
    intro n
    induction n with
    | zero => exact fun _ hm => hm
    | succ n ih => exact fun _ hm => ih _ hm.consumerStep
  exact hiter 5 _ h.consumerCall

/-- A whole call of `mpsc_pop` when the next ticket has been published. -/
theorem popCall_spec (h : ContentionInv m) (hidle : m.consumer = none)
    (hpub : m.returned.length ∈ m.published) :
    (∃ out, m.claimed[m.returned.length]? = some out ∧
      (JanusRT.popCall m).returned = m.returned ++ [out]) ∧
    (JanusRT.popCall m).consumer = none ∧ (JanusRT.popCall m).claimed = m.claimed ∧
      (JanusRT.popCall m).published = m.published := by
  have htaken : m.taken = m.returned := by
    have hc := h.consumer
    rwa [hidle] at hc
  have hslot : m.ring.tail &&& tojrtMask = m.returned.length % tojrtSize := by
    rw [h.tail, slot_eq]
  obtain ⟨hf, hd⟩ := h.slots.full _ hpub (by rw [htaken])
  refine ⟨⟨_, hd, ?_⟩, ?_, ?_, ?_⟩
  all_goals
    simp [JanusRT.popCall, JanusRT.consumerCall, JanusRT.consumerStep, hidle, mpscPop, hslot, hf]

theorem popCalls_returned (h : ContentionInv m) (hidle : m.consumer = none) (k : ℕ)
    (hpub : ∀ t, t < m.returned.length + k → t ∈ m.published) :
    (JanusRT.popCall^[k] m).returned = m.claimed.take (m.returned.length + k) := by
  induction k generalizing m with
  | zero => exact List.prefix_iff_eq_take.mp h.returned_prefix
  | succ k ih =>
    obtain ⟨⟨out, -, hreturned⟩, hidle', hclaimed, hpublished⟩ :=
      h.popCall_spec hidle (hpub _ (by omega))
    have hlen : (JanusRT.popCall m).returned.length + k = m.returned.length + (k + 1) := by
      rw [hreturned, List.length_append, List.length_singleton]
      omega
    rw [Function.iterate_succ_apply, ih h.popCall hidle' (by rwa [hlen, hpublished]), hclaimed, hlen]

theorem multiProducerSafe (h : ContentionInv m) : MultiProducerSafe m where
  inOrder := h.returned_prefix
  popped t ht := by
    apply h.slots.front t
    rw [h.taken_eq, List.length_append]
    omega
  once := h.nodup
  kept t ht hle := h.slots.full t ht hle
  delivered n hidle hle hpub := by
    obtain ⟨k, rfl⟩ := Nat.exists_eq_add_of_le hle
    rw [Nat.add_sub_cancel_left]
    exact h.popCalls_returned hidle k hpub

end ContentionInv

/-- In every interleaving in which no producer takes the slot of an earlier ticket that is
still out, every published record is popped once, untorn, in the order of the tickets. -/
theorem inTurn_multiProducerSafe [DecidableEq P] (r : MpscRing R)
    (ss : List (ContentionStep P R)) (hturn : runInTurn (contentionInit r) ss = true) :
    MultiProducerSafe (contentionRun r ss) :=
  ((ContentionInv.init r).steps ss hturn).multiProducerSafe

/-- Two producers that overlap; the later ticket is published first. -/
theorem overlapping_pushes_safe :
    let ss : List (ContentionStep Bool ℕ) :=
      [.callPush false 7, .callPush true 9, .producer false, .producer true, .producer true,
        .producer true, .producer true, .producer false, .producer false, .producer false,
        .callPop] ++ List.replicate 5 .consumer
    MultiProducerSafe (contentionRun ⟨0, 0, fun _ => false, fun _ => 0⟩ ss) ∧
      (contentionRun ⟨0, 0, fun _ => false, fun _ => 0⟩ ss).published = [1, 0] ∧
      (contentionRun ⟨0, 0, fun _ => false, fun _ => 0⟩ ss).returned = [7] :=
  ⟨inTurn_multiProducerSafe _ _ (by decide), by decide, by decide⟩

/-! ## A lapped producer -/

/-- One whole push of the second producer. -/
def wholePush (req : ℕ) : List (ContentionStep Bool ℕ) :=
  [.callPush true req, .producer true, .producer true, .producer true, .producer true]

/-- The first producer claims a ticket and stalls, the second one goes round the ring, and
the consumer pops once. -/
def lapped : List (ContentionStep Bool ℕ) :=
  [.callPush false 0, .producer false] ++ (List.range tojrtSize).flatMap (fun k => wholePush (k + 1)) ++
    [.callPop, .consumer, .consumer, .consumer, .consumer, .consumer]

/-- The second producer is `n` records ahead of the stalled ticket. -/
structure Ahead (n : ℕ) (m : Contention Bool ℕ) : Prop where
  idle : m.producer true = none ∧ m.consumer = none ∧ m.returned = []
  head : m.ring.head = n + 1
  tail : m.ring.tail = 0
  first : m.claimed[0]? = some 0
  slot : m.ring.flags 0 = (n == tojrtSize)
  stored : n = tojrtSize → m.ring.data 0 = tojrtSize
  clear : ∀ i, n < i → i < tojrtSize → m.ring.flags i = false

theorem wholePush_foldl {m : Contention Bool ℕ} (hidle : m.producer true = none) {i : ℕ}
    (hi : m.ring.head &&& tojrtMask = i) (hf : m.ring.flags i = false) (req : ℕ) :
    (wholePush req).foldl contentionStep m = { m with
      ring.head := (m.ring.head + 1) % u32
      ring.flags := Function.update m.ring.flags i true
      ring.data := Function.update m.ring.data i req
      ticket := Function.update m.ticket true m.claimed.length
      claimed := m.claimed ++ [req]
      published := m.published ++ [m.claimed.length] } := by
  have hback : Function.update m.producer true none = m.producer := by
    rw [← hidle, Function.update_eq_self]
  simp [wholePush, contentionStep, producerCall, producerStep, hidle, mpscPush, hi, hf,
    PushPc.claiming, PushPc.published, hback]

theorem Ahead.wholePush {n : ℕ} {m : Contention Bool ℕ} (h : Ahead n m) (hn : n < tojrtSize) :
    Ahead (n + 1) ((JanusRT.wholePush (n + 1)).foldl contentionStep m) := by
  have hsize : tojrtSize = 4096 := rfl
  have hwrap : ((n + 1) % u32 : ℕ) = n + 1 := by
    rw [u32, Nat.mod_eq_of_lt]
    omega
  have hslot : m.ring.head &&& tojrtMask = (n + 1) % tojrtSize := by
    rw [h.head, ← hwrap, slot_eq, hwrap]
  have hf : m.ring.flags ((n + 1) % tojrtSize) = false := by
    obtain hlt | rfl : n + 1 < tojrtSize ∨ n = tojrtSize - 1 := by omega
    · rw [Nat.mod_eq_of_lt hlt]
      exact h.clear _ (Nat.lt_succ_self n) hlt
    · exact h.slot
  have hfirst := h.first
  rw [wholePush_foldl h.idle.1 hslot hf]
  refine ⟨h.idle, ?_, h.tail, ?_, ?_, ?_, ?_⟩
  · simp only [h.head, u32]
    omega
  · rw [List.getElem?_append_left (List.getElem?_eq_some_iff.mp hfirst).1]
    exact hfirst
  · obtain hlt | rfl : n + 1 < tojrtSize ∨ n = tojrtSize - 1 := by omega
    · rw [Nat.mod_eq_of_lt hlt]
      simp only [Function.update_of_ne (Nat.succ_ne_zero n).symm, h.slot]
      rw [beq_eq_false_iff_ne.mpr hn.ne, beq_eq_false_iff_ne.mpr hlt.ne]
    · rfl
  · intro he
    simp only [he, Nat.mod_self, Function.update_self]
  · intro i hi hi'
    have hne : i ≠ (n + 1) % tojrtSize := by
      have := Nat.mod_le (n + 1) tojrtSize
      omega
    simp only [Function.update_of_ne hne]
    exact h.clear i (by omega) hi'

theorem ahead (n : ℕ) (hn : n ≤ tojrtSize) {m : Contention Bool ℕ} (h : Ahead 0 m) :
    Ahead n (((List.range n).flatMap fun k => wholePush (k + 1)).foldl contentionStep m) := by
  induction n with
  | zero => exact h
  | succ n ih =>
    rw [List.range_succ, List.flatMap_append, List.foldl_append, List.flatMap_singleton]
    exact (ih (by omega)).wholePush (by omega)

/-- Once round the ring, the consumer finds the last record in the slot of the first. -/
theorem Ahead.pop {m : Contention Bool ℕ} (h : Ahead tojrtSize m) :
    ¬ MultiProducerSafe ([.callPop, .consumer, .consumer, .consumer, .consumer,
      .consumer].foldl contentionStep m) := by
  intro hsafe
  obtain ⟨_, hidle, hnone⟩ := h.idle
  have hslot : m.ring.flags 0 = true := h.slot.trans (beq_self_eq_true _)
  have horder := hsafe.inOrder
  simp only [List.foldl_cons, List.foldl_nil, contentionStep, consumerCall, consumerStep, hidle,
    Option.isNone_none, if_true, mpscPop, h.tail, Nat.zero_and, hslot, Sum.elim_inl, Sum.elim_inr,
    hnone, List.append_nil, List.nil_append, Option.toList_some, h.stored rfl] at horder
  obtain ⟨rest, hrest⟩ := horder
  have hfirst := h.first
  rw [← hrest, List.singleton_append, List.getElem?_cons_zero, Option.some.injEq] at hfirst
  exact absurd hfirst tojrtSize_pos.ne'

/-- The record of the last ticket is popped first. -/
theorem not_multiProducerSafe_lapped :
    ¬ MultiProducerSafe (contentionRun ⟨0, 0, fun _ => false, fun _ => 0⟩ lapped) := by
  rw [contentionRun, lapped, List.foldl_append, List.foldl_append]
  apply Ahead.pop
  apply ahead tojrtSize le_rfl
  refine ⟨⟨rfl, rfl, rfl⟩, rfl, rfl, rfl, rfl, ?_, ?_⟩
  · intro he
    exact absurd he.symm tojrtSize_pos.ne'
  · intro i _ _
    rfl

end JanusRT
