import JanusRT.Delivery

/-!
# Refused pushes

`mpsc_push` with `try_only` set gives up on a full slot, but only after it has taken a ticket:
`head` has moved on, and the consumer will wait at a slot that nobody fills. Calls follow one
another here; a spinning push on a full slot then never returns.
-/
namespace JanusRT
open SlotWindow

variable {R : Type}

/-! ## Whole calls -/

/-- The rest of a call of `mpsc_push` that runs alone, if it returns within `n` accesses. -/
def mpscPushRest (tryOnly : Bool) : ℕ → MpscRing R → PushPc R → Option (MpscRing R × ℤ)
  | 0, _, _ => none
  | n + 1, r, pc =>
    match mpscPush tryOnly r pc with
    | (r, .inl pc) => mpscPushRest tryOnly n r pc
    | (r, .inr res) => some (r, res)

/-- A call of `mpsc_push` that runs alone. -/
def mpscPushCall (tryOnly : Bool) (r : MpscRing R) (req : R) : Option (MpscRing R × ℤ) :=
  mpscPushRest tryOnly 4 r (.claim req)

def mpscPopRest : ℕ → MpscRing R → PopPc R → Option (MpscRing R × Option R)
  | 0, _, _ => none
  | n + 1, r, pc =>
    match mpscPop r pc with
    | (r, .inl pc) => mpscPopRest n r pc
    | (r, .inr res) => some (r, res)

/-- A call of `mpsc_pop` that runs alone. -/
def mpscPopCall (r : MpscRing R) : Option (MpscRing R × Option R) :=
  mpscPopRest 5 r .start

/-- The slot of the next ticket. -/
def nextSlot (r : MpscRing R) : ℕ := r.head &&& tojrtMask

theorem mpscPushCall_free {r : MpscRing R} (hf : r.flags (nextSlot r) = false) (tryOnly : Bool)
    (req : R) :
    mpscPushCall tryOnly r req = some ({ r with
      head := (r.head + 1) % u32
      flags := Function.update r.flags (nextSlot r) true
      data := Function.update r.data (nextSlot r) req }, 0) := by
  rw [nextSlot] at hf
  simp [mpscPushCall, mpscPushRest, mpscPush, nextSlot, hf]

theorem mpscPushCall_refused {r : MpscRing R} (hf : r.flags (nextSlot r) = true) (req : R) :
    mpscPushCall true r req = some ({ r with head := (r.head + 1) % u32 }, -eagain) := by
  rw [nextSlot] at hf
  simp [mpscPushCall, mpscPushRest, mpscPush, hf]

/-- Nothing clears the slot of a spinning push, however long it runs. -/
theorem mpscPushRest_spin (n : ℕ) {r : MpscRing R} (hf : r.flags (nextSlot r) = true) (req : R) :
    mpscPushRest false n r (.claim req) = none := by
  have hspin : ∀ n (r : MpscRing R) i, r.flags i = true →
      mpscPushRest false n r (.spin req i) = none := by
    intro n
    induction n with
    | zero => exact fun _ _ _ => rfl
    | succ n ih =>
      intro r i hi
      simpa [mpscPushRest, mpscPush, hi] using ih r i hi
  cases n with
  | zero => rfl
  | succ n => exact hspin n _ _ hf

theorem mpscPopCall_empty {r : MpscRing R} (hf : r.flags (r.tail &&& tojrtMask) = false) :
    mpscPopCall r = some (r, none) := by
  simp [mpscPopCall, mpscPopRest, mpscPop, hf]

theorem mpscPopCall_full {r : MpscRing R} (hf : r.flags (r.tail &&& tojrtMask) = true) :
    mpscPopCall r = some ({ r with
      tail := (r.tail + 1) % u32
      flags := Function.update r.flags (r.tail &&& tojrtMask) false },
      some (r.data (r.tail &&& tojrtMask))) := by
  simp [mpscPopCall, mpscPopRest, mpscPop, hf]

/-! ## Sequences of calls -/

inductive RingCall (R : Type)
  | push (tryOnly : Bool) (req : R)
  | pop
  deriving DecidableEq, Repr

/-- The ring, the records whose push returned 0 and those that were popped. -/
structure Session (R : Type) where
  ring : MpscRing R
  accepted : List R
  popped : List R

def sessionInit (r : MpscRing R) : Session R := ⟨r, [], []⟩

def sessionCall (s : Session R) : RingCall R → Option (Session R)
  | .push tryOnly req => do
    let (r, res) ← mpscPushCall tryOnly s.ring req
    some { s with ring := r, accepted := s.accepted ++ if res = 0 then [req] else [] }
  | .pop => do
    let (r, out) ← mpscPopCall s.ring
    some { s with ring := r, popped := s.popped ++ out.toList }

/-- The calls one after another, if all of them return. -/
def sessionRun (s : Session R) : List (RingCall R) → Option (Session R)
  | [] => some s
  | c :: cs => do
    let s ← sessionCall s c
    sessionRun s cs

/-- In every continuation, enough pops return what was there and then every record whose
push returned 0, in order. -/
def Continues (r : MpscRing R) : Prop :=
  ∃ front, ∀ cs s, sessionRun (sessionInit r) cs = some s →
    ∃ n s', sessionRun s (List.replicate n .pop) = some s' ∧ s'.popped = front ++ s.accepted

/-- A refused push has no effect. -/
def RefusalHarmless (r : MpscRing R) (req : R) : Prop :=
  ∀ r', mpscPushCall true r req = some (r', -eagain) → r' = r ∧ Continues r'

/-- The call is not a try-only push that meets a full slot. -/
def notRefused (r : MpscRing R) : RingCall R → Bool
  | .push true _ => !r.flags (nextSlot r)
  | _ => true

def neverRefused (s : Session R) : List (RingCall R) → Bool
  | [] => true
  | c :: cs => notRefused s.ring c && (sessionCall s c).all fun s => neverRefused s cs

/-- A refused push always leaves its ticket behind. -/
theorem refusalHarmless_iff (r : MpscRing R) (req : R) :
    RefusalHarmless r req ↔ r.flags (nextSlot r) = false := by
  constructor
  · intro h
    by_contra hf
    obtain ⟨hsame, -⟩ := h _ (mpscPushCall_refused (Bool.eq_true_of_not_eq_false hf) req)
    have hhead := congrArg MpscRing.head hsame
    simp only [u32] at hhead
    omega
  · intro hf r' hr'
    rw [mpscPushCall_free hf, Option.some.injEq, Prod.mk.injEq] at hr'
    exact absurd hr'.2 (by decide)

/-! ## Sequences without a refusal -/

structure SessionInv (s : Session R) : Prop where
  window : Window tojrtSize s.ring.flags s.ring.data s.accepted s.popped.length
  fifo : s.popped <+: s.accepted
  head : s.ring.head = s.accepted.length % u32
  tail : s.ring.tail = s.popped.length % u32

namespace SessionInv
variable {s s' : Session R}

theorem init (r : MpscRing R) : SessionInv (sessionInit (ipcInit r)) where
  window := Window.init r.data
  fifo := List.nil_prefix
  head := rfl
  tail := rfl

theorem nextSlot_eq (h : SessionInv s) : nextSlot s.ring = s.accepted.length % tojrtSize := by
  rw [nextSlot, h.head, slot_eq]

theorem tailSlot_eq (h : SessionInv s) :
    s.ring.tail &&& tojrtMask = s.popped.length % tojrtSize := by
  rw [h.tail, slot_eq]

/-- A push into a clear slot, spinning or not. -/
theorem push (h : SessionInv s) (hf : s.ring.flags (nextSlot s.ring) = false) (tryOnly : Bool)
    (req : R) :
    ∃ s', sessionCall s (.push tryOnly req) = some s' ∧ SessionInv s' ∧
      s'.accepted = s.accepted ++ [req] ∧ s'.popped = s.popped := by
  have hslot := h.nextSlot_eq
  have hcall := mpscPushCall_free hf tryOnly req
  rw [hslot] at hf hcall
  have hwin := (h.window.write tojrtSize_pos hf req).publish tojrtSize_pos hf
  rw [Function.update_self] at hwin
  rw [sessionCall, hcall]
  refine ⟨_, rfl, ⟨hwin, h.fifo.trans (List.prefix_append _ _), ?_, h.tail⟩, rfl, rfl⟩
  rw [h.head, Nat.mod_add_mod, List.length_append, if_pos rfl, List.length_singleton]

/-- A pop returns the next accepted record, if there is one. -/
theorem pop (h : SessionInv s) :
    ∃ s', sessionCall s .pop = some s' ∧ SessionInv s' ∧ s'.accepted = s.accepted ∧
      (s.popped.length < s.accepted.length → s'.popped.length = s.popped.length + 1) := by
  have hslot := h.tailSlot_eq
  have hfront := h.window.front_iff tojrtSize_pos
  cases hf : s.ring.flags (s.popped.length % tojrtSize) with
  | true =>
    have hlt := hfront.mp hf
    have hdata := (h.window.full _ hlt le_rfl).2
    have hcall := mpscPopCall_full (r := s.ring) (by rw [hslot, hf])
    rw [hslot] at hcall
    rw [sessionCall, hcall]
    refine ⟨_, rfl, ⟨?_, ?_, h.head, ?_⟩, rfl, ?_⟩
    · simp only [Option.toList_some, List.length_append, List.length_singleton]
      exact h.window.take tojrtSize_pos hlt
    · apply prefix_concat h.fifo
      rw [List.getElem?_eq_getElem hlt, hdata]
    · simp only [Option.toList_some, List.length_append, List.length_singleton]
      rw [h.tail, Nat.mod_add_mod]
    · intro _
      simp only [Option.toList_some, List.length_append, List.length_singleton]
  | false =>
    have hge : ¬ s.popped.length < s.accepted.length := by
      rw [← hfront, hf]
      exact Bool.false_ne_true
    rw [sessionCall, mpscPopCall_empty (by rw [hslot, hf])]
    refine ⟨_, rfl, ⟨?_, ?_, h.head, ?_⟩, rfl, fun hlt => absurd hlt hge⟩
    · simpa using h.window
    · simpa using h.fifo
    · simpa using h.tail

/-- A spinning push on a full slot is excluded by its having returned. -/
theorem call (h : SessionInv s) (c : RingCall R) (hcall : sessionCall s c = some s')
    (hfree : notRefused s.ring c = true) : SessionInv s' := by
  cases c with
  | pop =>
    obtain ⟨s₁, hs₁, hinv, -⟩ := h.pop
    obtain rfl : s₁ = s' := Option.some.inj (hs₁.symm.trans hcall)
    exact hinv
  | push tryOnly req =>
    have hf : s.ring.flags (nextSlot s.ring) = false := by
      cases tryOnly with
      | true => simpa [notRefused] using hfree
      | false =>
        by_contra hf
        have hspin := mpscPushRest_spin 4 (Bool.eq_true_of_not_eq_false hf) req
        rw [sessionCall, mpscPushCall, hspin] at hcall
        cases hcall
    obtain ⟨s₁, hs₁, hinv, -⟩ := h.push hf tryOnly req
    obtain rfl : s₁ = s' := Option.some.inj (hs₁.symm.trans hcall)
    exact hinv

theorem run (h : SessionInv s) (cs : List (RingCall R)) (hrun : sessionRun s cs = some s')
    (hfree : neverRefused s cs = true) : SessionInv s' := by
  induction cs generalizing s with
  | nil =>
    obtain rfl : s = s' := Option.some.inj hrun
    exact h
  | cons c cs ih =>
    rw [sessionRun, Option.bind_eq_bind, Option.bind_eq_some_iff] at hrun
    obtain ⟨s₁, hcall, hrest⟩ := hrun
    rw [neverRefused, hcall, Bool.and_eq_true] at hfree
    exact ih (h.call c hcall hfree.1) hrest hfree.2

/-- Popping until the ring is empty returns everything accepted. -/
theorem drain (h : SessionInv s) (n : ℕ) (hn : s.accepted.length = s.popped.length + n) :
    ∃ s', sessionRun s (List.replicate n .pop) = some s' ∧ s'.popped = s.accepted := by
  induction n generalizing s with
  | zero => exact ⟨s, rfl, h.fifo.eq_of_length (by omega)⟩
  | succ n ih =>
    obtain ⟨s₁, hs₁, hinv, haccepted, hlen⟩ := h.pop
    obtain ⟨s', hs', hpopped⟩ := ih hinv (by rw [haccepted, hlen (by omega)]; omega)
    refine ⟨s', ?_, hpopped.trans haccepted⟩
    rw [List.replicate_succ, sessionRun, hs₁]
    exact hs'

end SessionInv

/-- At every ring state that sequential calls reach, a refused push has no effect exactly when
it cannot be refused. Where no push has been, the accepted records are all popped in order. -/
theorem refusal_harmless_iff_free (r : MpscRing R) (cs : List (RingCall R)) (s : Session R)
    (hrun : sessionRun (sessionInit (ipcInit r)) cs = some s) :
    (∀ req, RefusalHarmless s.ring req ↔ s.ring.flags (nextSlot s.ring) = false) ∧
    (neverRefused (sessionInit (ipcInit r)) cs = true →
      ∃ n s', sessionRun s (List.replicate n .pop) = some s' ∧ s'.popped = s.accepted) := by
  refine ⟨refusalHarmless_iff s.ring, ?_⟩
  intro hfree
  have hinv := (SessionInv.init r).run cs hrun hfree
  obtain ⟨n, hn⟩ := Nat.exists_eq_add_of_le hinv.fifo.length_le
  exact ⟨n, hinv.drain n hn⟩

theorem refusal_harmless_after_three :
    ∃ s, sessionRun (sessionInit (ipcInit ⟨0, 0, fun _ => false, fun _ => 0⟩))
        [.push true 5, .push false 6, .pop] = some s ∧ RefusalHarmless s.ring 7 ∧
      ∃ n s', sessionRun s (List.replicate n .pop) = some s' ∧ s'.popped = [5, 6] := by
  refine ⟨_, rfl, ?_, ?_⟩
  · exact ((refusal_harmless_iff_free ⟨0, 0, fun _ => false, fun _ => 0⟩
      [.push true 5, .push false 6, .pop] _ rfl).1 7).mpr rfl
  · exact (refusal_harmless_iff_free ⟨0, 0, fun _ => false, fun _ => 0⟩
      [.push true 5, .push false 6, .pop] _ rfl).2 rfl

/-! ## The full ring -/

/-- Spinning pushes return as long as the ring is not full. -/
theorem SessionInv.fill {s : Session R} (h : SessionInv s) (n : ℕ)
    (hn : s.accepted.length + n ≤ s.popped.length + tojrtSize) (req : R) :
    ∃ s', sessionRun s (List.replicate n (.push false req)) = some s' ∧ SessionInv s' ∧
      s'.accepted.length = s.accepted.length + n ∧ s'.popped = s.popped := by
  induction n generalizing s with
  | zero => exact ⟨s, rfl, h, rfl, rfl⟩
  | succ n ih =>
    have hf : s.ring.flags (nextSlot s.ring) = false := by
      rw [h.nextSlot_eq]
      exact h.window.clear _ le_rfl (by omega)
    obtain ⟨s₁, hs₁, hinv, haccepted, hpopped⟩ := h.push hf false req
    have hlen : s₁.accepted.length = s.accepted.length + 1 := by
      rw [haccepted, List.length_append, List.length_singleton]
    obtain ⟨s', hs', hinv', hlen', hpopped'⟩ := ih hinv (by rw [hlen, hpopped]; omega)
    refine ⟨s', ?_, hinv', by omega, hpopped'.trans hpopped⟩
    rw [List.replicate_succ, sessionRun, hs₁]
    exact hs'

/-- After as many pushes as the ring has slots, the next one is refused and moves `head`. -/
theorem refusal_not_harmless_full :
    ¬ ∀ s, sessionRun (sessionInit (ipcInit ⟨0, 0, fun _ => false, fun _ => 0⟩))
      (List.replicate tojrtSize (.push false 1)) = some s → RefusalHarmless s.ring 2 := by
  intro h
  obtain ⟨s, hs, hinv, hlen, hpopped⟩ := (SessionInv.init ⟨0, 0, fun _ => false, fun _ => 0⟩).fill
    tojrtSize (by simp [sessionInit]) 1
  have hf := (refusalHarmless_iff s.ring 2).mp (h s hs)
  have hpos := tojrtSize_pos
  have hzero : s.accepted.length = tojrtSize := hlen.trans (Nat.zero_add _)
  have hempty : s.popped.length = 0 := congrArg List.length hpopped
  have hfull := (hinv.window.full 0 (by omega) (by omega)).1
  rw [hinv.nextSlot_eq, hzero, Nat.mod_self] at hf
  rw [Nat.zero_mod, hf] at hfull
  cases hfull

end JanusRT
