import JanusRT.Asid

/-!
# Wake-ups

`timer_fn` round by round. Each round pops the earliest sleeper and reads the clock; the
sleeper is made ready or, if it is not due, put back, which ends the loop with the timer
set for it. The readings are arbitrary, so nothing depends on how time advances between
the rounds.
-/
namespace JanusRT
open Heap Outcome

variable {M : Type} (pf : Platform M)

/-- The process that each round of the loop pops, with the reading of the clock that
follows. -/
def timerRounds : ℕ → Kernel M → List (ProcRef × ℕ)
  | 0, _ => []
  | n + 1, k =>
    let popped := heapPop k.sched.waiting
    let sc := { k.sched with waiting := popped.2 }
    match popped.1 with
    | none => []
    | some (dl, p) =>
      let now := pf.cntpct k.reads
      (p, now) ::
        if now < dl then []
        else
          match schedReadyProc sc (sc.proc p).pid >>= sched schedSwitchIrq with
          | .error _ => []
          | .ok sc =>
            if schedHasWaiting sc then timerRounds n { k with sched := sc, reads := k.reads + 1 }
            else []

/-- The rounds of one call. -/
def timerFnRounds (k : Kernel M) : List (ProcRef × ℕ) :=
  if schedHasWaiting k.sched then timerRounds pf k.sched.waiting.len k else []

/-- The loop stopped at the earliest sleeper `p`, which was not due at `now`, and set the
timer for it. -/
structure StoppedAt (k' : Kernel M) (p : ProcRef) (now dl : ℕ) : Prop where
  earliest : (dl, p) ∈ contents k'.sched.waiting ∧ ∀ x ∈ contents k'.sched.waiting, dl ≤ x.1
  notDue : now < dl
  enabled : k'.timer.enabled = true
  cval : k'.timer.cval = compareValue k'.timer.setAt dl

/-- The rounds that woke a process and the last one, if it did not. -/
structure Rounds (k k' : Kernel M) (woken stop : List (ProcRef × ℕ)) : Prop where
  readings : ∀ j w, (woken ++ stop)[j]? = some w → w.2 = pf.cntpct (k.reads + j)
  due : ∀ w ∈ woken, (k.sched.proc w.1).waitUntil ≤ w.2
  left : queued k.sched.waiting = (woken.map Prod.fst : Multiset ProcRef) + queued k'.sched.waiting
  last : (stop = [] ∧ k'.sched.waiting.len = 0) ∨
    ∃ p now dl, stop = [(p, now)] ∧ StoppedAt k' p now dl

/-- A round that wakes its process, before the others. -/
theorem Rounds.cons {k k₁ k' : Kernel M} {woken stop : List (ProcRef × ℕ)} {p : ProcRef}
    (h : Rounds pf k₁ k' woken stop) (hreads : k₁.reads = k.reads + 1)
    (hwait : ∀ r, (k₁.sched.proc r).waitUntil = (k.sched.proc r).waitUntil)
    (hq : queued k.sched.waiting = p ::ₘ queued k₁.sched.waiting)
    (hdue : (k.sched.proc p).waitUntil ≤ pf.cntpct k.reads) :
    Rounds pf k k' ((p, pf.cntpct k.reads) :: woken) stop where
  readings := by
    intro j w hw
    cases j with
    | zero =>
      simp only [List.cons_append, List.getElem?_cons_zero, Option.some.injEq] at hw
      rw [← hw, add_zero]
    | succ j =>
      simp only [List.cons_append, List.getElem?_cons_succ] at hw
      rw [h.readings j w hw, hreads]
      congr 1
      omega
  due := by
    intro w hw
    obtain rfl | hw := List.mem_cons.mp hw
    · exact hdue
    · rw [← hwait]
      exact h.due w hw
  left := by
    rw [hq, h.left, List.map_cons, ← Multiset.cons_coe, Multiset.cons_add]
  last := h.last

theorem timerLoop_rounds (n : ℕ) {k : Kernel M} (h : Inv 0 k.sched)
    (hpos : 0 < k.sched.waiting.len) (hn : k.sched.waiting.len ≤ n) :
    Holds Stop.IsHalt (fun k' => ∃ woken stop, timerRounds pf n k = woken ++ stop ∧
      Rounds pf k k' woken stop) (timerLoop pf n k) := by
  induction n generalizing k with
  | zero => omega
  | succ n ih =>
    obtain ⟨dl, p, h', hpop, hpeek, hw, hlen, _, hcont⟩ :=
      heapPop_spec k.sched.waiting h.waiting_wf hpos
    obtain ⟨i, hi, rfl⟩ := h.slot_of_waiting (queued_cons hcont ▸ Multiset.mem_cons_self _ _)
    have hinv := h.pop_waiting hw hcont
    have hpid : (k.sched.pb i).pid = i + 1 := h.pb_pid i hi
    have hdl : dl = (k.sched.pb i).waitUntil :=
      h.waiting_key (dl, .pb i) (by rw [hcont]; exact Multiset.mem_cons_self _ _)
    obtain ⟨hmem, hmin⟩ := heapPeek_some h.waiting_wf.ordered hpeek
    have hp : ({ k.sched with waiting := h' } : Sched).proc (.pb i) = k.sched.pb i := rfl
    rw [timerLoop, timerRounds, hpop]
    dsimp only [timeNowTicks]
    rw [hp, hpid]
    split_ifs with hlt
    · apply (schedWaitProc_spec hinv).bind
      intro sc hsc
      obtain ⟨_, h'', rfl, hc⟩ := hsc
      have hcont' : contents h'' = contents k.sched.waiting := by
        rw [hc, hcont, hdl]
      have hsame : queued h'' = queued k.sched.waiting := by rw [queued, hcont', queued]
      refine ⟨[], [(.pb i, pf.cntpct k.reads)], rfl, ?_, ?_, ?_, Or.inr ⟨_, _, dl, rfl, ?_⟩⟩
      · intro j w hj
        cases j with
        | zero =>
          simp only [List.nil_append, List.getElem?_cons_zero, Option.some.injEq] at hj
          rw [← hj, add_zero]
        | succ j => simp at hj
      · simp
      · rw [List.map_nil, Multiset.coe_nil, zero_add]
        exact hsame.symm
      · exact ⟨⟨hcont' ▸ hmem, hcont' ▸ hmin⟩, hlt, rfl, rfl⟩
    · rw [← bind_assoc]
      have hspec := readyThenSched_spec hinv
      cases hrun : schedReadyProc { k.sched with waiting := h' } (i + 1) >>= sched schedSwitchIrq with
      | error e =>
        rw [hrun] at hspec
        exact hspec
      | ok sc =>
        obtain ⟨hinv', hedf', hframe⟩ := hspec.of_ok hrun
        have hwaiting : sc.waiting = h' := hframe.waiting
        have hwait : ∀ r, (sc.proc r).waitUntil = (k.sched.proc r).waitUntil := by
          intro r
          obtain ⟨s, hs⟩ := hframe.procs r
          rw [hs]
          cases r <;> rfl
        have hq : queued k.sched.waiting = .pb i ::ₘ queued sc.waiting := by
          rw [hwaiting]
          exact queued_cons hcont
        have hdue : (k.sched.proc (.pb i)).waitUntil ≤ pf.cntpct k.reads := by
          have : (k.sched.proc (.pb i)).waitUntil = dl := hdl.symm
          omega
        rw [ok_bind]
        simp only [schedHasWaiting, decide_eq_true_eq]
        split_ifs with hmore
        · apply (ih (k := { k with reads := k.reads + 1, sched := sc }) hinv' hmore
            (by simp only [hwaiting]; omega)).mono
          intro k' hk'
          obtain ⟨woken, stop, hlog, hrounds⟩ := hk'
          exact ⟨_, stop, by rw [hlog, List.cons_append], hrounds.cons pf rfl hwait hq hdue⟩
        · have hz := Nat.eq_zero_of_not_pos hmore
          refine ⟨[(.pb i, pf.cntpct k.reads)], [], rfl, ?_⟩
          have hlast : Rounds pf { k with reads := k.reads + 1, sched := sc }
              (disarmTimer { k with reads := k.reads + 1, sched := sc }) [] [] :=
            ⟨by simp, by simp, by simp [disarmTimer], Or.inl ⟨rfl, hz⟩⟩
          exact hlast.cons pf rfl hwait hq hdue

theorem timerFn_rounds {k : Kernel M} (h : Inv 0 k.sched) :
    Holds Stop.IsHalt (fun k' => ∃ woken stop, timerFnRounds pf k = woken ++ stop ∧
      Rounds pf k k' woken stop) (timerFn pf k) := by
  simp only [timerFn, timerFnRounds, schedHasWaiting, decide_eq_true_eq]
  split_ifs with hpos
  · exact timerLoop_rounds pf _ h hpos le_rfl
  · refine ⟨[], [], rfl, ?_, ?_, ?_, Or.inl ⟨rfl, Nat.eq_zero_of_not_pos hpos⟩⟩
    · simp
    · simp
    · rw [List.map_nil, Multiset.coe_nil, zero_add]
      rfl

/-! ## Exactly the expired sleepers -/

/-- What one call of `timer_fn` with the given rounds does to the sleepers. -/
structure WakesExpired (k k' : Kernel M) (rounds : List (ProcRef × ℕ)) : Prop where
  readings : ∀ j w, rounds[j]? = some w → w.2 = pf.cntpct (k.reads + j)
  due : ∀ r ∈ queued k.sched.waiting, r ∉ queued k'.sched.waiting →
    (∃ now, (r, now) ∈ rounds) ∧ ∀ now, (r, now) ∈ rounds → (k.sched.proc r).waitUntil ≤ now
  keys : ∀ x ∈ contents k'.sched.waiting,
    x.1 = (k'.sched.proc x.2).waitUntil ∧ x.1 = (k.sched.proc x.2).waitUntil
  notDue : 0 < k'.sched.waiting.len →
    ∃ w, rounds.getLast? = some w ∧ ∀ x ∈ contents k'.sched.waiting, w.2 < x.1
  woken : ∀ r ∈ queued k.sched.waiting, r ∉ queued k'.sched.waiting →
    r ∈ queued k'.sched.ready ∨ k'.sched.curr = some r
  sleepers : queued k'.sched.waiting ≤ queued k.sched.waiting

/-- A sleeper that is neither asleep nor free afterwards is ready or runs. -/
theorem ready_of_woken {sc sc' : Sched} (h : Inv 0 sc) (h' : Inv 0 sc') (hw : Wakes sc sc')
    {r : ProcRef} (hr : r ∈ queued sc.waiting) (hr' : r ∉ queued sc'.waiting) :
    r ∈ queued sc'.ready ∨ sc'.curr = some r := by
  have hall : r ∈ allProcs := by
    rw [← h.places]
    simp [hr]
  have hfree : r ∉ freeStack sc' := by
    rw [freeStack_congr hw.freeProc hw.nfreeProc]
    intro hf
    have hnd := h.nodup
    rw [add_zero, Multiset.nodup_add, Multiset.nodup_add] at hnd
    exact Multiset.disjoint_left.mp hnd.1.2.2 (by simp [hf]) hr
  rw [← h'.places, add_zero] at hall
  simp only [Multiset.mem_add] at hall
  obtain ((hf | hready) | hwait) | hrun := hall
  · exact absurd hf hfree
  · exact Or.inl hready
  · exact absurd hwait hr'
  · exact Or.inr (mem_running.mp hrun).1

theorem Rounds.wakesExpired {k k' : Kernel M} {woken stop : List (ProcRef × ℕ)}
    (h : Rounds pf k k' woken stop) (hk : Inv 0 k.sched) (hk' : Inv 0 k'.sched)
    (hw : Wakes k.sched k'.sched) : WakesExpired pf k k' (woken ++ stop) where
  readings := h.readings
  due := by
    intro r hr hr'
    rw [h.left, Multiset.mem_add, Multiset.mem_coe, List.mem_map] at hr
    obtain ⟨w, hwoken, rfl⟩ := hr.resolve_right hr'
    refine ⟨⟨w.2, List.mem_append_left _ hwoken⟩, ?_⟩
    intro now hnow
    obtain hin | hin := List.mem_append.mp hnow
    · exact h.due _ hin
    · obtain ⟨rfl, -⟩ | ⟨p, n, dl, rfl, hstop⟩ := h.last
      · cases hin
      · rw [List.mem_singleton, Prod.mk.injEq] at hin
        rw [hin.1] at hr'
        exact absurd (mem_queued.mpr ⟨dl, hstop.earliest.1⟩) hr'
  keys := by
    intro x hx
    have hkey := hk'.waiting_key x hx
    obtain ⟨s, hs⟩ := hw.procs x.2
    refine ⟨hkey, ?_⟩
    rw [hkey, hs]
  notDue := by
    intro hpos
    obtain ⟨-, hz⟩ | ⟨p, now, dl, rfl, hstop⟩ := h.last
    · omega
    · refine ⟨(p, now), by simp, ?_⟩
      intro x hx
      exact hstop.notDue.trans_le (hstop.earliest.2 x hx)
  woken := by
    intro r hr hr'
    exact ready_of_woken hk hk' hw hr hr'
  sleepers := by
    rw [h.left]
    exact Multiset.le_add_left _ _

/-- In every reachable state `timer_fn` wakes the sleepers that a round finds due and no
others, whatever the clock reads. -/
theorem run_wakesExpired (mem : M) (es : List Event) :
    Holds Stop.IsHalt (fun k => Holds Stop.IsHalt
      (fun k' => WakesExpired pf k k' (timerFnRounds pf k)) (timerFn pf k)) (run pf mem es) := by
  apply (run_inv pf mem es).mono
  intro k hk
  apply ((timerFn_spec pf hk.places hk.edf).and (timerFn_rounds pf hk.places)).mono
  intro k' hk'
  obtain ⟨⟨hinv, -, -, -, -, -, hw⟩, woken, stop, hlog, hrounds⟩ := hk'
  rw [hlog]
  exact hrounds.wakesExpired pf hk.places hinv hw

/-! ## The timer and the loop -/

/-- The two values are less than half of the counter's range apart, so that the sign of
their difference is their order, or the deadline is the tick after `now` where it wraps. -/
def InReach (now deadline : ℕ) : Prop :=
  (now < deadline → deadline - now < 2 ^ 63) ∧
    (deadline ≤ now → now - deadline ≤ 2 ^ 63 ∨ (deadline = 0 ∧ now + 1 = 2 ^ 64))

/-- `timer_schedule_at_ticks` takes a deadline for a future one exactly as the waiting heap
and `timer_fn` do. -/
def ArmsAsOrdered (now deadline : ℕ) : Prop :=
  compareValue now deadline = if now < deadline then deadline else (now + 1) % 2 ^ 64

/-- The sign of a 64-bit difference read as a signed number. -/
theorem signed_nonpos_iff {d : ℤ} (hlo : -2 ^ 64 < d) (hhi : d < 2 ^ 64) :
    Int.bmod d (2 ^ 64) ≤ 0 ↔ (-2 ^ 63 ≤ d ∧ d ≤ 0) ∨ 2 ^ 63 ≤ d := by
  have hcast : ((2 ^ 64 : ℕ) : ℤ) = 18446744073709551616 := by norm_num
  rw [Int.bmod_def, hcast]
  split_ifs
  · omega
  · omega

theorem InReach.armsAsOrdered {now deadline : ℕ} (h : InReach now deadline) :
    ArmsAsOrdered now deadline := by
  obtain ⟨hfut, hpast⟩ := h
  have hsign := signed_nonpos_iff (d := (deadline : ℤ) - now) (by omega) (by omega)
  unfold ArmsAsOrdered compareValue u64
  simp only [hsign]
  split_ifs
  · omega
  · omega
  · omega
  · omega

/-- The value is off in both directions: a deadline too far ahead counts as past, and one
too far back as ahead. -/
theorem armsAsOrdered_iff {now deadline : ℕ} (hnow : now < 2 ^ 64) (hdl : deadline < 2 ^ 64) :
    ArmsAsOrdered now deadline ↔ InReach now deadline := by
  refine ⟨?_, InReach.armsAsOrdered⟩
  have hsign := signed_nonpos_iff (d := (deadline : ℤ) - now) (by omega) (by omega)
  unfold ArmsAsOrdered compareValue u64 InReach
  simp only [hsign]
  split_ifs
  · omega
  · omega
  · omega
  · omega

theorem StoppedAt.not_before {k' : Kernel M} {p : ProcRef} {now dl : ℕ} (h : StoppedAt k' p now dl)
    (hreach : InReach k'.timer.setAt dl) : dl ≤ max k'.timer.setAt k'.timer.cval := by
  have harm := hreach.armsAsOrdered
  unfold ArmsAsOrdered at harm
  rw [h.cval, harm]
  split_ifs with hlt
  · exact le_max_right _ _
  · exact (Nat.le_of_not_lt hlt).trans (le_max_left _ _)

/-- A call of `timer_schedule_at_ticks` agrees with the order of the heap exactly when the
deadline is within half of the range. So whenever `timer_fn` leaves a sleeper whose deadline
`dl` is, the interrupt it arms is not before `dl`: the counter starts from `setAt` and fires
when it has reached `cval`. -/
theorem timer_agrees_iff (mem : M) (es : List Event) :
    (∀ now deadline (t : Timer), now < 2 ^ 64 → deadline < 2 ^ 64 →
      ((timerScheduleAtTicks now deadline t).2.cval =
        (if now < deadline then deadline else (now + 1) % 2 ^ 64) ↔ InReach now deadline)) ∧
    Holds Stop.IsHalt (fun k' => ∀ dl,
      IsLeast {u | ∃ r ∈ queued k'.sched.waiting, u = (k'.sched.proc r).waitUntil} dl →
      InReach k'.timer.setAt dl →
        k'.timer.enabled = true ∧ dl ≤ max k'.timer.setAt k'.timer.cval)
      (run pf mem es >>= timerFn pf) := by
  constructor
  · intro now deadline t hnow hdl
    exact armsAsOrdered_iff hnow hdl
  apply (run_inv pf mem es).bind
  intro k hk
  apply ((timerFn_spec pf hk.places hk.edf).and (timerFn_rounds pf hk.places)).mono
  intro k' hk'
  obtain ⟨⟨hinv, -⟩, woken, stop, -, hrounds⟩ := hk'
  intro dl hleast hreach
  obtain ⟨⟨r, hr, hdl⟩, hmin⟩ := hleast
  obtain ⟨-, hz⟩ | ⟨p, now, dl', -, hstop⟩ := hrounds.last
  · obtain ⟨key, hkey⟩ := mem_queued.mp hr
    rw [contents_eq_zero.mpr hz] at hkey
    exact absurd hkey (Multiset.notMem_zero _)
  · -- the sleeper at which the loop stopped is the earliest
    obtain ⟨hmem, hle⟩ := hstop.earliest
    obtain ⟨key, hkey⟩ := mem_queued.mp hr
    have hge : dl ≤ dl' := hmin ⟨p, mem_queued.mpr ⟨dl', hmem⟩, hinv.waiting_key _ hmem⟩
    have hle' : dl' ≤ dl := by
      rw [hdl]
      exact (hle _ hkey).trans_eq (hinv.waiting_key _ hkey)
    obtain rfl : dl = dl' := le_antisymm hge hle'
    exact ⟨hstop.enabled, hstop.not_before hreach⟩

/-- A process that sleeps for a while, and the timer for it. -/
theorem timer_agrees_near :
    (timerScheduleAtTicks 5 1000 ⟨false, 0, 0⟩).2.cval = 1000 ∧
      ((run quietPlatform () [.scheduleReq 0x50100000 4 4096, .waitUntil 1000] >>=
        timerFn quietPlatform).toOption.map fun k' =>
          (k'.sched.waiting.len, k'.timer.enabled, k'.timer.cval)) = some (1, true, 1000) := by
  obtain ⟨hcall, -⟩ := timer_agrees_iff quietPlatform ()
    [.scheduleReq 0x50100000 4 4096, .waitUntil 1000]
  have hreach : InReach 5 1000 := ⟨by decide, by decide⟩
  constructor
  · exact (hcall 5 1000 ⟨false, 0, 0⟩ (by decide) (by decide)).mpr hreach
  · decide +kernel

/-- At half of the range a deadline counts as past, and the interrupt comes at once. -/
theorem timer_not_agrees_far :
    ¬ ∀ now deadline (t : Timer), now < 2 ^ 64 → deadline < 2 ^ 64 →
      (timerScheduleAtTicks now deadline t).2.cval =
        if now < deadline then deadline else (now + 1) % 2 ^ 64 := by
  intro h
  have hval := h 0 (2 ^ 63) ⟨false, 0, 0⟩ (by decide) (by decide)
  have hcval : (timerScheduleAtTicks 0 (2 ^ 63) ⟨false, 0, 0⟩).2.cval = 1 := by decide
  rw [hcval] at hval
  exact absurd hval (by decide)

end JanusRT
