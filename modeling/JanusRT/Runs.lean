import JanusRT.Handlers

/-!
# Invariants of every run

Every event keeps the partition of the process table, the earliest deadline rule
and the timer discipline, so every state of every run from `sched_init` has them.
A run that does not reach a state was halted by the kernel itself: no handler
follows a NULL process, compares an unset deadline or loops without end.
-/
namespace JanusRT
open Heap Outcome

variable {M : Type} (pf : Platform M)

/-- What holds between two events. -/
structure KernelInv (k : Kernel M) : Prop where
  places : Inv 0 k.sched
  edf : Edf k.sched
  timer : TimerOk k

theorem schedInit_inv (mem : M) : Holds Stop.IsHalt KernelInv (schedInit pf mem) := by
  unfold schedInit kernMapCreate
  simp only [bind_assoc, pure_bind]
  apply (holds_call _).bind
  rintro ⟨root, m⟩ _
  refine ⟨⟨rfl, fun _ _ => rfl, ⟨.p0, rfl, rfl⟩, ?_, heapInit_wf _ _, heapInit_wf _ _, ?_, ?_⟩,
    ⟨?_, fun _ => rfl⟩, ?_⟩
  · have hfree : ∑ i ∈ Finset.range maxProc, ({ProcRef.pb i} : Multiset ProcRef) = allProcs := by
      rw [allProcs, ← Multiset.sum_map_singleton ((Multiset.range maxProc).map ProcRef.pb),
        Multiset.map_map]
      rfl
    simpa [freeStack, queued] using hfree
  · intro x hx
    simp at hx
  · intro x hx
    simp at hx
  · intro i hi
    simp at hi
  · intro r hr
    simp [queued] at hr

/-- One event. -/
theorem step_inv {k : Kernel M} (h : KernelInv k) (e : Event) :
    Holds Stop.IsHalt KernelInv (step pf k e) := by
  cases e with
  | scheduleReq pc progSize memReq =>
    apply (scheduleReq_spec pf h.places pc progSize memReq).mono
    intro k' hk'
    obtain ⟨hinv, hedf, ht, _, _, _, _, _, _, _, _, hc⟩ := hk'
    exact ⟨hinv, hedf, hc.timerOk h.timer h.places ht⟩
  | timerFn =>
    apply (timerFn_spec pf h.places h.edf).mono
    intro k' hk'
    obtain ⟨hinv, hedf, ht, _⟩ := hk'
    exact ⟨hinv, hedf, ht⟩
  | waitUntil u =>
    apply (waitUntil_spec pf h.places h.timer u).mono
    intro k' hk'
    obtain ⟨hinv, hedf, ht, _⟩ := hk'
    exact ⟨hinv, hedf, ht⟩
  | exit =>
    apply (exit_spec pf h.places).mono
    intro k' hk'
    obtain ⟨hinv, hedf, ht, _, i, _, _, _, hx⟩ := hk'
    refine ⟨hinv, hedf, h.timer.congr ht hx.waiting ?_⟩
    intro r _
    by_cases hr : r = .pb i
    · have hw : (k'.sched.pb i).waitUntil = (k.sched.pb i).waitUntil := by rw [hx.freed]
      rw [hr]
      exact hw
    · obtain ⟨s, hs⟩ := hx.others r hr
      rw [hs]
  | spawn deadline ep ap memReq =>
    apply (spawn_spec pf h.places deadline ep ap memReq).mono
    intro k' hk'
    obtain ⟨hinv, hedf, ht, _, _, _, _, _, _, _, _, _, hc⟩ := hk'
    exact ⟨hinv, hedf, hc.timerOk h.timer h.places ht⟩

/-- Every run. -/
theorem run_inv (mem : M) (es : List Event) : Holds Stop.IsHalt KernelInv (run pf mem es) :=
  (schedInit_inv pf mem).bind (Holds.foldlM (fun _ e h => step_inv pf h e) es)

/-! ## Process conservation -/

/-- The pids found in the free stack, the two heaps and the current slot. -/
def pids (sc : Sched) : Multiset ℕ :=
  (freeStack sc + queued sc.ready + queued sc.waiting + running sc.curr).map
    fun r => (sc.proc r).pid

structure Conserved (sc : Sched) : Prop where
  once : ∀ pid, 1 ≤ pid → pid ≤ maxProc → (pids sc).count pid = 1
  p0_not_free : .p0 ∉ freeStack sc
  p0_not_ready : .p0 ∉ queued sc.ready
  p0_not_waiting : .p0 ∉ queued sc.waiting
  current : ∃ r, sc.curr = some r ∧ sc.pid = (sc.proc r).pid
  total : sc.nfreeProc + sc.ready.len + sc.waiting.len +
    (if sc.curr = some .p0 then 0 else 1) = maxProc

theorem Inv.pids_eq {sc : Sched} (h : Inv 0 sc) :
    pids sc = (Multiset.range maxProc).map fun i => i + 1 := by
  have hp := h.places
  rw [add_zero] at hp
  rw [pids, hp, allProcs, Multiset.map_map]
  apply Multiset.map_congr rfl
  intro i hi
  exact h.pb_pid i (Multiset.mem_range.mp hi)

theorem Inv.conserved {sc : Sched} (h : Inv 0 sc) : Conserved sc := by
  have hp0 : ∀ r, r ∈ freeStack sc + queued sc.ready + queued sc.waiting → r ≠ .p0 := by
    rintro _ hr rfl
    have hm : ProcRef.p0 ∈ allProcs := by
      rw [← h.places]
      simp only [Multiset.mem_add] at hr ⊢
      tauto
    obtain ⟨i, _, hi⟩ := mem_allProcs.mp hm
    cases hi
  refine ⟨?_, fun hr => hp0 _ (by simp [hr]) rfl, fun hr => hp0 _ (by simp [hr]) rfl,
    fun hr => hp0 _ (by simp [hr]) rfl, h.curr, ?_⟩
  · intro pid hlo hhi
    obtain ⟨i, rfl⟩ : ∃ i, pid = i + 1 := ⟨pid - 1, by omega⟩
    rw [h.pids_eq]
    refine Multiset.count_eq_one_of_mem ?_ (Multiset.mem_map.mpr ⟨i, ?_, rfl⟩)
    · exact (Multiset.nodup_range _).map (add_left_injective 1)
    · exact Multiset.mem_range.mpr (by omega)
  · have hcard := congrArg Multiset.card h.places
    have hall : allProcs.card = maxProc := by rw [allProcs]; simp
    obtain ⟨r, hr, _⟩ := h.curr
    have hrun : (running sc.curr).card = if sc.curr = some .p0 then 0 else 1 := by
      rw [hr]
      cases r <;> simp
    simpa [hall, hrun] using hcard

/-- No event loses a process or queues it twice, in any order and with any arguments. -/
theorem run_conserved (mem : M) (es : List Event) :
    Holds Stop.IsHalt (fun k => Conserved k.sched) (run pf mem es) :=
  (run_inv pf mem es).mono fun _ h => h.places.conserved

/-! ## Earliest deadline first -/

/-- The running process has the least deadline of all ready ones, the kernel process
runs only when none is ready, and the heap is keyed by the deadlines it is used for. -/
structure RunsEarliest (sc : Sched) : Prop where
  earliest : ∀ i, sc.curr = some (.pb i) →
    ∀ r ∈ queued sc.ready, (sc.pb i).effDeadline ≤ (sc.proc r).effDeadline
  conserving : sc.curr = some .p0 → sc.ready.len = 0
  keys : ∀ x ∈ contents sc.ready, x.1 = (sc.proc x.2).effDeadline

theorem run_runsEarliest (mem : M) (es : List Event) :
    Holds Stop.IsHalt (fun k => RunsEarliest k.sched) (run pf mem es) := by
  apply (run_inv pf mem es).mono
  intro k h
  refine ⟨?_, h.edf.2, h.places.ready_key⟩
  intro i hi r hr
  obtain ⟨key, hkey⟩ := mem_queued.mp hr
  exact (h.edf.1 i hi _ hkey).trans_eq (h.places.ready_key _ hkey)

/-! ## No lost wake-up -/

/-- With sleepers the timer is on and its compare value is at most the earliest
wake-up time `m`, or one tick after the reading at which it was programmed. -/
def WakesInTime (k : Kernel M) : Prop :=
  0 < k.sched.waiting.len → k.timer.enabled = true ∧ ∃ m,
    IsLeast {u | ∃ r ∈ queued k.sched.waiting, u = (k.sched.proc r).waitUntil} m ∧
      k.timer.cval ≤ max m (k.timer.setAt + 1)

theorem KernelInv.wakesInTime {k : Kernel M} (h : KernelInv k) : WakesInTime k := by
  intro hpos
  obtain ⟨key, r, _, hmem, hmin⟩ := heapPeek_spec k.sched.waiting h.places.waiting_wf.ordered hpos
  have hr : r ∈ queued k.sched.waiting := mem_queued.mpr ⟨key, hmem⟩
  have hkey : key = (k.sched.proc r).waitUntil := h.places.waiting_key _ hmem
  refine ⟨(h.timer r hr).1, key, ⟨⟨r, hr, hkey⟩, ?_⟩, ?_⟩
  · intro out hout
    obtain ⟨q, hq, rfl⟩ := hout
    obtain ⟨key', hq'⟩ := mem_queued.mp hq
    exact (hmin _ hq').trans_eq (h.places.waiting_key _ hq')
  · rw [hkey]
    exact (h.timer r hr).2

/-- In every state of every run a sleeper has a timer that wakes it, and `timer_fn`
turns the timer off exactly when it leaves nobody asleep. -/
theorem run_wakesInTime (mem : M) (es : List Event) :
    Holds Stop.IsHalt WakesInTime (run pf mem es) ∧
      Holds Stop.IsHalt (fun k => k.sched.waiting.len = 0 → k.timer.enabled = false)
        (run pf mem es >>= timerFn pf) := by
  refine ⟨(run_inv pf mem es).mono fun _ h => h.wakesInTime, ?_⟩
  apply (run_inv pf mem es).bind
  intro k h
  apply (timerFn_spec pf h.places h.edf).mono
  intro k' hk'
  obtain ⟨_, _, _, hoff, _⟩ := hk'
  exact hoff

end JanusRT
