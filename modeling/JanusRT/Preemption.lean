import JanusRT.Switching

/-!
# `sched` on its own

`sched` as an operation on any state whose ready heap is ordered, not only on those that
the handlers reach. The handlers call it right after a push, so the heap is never empty
there. Without that, the early return is not taken: the test for a NULL process encloses
the test of `curr`, and the rest of the function reads what `heap_peek` has not written.
-/
namespace JanusRT
open Heap Outcome

/-- The states `sched` is called on, with `cur` for `sc->curr`. -/
structure Schedulable (sc : Sched) (cur : ProcRef) : Prop where
  p0_pid : sc.p0.pid = 0
  pb_pid : ∀ i, i < maxProc → (sc.pb i).pid = i + 1
  ordered : HeapOrdered sc.ready
  room : sc.ready.len < sc.ready.cap
  curr : sc.curr = some cur
  slot : ∀ i, cur = .pb i → i < maxProc ∧ .pb i ∉ queued sc.ready
  pid : sc.pid = (sc.proc cur).pid

/-- Nothing is ready, or the running process is as urgent as everything that is. -/
def NoSwitch (sc : Sched) (cur : ProcRef) : Prop :=
  sc.ready.len = 0 ∨ ∃ i, cur = .pb i ∧ ∀ x ∈ contents sc.ready, (sc.pb i).effDeadline ≤ x.1

/-- A process of least key becomes current and takes the place of `cur`, which is queued
unless it is the kernel process. No other process moves. -/
structure Replaces (sc sc' : Sched) (cur : ProcRef) (key : ℕ) (p : ProcRef) : Prop where
  least : ∀ x ∈ contents sc.ready, key ≤ x.1
  curr : sc'.curr = some p
  pid : sc'.pid = (sc.proc p).pid
  ready : (key, p) ::ₘ contents sc'.ready = contents sc.ready +
    if cur = .p0 then 0 else {((sc.proc cur).effDeadline, cur)}
  ordered : HeapOrdered sc'.ready
  frame : Frame sc sc'

/-- What `sched` is for: it returns, and it switches exactly when it has to. -/
def SchedCorrect (sc : Sched) (cur : ProcRef) : Prop :=
  ∃ sc', sched schedSwitchIrq sc = .ok sc' ∧ (NoSwitch sc cur → sc' = sc) ∧
    (¬ NoSwitch sc cur → ∃ key p, Replaces sc sc' cur key p)

namespace Schedulable
variable {sc : Sched} {cur : ProcRef}

theorem pid_eq_zero (h : Schedulable sc cur) : (sc.proc cur).pid = 0 ↔ cur = .p0 := by
  cases cur with
  | p0 => exact ⟨fun _ => rfl, fun _ => h.p0_pid⟩
  | pb i =>
    have hpid : (sc.proc (.pb i)).pid = i + 1 := h.pb_pid i (h.slot i rfl).1
    rw [hpid]
    simp

theorem p0OrProc_eq (h : Schedulable sc cur) : p0OrProc (sc.proc cur).pid sc.pid = .ok cur := by
  rw [h.pid]
  cases cur with
  | p0 =>
    have hpid : (sc.proc .p0).pid = 0 := h.p0_pid
    rw [p0OrProc, if_pos hpid]
  | pb i =>
    have hpid : (sc.proc (.pb i)).pid = i + 1 := h.pb_pid i (h.slot i rfl).1
    rw [p0OrProc, hpid, if_neg (Nat.succ_ne_zero i), schedGetProc_succ (h.slot i rfl).1]

/-- The switch of `sched`, with something to switch to. -/
theorem preempts (h : Schedulable sc cur) (hpos : 0 < sc.ready.len) :
    ∃ sc' key p, schedPreempt schedSwitchIrq sc cur cur = .ok sc' ∧ Replaces sc sc' cur key p := by
  obtain ⟨key, p, h', hpop, hpeek, hord, _, hlen, hcap, hcont⟩ :=
    heapPop_ordered sc.ready h.ordered hpos
  have hmin := (heapPeek_some h.ordered hpeek).2
  have hframe : Frame sc (setState (setState { sc with ready := h' } p .running) cur .ready) :=
    ((frame_ready sc h').trans (frame_setState _ _ _)).trans (frame_setState _ _ _)
  unfold schedPreempt
  rw [hpop]
  simp only [Option.map_some, deref, ok_bind]
  generalize hs : setState (setState { sc with ready := h' } p .running) cur .ready = s at hframe
  have hready : s.ready = h' := by rw [← hs]; simp
  have hpid : ∀ q, (s.proc q).pid = (sc.proc q).pid := by
    intro q
    obtain ⟨st, he⟩ := hframe.procs q
    rw [he]
  rw [hpid cur]
  by_cases hp0 : cur = .p0
  · rw [if_neg (not_not.mpr (h.pid_eq_zero.mpr hp0))]
    refine ⟨_, key, p, rfl, hmin, rfl, hpid p, ?_, ?_, hframe.trans (frame_switch _ _ _)⟩
    · rw [if_pos hp0, add_zero, hcont]
      simp [schedSwitchIrq, hready]
    · simpa [schedSwitchIrq, hready] using hord
  · rw [if_pos (fun hz => hp0 (h.pid_eq_zero.mp hz))]
    obtain ⟨i, rfl⟩ : ∃ i, cur = .pb i := by
      cases cur with
      | p0 => exact absurd rfl hp0
      | pb i => exact ⟨i, rfl⟩
    have hi := (h.slot i rfl).1
    have hproc : (sc.proc (.pb i)).pid = i + 1 := h.pb_pid i hi
    have heff : (s.proc (.pb i)).effDeadline = (sc.proc (.pb i)).effDeadline := by
      obtain ⟨st, he⟩ := hframe.procs (.pb i)
      rw [he]
    have hroom : s.ready.len < s.ready.cap := by
      have := h.room
      rw [hready]
      omega
    obtain ⟨h'', hpush, hord'', _, _, _, hcont''⟩ := heapPush_ordered s.ready
      (s.proc (.pb i)).effDeadline (.pb i) (by rw [hready]; exact hord) hroom
    have hrdy : schedReadyProc s (i + 1) = .ok { s with ready := h'' } := by
      rw [schedReadyProc, schedGetProc_succ hi, ok_bind, heapPushOrPanic, hpush]
      rfl
    rw [hproc, hrdy]
    refine ⟨_, key, p, rfl, hmin, rfl, ?_, ?_, hord'',
      (hframe.trans (frame_ready _ _)).trans (frame_switch _ _ _)⟩
    · rw [← hpid p]
      cases p <;> rfl
    · rw [if_neg hp0]
      simp only [schedSwitchIrq]
      rw [hcont'', hcont, heff, hready, Multiset.cons_swap, ← Multiset.singleton_add, add_comm]

/-- With something ready `sched` does what it is for. -/
theorem correct (h : Schedulable sc cur) (hpos : 0 < sc.ready.len) : SchedCorrect sc cur := by
  obtain ⟨key, p, hpeek, hmem, hmin⟩ := heapPeek_spec sc.ready h.ordered hpos
  obtain ⟨sc', key', p', hrun, hrep⟩ := h.preempts hpos
  have hstep : sched schedSwitchIrq sc = if (sc.proc cur).pid = 0 ∨ key < (sc.proc cur).effDeadline
      then schedPreempt schedSwitchIrq sc cur cur else .ok sc := by
    unfold sched
    rw [hpeek, h.curr]
    simp only [reduceCtorEq, false_and, if_false, deref, ok_bind, h.p0OrProc_eq]
    by_cases hz : (sc.proc cur).pid = 0
    · simp [hz]
    · simp [hz, pure, Except.pure]
  -- the comparison with the first key is the comparison with all keys
  have hstay : NoSwitch sc cur ↔ ¬ ((sc.proc cur).pid = 0 ∨ key < (sc.proc cur).effDeadline) := by
    rw [h.pid_eq_zero, not_or, Nat.not_lt]
    constructor
    · rintro (hz | ⟨i, rfl, hle⟩)
      · exact absurd hz hpos.ne'
      · exact ⟨by simp, hle _ hmem⟩
    · rintro ⟨hp0, hle⟩
      cases cur with
      | p0 => exact absurd rfl hp0
      | pb i => exact Or.inr ⟨i, rfl, fun x hx => hle.trans (hmin x hx)⟩
  unfold SchedCorrect
  rw [hstay, hstep]
  split_ifs with hgo
  · exact ⟨sc', hrun, fun hn => absurd hgo hn, fun _ => ⟨key', p', hrep⟩⟩
  · exact ⟨sc, rfl, fun _ => rfl, fun hn => absurd hgo hn⟩

/-- With nothing ready `sched` follows a NULL process or reads an unset deadline. -/
theorem stuck (h : Schedulable sc cur) (hz : sc.ready.len = 0) :
    sched schedSwitchIrq sc = .error (if cur = .p0 then .nullDeref else .unsetRead) := by
  unfold sched
  rw [heapPeek_empty sc.ready hz, h.curr]
  simp only [reduceCtorEq, and_false, if_false, deref, ok_bind, h.p0OrProc_eq, h.pid_eq_zero]
  split_ifs with hp0
  · unfold schedPreempt
    rw [heapPop_empty sc.ready hz]
    rfl
  · rfl

end Schedulable

/-- `sched` does what it is for exactly when the ready heap is not empty. -/
theorem sched_correct_iff {sc : Sched} {cur : ProcRef} (h : Schedulable sc cur) :
    SchedCorrect sc cur ↔ 0 < sc.ready.len := by
  constructor
  · rintro ⟨sc', hrun, -⟩
    by_contra hz
    rw [h.stuck (Nat.eq_zero_of_not_pos hz)] at hrun
    cases hrun
  · exact h.correct

/-- The kernel process runs, with the given ready heap. -/
def kernelRuns (ready : MinHeap ProcRef) : Sched where
  p0 := zeroProc
  curr := some .p0
  pid := 0
  pb i := { zeroProc with pid := i + 1 }
  freeProc := .pb
  nfreeProc := 0
  ready := ready
  waiting := heapInit (fun _ => ⟨0, .p0, 0⟩) readyMax

theorem kernelRuns_schedulable {ready : MinHeap ProcRef} (ho : HeapOrdered ready)
    (hroom : ready.len < ready.cap) : Schedulable (kernelRuns ready) .p0 where
  p0_pid := rfl
  pb_pid _ _ := rfl
  ordered := ho
  room := hroom
  curr := rfl
  slot _ hi := by cases hi
  pid := rfl

/-- Three processes are ready, with the deadlines 5, 7 and 6. -/
def threeReady : MinHeap ProcRef where
  a i := [⟨5, .pb 3, 0⟩, ⟨7, .pb 4, 1⟩, ⟨6, .pb 5, 2⟩].getD i ⟨0, .p0, 0⟩
  len := 3
  cap := readyMax

/-- A process with deadline 9 runs. -/
def processRuns : Sched :=
  { kernelRuns threeReady with
    curr := some (.pb 0)
    pid := 1
    pb := fun i => { zeroProc with pid := i + 1, effDeadline := 9 } }

theorem processRuns_schedulable : Schedulable processRuns (.pb 0) where
  p0_pid := rfl
  pb_pid _ _ := rfl
  ordered := by
    rintro (_ | _ | _ | j) hpos hlt
    · exact absurd rfl hpos.ne'
    · decide
    · decide
    · exact absurd hlt (by simp [processRuns, kernelRuns, threeReady])
  room := by decide
  curr := rfl
  slot i hi := by
    obtain rfl := ProcRef.pb.inj hi
    exact ⟨by decide, by decide⟩
  pid := rfl

/-- The process is queued, and one with the least deadline runs. -/
theorem sched_correct_three_ready :
    ∃ sc' key p, sched schedSwitchIrq processRuns = .ok sc' ∧
      Replaces processRuns sc' (.pb 0) key p := by
  obtain ⟨sc', hrun, -, hgo⟩ := (sched_correct_iff processRuns_schedulable).mpr (by decide)
  obtain ⟨key, p, hrep⟩ := hgo (by
    rintro (hz | ⟨i, hi, hle⟩)
    · cases hz
    · obtain rfl := ProcRef.pb.inj hi
      exact absurd (hle (5, .pb 3) (by decide)) (by decide))
  exact ⟨sc', key, p, hrun, hrep⟩

/-- No process is ready, as after `sched_init`. -/
theorem sched_not_correct_idle :
    Schedulable (kernelRuns (heapInit (fun _ => ⟨0, .p0, 0⟩) readyMax)) .p0 ∧
      ¬ SchedCorrect (kernelRuns (heapInit (fun _ => ⟨0, .p0, 0⟩) readyMax)) .p0 := by
  have h := kernelRuns_schedulable (heapInit_wf (fun _ => ⟨0, .p0, 0⟩) readyMax).ordered (by decide)
  refine ⟨h, ?_⟩
  rintro ⟨sc', hrun, -⟩
  rw [h.stuck rfl] at hrun
  cases hrun

end JanusRT
