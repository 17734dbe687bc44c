import JanusRT.Events
import JanusRT.Lib.Outcome

/-!
# Where every process is

Abstractly the scheduler is a partition of the process table: free, ready, waiting
and running. `Inv held` states this partition for the faithful state, with `held`
for the processes that are between two containers in the middle of a handler. Each
scheduler operation gets one lemma that says what it moves.
-/
namespace JanusRT
open Heap Outcome
open scoped BigOperators

/-- All slots of the process table. -/
@[irreducible] def allProcs : Multiset ProcRef := (Multiset.range maxProc).map ProcRef.pb

/-- The first `nfree_proc` entries of `free_proc`. -/
def freeStack (sc : Sched) : Multiset ProcRef :=
  ∑ i ∈ Finset.range sc.nfreeProc, {sc.freeProc i}

/-- The processes of a heap. -/
def queued (h : MinHeap ProcRef) : Multiset ProcRef := (contents h).map Prod.snd

/-- The current slot, empty while the kernel process runs. -/
def running : Option ProcRef → Multiset ProcRef
  | some (.pb i) => {.pb i}
  | _ => 0

@[simp] theorem running_p0 : running (some .p0) = 0 := rfl

@[simp] theorem running_pb (i : ℕ) : running (some (.pb i)) = {.pb i} := rfl

theorem mem_running {c : Option ProcRef} {r : ProcRef} :
    r ∈ running c ↔ c = some r ∧ r ≠ .p0 := by
  cases c with
  | none => simp [running]
  | some c =>
    cases c with
    | p0 => simp [running, eq_comm]
    | pb i =>
      simp only [running, Multiset.mem_singleton, Option.some.injEq]
      refine ⟨?_, fun h => h.1.symm⟩
      rintro rfl
      exact ⟨rfl, by simp⟩

theorem mem_allProcs {r : ProcRef} : r ∈ allProcs ↔ ∃ i, i < maxProc ∧ r = .pb i := by
  simp [allProcs, eq_comm]

theorem nodup_allProcs : allProcs.Nodup := by
  rw [allProcs]
  exact (Multiset.nodup_range _).map (fun a b h => by injection h)

theorem mem_queued {h : MinHeap ProcRef} {r : ProcRef} :
    r ∈ queued h ↔ ∃ key, (key, r) ∈ contents h := by simp [queued]

theorem queued_cons {h h' : MinHeap ProcRef} {key : ℕ} {p : ProcRef}
    (he : contents h = (key, p) ::ₘ contents h') : queued h = p ::ₘ queued h' := by
  simp [queued, he]

@[simp] theorem card_queued (h : MinHeap ProcRef) : (queued h).card = h.len := by simp [queued]

@[simp] theorem card_freeStack (sc : Sched) : (freeStack sc).card = sc.nfreeProc := by
  simp [freeStack]

/-- The partition, the identity of `pid` with the slot number, and heaps whose keys
are the deadlines recorded in the processes. -/
structure Inv (held : Multiset ProcRef) (sc : Sched) : Prop where
  p0_pid : sc.p0.pid = 0
  pb_pid : ∀ i, i < maxProc → (sc.pb i).pid = i + 1
  curr : ∃ r, sc.curr = some r ∧ sc.pid = (sc.proc r).pid
  places : freeStack sc + queued sc.ready + queued sc.waiting + running sc.curr + held = allProcs
  ready_wf : Wf sc.ready
  waiting_wf : Wf sc.waiting
  ready_key : ∀ x ∈ contents sc.ready, x.1 = (sc.proc x.2).effDeadline
  waiting_key : ∀ x ∈ contents sc.waiting, x.1 = (sc.proc x.2).waitUntil

namespace Inv
variable {held : Multiset ProcRef} {sc : Sched}

theorem nodup (h : Inv held sc) :
    (freeStack sc + queued sc.ready + queued sc.waiting + running sc.curr + held).Nodup := by
  rw [h.places]
  exact nodup_allProcs

theorem disjoint_held (h : Inv held sc) {r : ProcRef} (hr : r ∈ held) :
    r ∉ freeStack sc + queued sc.ready + queued sc.waiting + running sc.curr := by
  intro hq
  exact Multiset.disjoint_left.mp (Multiset.nodup_add.mp h.nodup).2.2 hq hr

theorem disjoint_ready (h : Inv held sc) {r : ProcRef} (hr : r ∈ held) : r ∉ queued sc.ready :=
  fun hq => h.disjoint_held hr (by simp [hq])

theorem disjoint_waiting (h : Inv held sc) {r : ProcRef} (hr : r ∈ held) :
    r ∉ queued sc.waiting :=
  fun hq => h.disjoint_held hr (by simp [hq])

theorem slot_of_held (h : Inv held sc) {r : ProcRef} (hr : r ∈ held) :
    ∃ i, i < maxProc ∧ r = .pb i :=
  mem_allProcs.mp (by rw [← h.places]; simp [hr])

theorem slot_of_ready (h : Inv held sc) {r : ProcRef} (hr : r ∈ queued sc.ready) :
    ∃ i, i < maxProc ∧ r = .pb i :=
  mem_allProcs.mp (by rw [← h.places]; simp [hr])

theorem slot_of_waiting (h : Inv held sc) {r : ProcRef} (hr : r ∈ queued sc.waiting) :
    ∃ i, i < maxProc ∧ r = .pb i :=
  mem_allProcs.mp (by rw [← h.places]; simp [hr])

theorem slot_of_curr (h : Inv held sc) {i : ℕ} (hc : sc.curr = some (.pb i)) : i < maxProc := by
  have hm : ProcRef.pb i ∈ allProcs := by rw [← h.places]; simp [hc]
  obtain ⟨j, hj, he⟩ := mem_allProcs.mp hm
  injection he with he
  omega

/-- Writing a process that sits in no container, or writing none of the fields the
partition depends on, changes nothing. -/
theorem modify (h : Inv held sc) (r : ProcRef) (f : Proc → Proc)
    (hpid : ∀ q, (f q).pid = q.pid)
    (heff : r ∈ queued sc.ready → (f (sc.proc r)).effDeadline = (sc.proc r).effDeadline)
    (hwait : r ∈ queued sc.waiting → (f (sc.proc r)).waitUntil = (sc.proc r).waitUntil) :
    Inv held (sc.modify r f) := by
  have hp : ∀ s, ((sc.modify r f).proc s).pid = (sc.proc s).pid := by
    intro s
    rw [Sched.proc_modify]
    split_ifs with he
    · rw [he, hpid]
    · rfl
  constructor
  · have := hp .p0
    exact this.trans h.p0_pid
  · intro i hi
    have := hp (.pb i)
    exact this.trans (h.pb_pid i hi)
  · obtain ⟨c, hc, hpc⟩ := h.curr
    exact ⟨c, by simpa using hc, by rw [hp c]; simpa using hpc⟩
  · simpa [freeStack] using h.places
  · simpa using h.ready_wf
  · simpa using h.waiting_wf
  · intro x hx
    rw [Sched.modify_ready] at hx
    rw [Sched.proc_modify, h.ready_key x hx]
    split_ifs with he
    · rw [he, heff (mem_queued.mpr ⟨x.1, he ▸ hx⟩)]
    · rfl
  · intro x hx
    rw [Sched.modify_waiting] at hx
    rw [Sched.proc_modify, h.waiting_key x hx]
    split_ifs with he
    · rw [he, hwait (mem_queued.mpr ⟨x.1, he ▸ hx⟩)]
    · rfl

theorem modify_held (h : Inv held sc) {r : ProcRef} (hr : r ∈ held) (f : Proc → Proc)
    (hpid : ∀ q, (f q).pid = q.pid) : Inv held (sc.modify r f) :=
  h.modify r f hpid (fun hq => absurd hq (h.disjoint_ready hr))
    (fun hq => absurd hq (h.disjoint_waiting hr))

theorem setState (h : Inv held sc) (r : ProcRef) (s : State) : Inv held (setState sc r s) :=
  h.modify r _ (fun _ => rfl) (fun _ => rfl) (fun _ => rfl)

/-! Moves between the containers. -/

theorem pop_ready (h : Inv held sc) {h' : MinHeap ProcRef} {key : ℕ} {p : ProcRef} (hw : Wf h')
    (he : contents sc.ready = (key, p) ::ₘ contents h') :
    Inv (p ::ₘ held) { sc with ready := h' } where
  p0_pid := h.p0_pid
  pb_pid := h.pb_pid
  curr := h.curr
  places := by
    rw [← h.places, queued_cons he, ← Multiset.singleton_add, ← Multiset.singleton_add]
    simp only [freeStack]
    abel
  ready_wf := hw
  waiting_wf := h.waiting_wf
  ready_key x hx := h.ready_key x (by rw [he]; exact Multiset.mem_cons_of_mem hx)
  waiting_key := h.waiting_key

theorem pop_waiting (h : Inv held sc) {h' : MinHeap ProcRef} {key : ℕ} {p : ProcRef} (hw : Wf h')
    (he : contents sc.waiting = (key, p) ::ₘ contents h') :
    Inv (p ::ₘ held) { sc with waiting := h' } where
  p0_pid := h.p0_pid
  pb_pid := h.pb_pid
  curr := h.curr
  places := by
    rw [← h.places, queued_cons he, ← Multiset.singleton_add, ← Multiset.singleton_add]
    simp only [freeStack]
    abel
  ready_wf := h.ready_wf
  waiting_wf := hw
  ready_key := h.ready_key
  waiting_key x hx := h.waiting_key x (by rw [he]; exact Multiset.mem_cons_of_mem hx)

theorem push_ready {p : ProcRef} (h : Inv (p ::ₘ held) sc) {h' : MinHeap ProcRef} (hw : Wf h')
    (he : contents h' = ((sc.proc p).effDeadline, p) ::ₘ contents sc.ready) :
    Inv held { sc with ready := h' } where
  p0_pid := h.p0_pid
  pb_pid := h.pb_pid
  curr := h.curr
  places := by
    rw [← h.places, queued_cons he, ← Multiset.singleton_add, ← Multiset.singleton_add]
    simp only [freeStack]
    abel
  ready_wf := hw
  waiting_wf := h.waiting_wf
  ready_key x hx := by
    obtain rfl | hx := Multiset.mem_cons.mp (he ▸ hx)
    · rfl
    · exact h.ready_key x hx
  waiting_key := h.waiting_key

theorem push_waiting {p : ProcRef} (h : Inv (p ::ₘ held) sc) {h' : MinHeap ProcRef} (hw : Wf h')
    (he : contents h' = ((sc.proc p).waitUntil, p) ::ₘ contents sc.waiting) :
    Inv held { sc with waiting := h' } where
  p0_pid := h.p0_pid
  pb_pid := h.pb_pid
  curr := h.curr
  places := by
    rw [← h.places, queued_cons he, ← Multiset.singleton_add, ← Multiset.singleton_add]
    simp only [freeStack]
    abel
  ready_wf := h.ready_wf
  waiting_wf := hw
  ready_key := h.ready_key
  waiting_key x hx := by
    obtain rfl | hx := Multiset.mem_cons.mp (he ▸ hx)
    · rfl
    · exact h.waiting_key x hx

/-- The incoming process was held; the outgoing one is held now. -/
theorem switch {n : ProcRef} (h : Inv (running (some n)) sc) (c : ProcRef) :
    Inv (running sc.curr) (schedSwitchIrq sc c n) where
  p0_pid := h.p0_pid
  pb_pid := h.pb_pid
  curr := ⟨n, rfl, rfl⟩
  places := by
    rw [← h.places]
    simp only [schedSwitchIrq, freeStack]
    abel
  ready_wf := h.ready_wf
  waiting_wf := h.waiting_wf
  ready_key := h.ready_key
  waiting_key := h.waiting_key

theorem alloc (h : Inv held sc) (hn : 0 < sc.nfreeProc) :
    Inv (sc.freeProc (sc.nfreeProc - 1) ::ₘ held) { sc with nfreeProc := sc.nfreeProc - 1 } where
  p0_pid := h.p0_pid
  pb_pid := h.pb_pid
  curr := h.curr
  places := by
    obtain ⟨m, hm⟩ : ∃ m, sc.nfreeProc = m + 1 := ⟨sc.nfreeProc - 1, by omega⟩
    rw [← h.places, ← Multiset.singleton_add]
    simp only [freeStack, hm, Nat.add_sub_cancel, Finset.sum_range_succ]
    abel
  ready_wf := h.ready_wf
  waiting_wf := h.waiting_wf
  ready_key := h.ready_key
  waiting_key := h.waiting_key

theorem release {p : ProcRef} (h : Inv (p ::ₘ held) sc) :
    Inv held { sc with
      freeProc := Function.update sc.freeProc sc.nfreeProc p
      nfreeProc := sc.nfreeProc + 1 } where
  p0_pid := h.p0_pid
  pb_pid := h.pb_pid
  curr := h.curr
  places := by
    have hold : ∑ i ∈ Finset.range sc.nfreeProc,
        ({Function.update sc.freeProc sc.nfreeProc p i} : Multiset ProcRef) = freeStack sc := by
      apply Finset.sum_congr rfl
      intro i hi
      rw [Function.update_of_ne (Finset.mem_range.mp hi).ne]
    rw [← h.places, ← Multiset.singleton_add]
    simp only [freeStack, Finset.sum_range_succ, Function.update_self] at hold ⊢
    rw [hold]
    abel
  ready_wf := h.ready_wf
  waiting_wf := h.waiting_wf
  ready_key := h.ready_key
  waiting_key := h.waiting_key

end Inv

/-! ## Earliest deadline first -/

/-- No queued process is more urgent than the running one, and the kernel process
runs only when nothing is ready. -/
def Edf (sc : Sched) : Prop :=
  (∀ i, sc.curr = some (.pb i) →
    ∀ x ∈ contents sc.ready, (sc.pb i).effDeadline ≤ x.1) ∧
  (sc.curr = some .p0 → sc.ready.len = 0)

/-- A switch to a process at least as urgent as every queued one. -/
theorem edf_switch {sc : Sched} {c : ProcRef} {i : ℕ}
    (h : ∀ x ∈ contents sc.ready, (sc.pb i).effDeadline ≤ x.1) :
    Edf (schedSwitchIrq sc c (.pb i)) := by
  refine ⟨?_, ?_⟩
  · intro j hj x hx
    simp only [schedSwitchIrq, Option.some.injEq, ProcRef.pb.injEq] at hj
    subst j
    exact h x hx
  · intro hc
    simp [schedSwitchIrq] at hc

/-! ## What a queue operation leaves alone -/

/-- Process records agree up to their state field. -/
def SameProcs (sc sc' : Sched) : Prop :=
  ∀ r, ∃ s, sc'.proc r = { sc.proc r with state := s }

/-- A step between the ready heap and the current slot only. -/
structure Frame (sc sc' : Sched) : Prop where
  procs : SameProcs sc sc'
  waiting : sc'.waiting = sc.waiting
  freeProc : sc'.freeProc = sc.freeProc
  nfreeProc : sc'.nfreeProc = sc.nfreeProc

theorem Frame.refl (sc : Sched) : Frame sc sc := ⟨fun _ => ⟨_, rfl⟩, rfl, rfl, rfl⟩

theorem Frame.trans {s₁ s₂ s₃ : Sched} (h : Frame s₁ s₂) (h' : Frame s₂ s₃) : Frame s₁ s₃ where
  procs r := by
    obtain ⟨a, ha⟩ := h.procs r
    obtain ⟨b, hb⟩ := h'.procs r
    exact ⟨b, by rw [hb, ha]⟩
  waiting := h'.waiting.trans h.waiting
  freeProc := h'.freeProc.trans h.freeProc
  nfreeProc := h'.nfreeProc.trans h.nfreeProc

theorem frame_setState (sc : Sched) (r : ProcRef) (s : State) : Frame sc (setState sc r s) where
  procs q := by
    simp only [setState, Sched.proc_modify]
    split_ifs with he
    · exact ⟨s, by rw [he]⟩
    · exact ⟨_, rfl⟩
  waiting := by simp [setState]
  freeProc := by simp [setState]
  nfreeProc := by simp [setState]

theorem frame_ready (sc : Sched) (h : MinHeap ProcRef) : Frame sc { sc with ready := h } where
  procs r := ⟨(sc.proc r).state, by cases r <;> rfl⟩
  waiting := rfl
  freeProc := rfl
  nfreeProc := rfl

theorem frame_switch (sc : Sched) (c n : ProcRef) : Frame sc (schedSwitchIrq sc c n) where
  procs r := ⟨(sc.proc r).state, by cases r <;> rfl⟩
  waiting := rfl
  freeProc := rfl
  nfreeProc := rfl

/-! ## Specifications of the operations -/

@[simp] theorem holds_kernelPanic {α : Type} {P : α → Prop} (e : JrtErr) :
    Holds Stop.IsHalt P (kernelPanic e : Except Stop α) := trivial

theorem holds_call {α : Type} (x : Except Halt α) : Holds Stop.IsHalt (fun a => x = .ok a) (call x) := by
  cases x with
  | ok a => rfl
  | error e => trivial

theorem schedGetProc_succ {i : ℕ} (hi : i < maxProc) : schedGetProc (i + 1) = .ok (.pb i) := by
  have h : ¬ ((pidToIdx ((i + 1 : ℕ) : ℤ)) < 0 ∨ (maxProc : ℤ) ≤ pidToIdx ((i + 1 : ℕ) : ℤ)) := by
    simp only [pidToIdx]
    omega
  rw [schedGetProc, if_neg h]
  simp [pidToIdx]

theorem schedGetProc_zero : schedGetProc 0 = kernelPanic .einval := by
  simp [schedGetProc, pidToIdx]

theorem heapPushOrPanic_spec {h : MinHeap ProcRef} (hw : Wf h) (key : ℕ) (p : ProcRef) :
    Holds Stop.IsHalt (fun h' => Wf h' ∧ contents h' = (key, p) ::ₘ contents h)
      (heapPushOrPanic h key p) := by
  by_cases hf : h.len = h.cap
  · simp [heapPushOrPanic, heapPush_full h key p hf]
  · obtain ⟨h', he, hw', _, _, hc⟩ := heapPush_spec h key p hw (lt_of_le_of_ne hw.le_cap hf)
    simp [heapPushOrPanic, he, hw', hc]

theorem schedReadyProc_spec {held : Multiset ProcRef} {sc : Sched} {i : ℕ}
    (h : Inv (.pb i ::ₘ held) sc) :
    Holds Stop.IsHalt (fun sc' => Inv held sc' ∧ ∃ h', sc' = { sc with ready := h' } ∧
      contents h' = ((sc.pb i).effDeadline, .pb i) ::ₘ contents sc.ready)
      (schedReadyProc sc (i + 1)) := by
  obtain ⟨j, hj, he⟩ := h.slot_of_held (Multiset.mem_cons_self _ _)
  injection he with he
  subst j
  rw [schedReadyProc, schedGetProc_succ hj]
  apply (heapPushOrPanic_spec h.ready_wf _ _).bind
  intro h' hh'
  obtain ⟨hw, hc⟩ := hh'
  exact ⟨h.push_ready hw hc, h', rfl, hc⟩

theorem schedWaitProc_spec {held : Multiset ProcRef} {sc : Sched} {i : ℕ}
    (h : Inv (.pb i ::ₘ held) sc) :
    Holds Stop.IsHalt (fun sc' => Inv held sc' ∧ ∃ h', sc' = { sc with waiting := h' } ∧
      contents h' = ((sc.pb i).waitUntil, .pb i) ::ₘ contents sc.waiting)
      (schedWaitProc sc (i + 1)) := by
  obtain ⟨j, hj, he⟩ := h.slot_of_held (Multiset.mem_cons_self _ _)
  injection he with he
  subst j
  rw [schedWaitProc, schedGetProc_succ hj]
  apply (heapPushOrPanic_spec h.waiting_wf _ _).bind
  intro h' hh'
  obtain ⟨hw, hc⟩ := hh'
  exact ⟨h.push_waiting hw hc, h', rfl, hc⟩

/-- The process behind `sc->pid` is the current one. -/
theorem p0OrProc_spec {held : Multiset ProcRef} {sc : Sched} (h : Inv held sc) :
    ∃ r, sc.curr = some r ∧ sc.pid = (sc.proc r).pid ∧ p0OrProc sc.pid sc.pid = .ok r := by
  obtain ⟨r, hr, hpid⟩ := h.curr
  refine ⟨r, hr, hpid, ?_⟩
  cases r with
  | p0 =>
    have hp : sc.pid = 0 := hpid.trans h.p0_pid
    rw [p0OrProc, if_pos hp]
  | pb i =>
    have hi := h.slot_of_curr hr
    have hp : sc.pid = i + 1 := hpid.trans (h.pb_pid i hi)
    rw [hp, p0OrProc, if_neg (Nat.succ_ne_zero i), schedGetProc_succ hi]

end JanusRT
