import JanusRT.ContextSwitch

/-!
# Every process resumes where it stopped

Beside the machine runs a record of the registers that each process is to go on with:
those of its last interruption, or those its creation stored. The record is made from
the exceptions alone. The contexts in `G_SCHED` agree with it for all processes that
are not free, whatever the events of an exception switch, create or free, so the
machine leaves every exception with the registers on record.
-/
namespace JanusRT.Exceptions
open Outcome

variable {M : Type} (pf : Platform M) (gSched : ℕ)

/-! ## The record -/

/-- The slot and the registers that `sched_new_proc` gives to a new process. -/
def newborn (k : Kernel M) (pc progSize memReq : ℕ) : Option (ProcRef × Ctx) := do
  let a ← (pf.alloc k.mem memReq).toOption
  let b ← (pf.procRoot a.2 pc progSize).toOption
  return (k.sched.freeProc (k.sched.nfreeProc - 1),
    newCtx a.1 memReq pf.jrtExit ⟨b.1, k.asid⟩)

/-- The process that an event creates; `spawn` adds its entry point and argument. -/
def created (k : Kernel M) : Event → Option (ProcRef × Ctx)
  | .scheduleReq pc progSize memReq => newborn pf k pc progSize memReq
  | .spawn _ ep ap memReq => do
    let cur ← k.sched.curr
    let b ← newborn pf k (k.sched.proc cur).paPc (k.sched.proc cur).progSize memReq
    return (b.1, { b.2 with pc := ep, x := Function.update b.2.x 2 ap })
  | _ => none

def remember (k : Kernel M) (last : ProcRef → Ctx) (e : Event) : ProcRef → Ctx :=
  match created pf k e with
  | none => last
  | some b => Function.update last b.1 b.2

/-- The record after the events of an exception. -/
def follow (k : Kernel M) (last : ProcRef → Ctx) : List Event → ProcRef → Ctx
  | [] => last
  | e :: es =>
    match step pf k e with
    | .error _ => last
    | .ok k' => follow k' (remember pf k last e) es

/-- The record after an exception: the interrupted process stopped with the registers it
had then, and its map is still its own. -/
def recordTrap (t : Trap) (k : Kernel M) (last : ProcRef → Ctx) : ProcRef → Ctx :=
  match k.sched.curr with
  | none => last
  | some r =>
    match t.events (suspend t k r).sched with
    | .error _ => last
    | .ok es => follow pf (suspend t k r) (Function.update last r (t.saved (last r))) es

structure Recorded (M : Type) where
  machine : Machine M
  last : ProcRef → Ctx

def takeRecorded (st : Recorded M) (t : Trap) : Except Stop (Recorded M) := do
  let m ← takeTrap pf gSched t st.machine
  return ⟨m, recordTrap pf t st.machine.kernel st.last⟩

/-- The machine after `sched_init`, whatever is in the registers. -/
def bootRecorded (m : Machine M) (mem : M) : Except Stop (Recorded M) := do
  let k ← schedInit pf mem
  return ⟨{ m with kernel := k }, fun r => (k.sched.proc r).ctx⟩

/-! ## Contexts along events -/

/-- The contexts of the processes that are not free are on record. -/
def Kept (sc : Sched) (last : ProcRef → Ctx) : Prop :=
  ∀ r, r ∉ freeStack sc → (sc.proc r).ctx = last r

section
variable {k k' : Kernel M} {sc sc' : Sched} {last : ProcRef → Ctx} {r : ProcRef}

theorem Kept.mono (h : Kept sc last) (hfree : ∀ r, r ∈ freeStack sc → r ∈ freeStack sc')
    (hctx : ∀ r, r ∉ freeStack sc' → (sc'.proc r).ctx = (sc.proc r).ctx) : Kept sc' last := by
  intro r hr
  have hr' : r ∉ freeStack sc := fun hm => hr (hfree r hm)
  exact (hctx r hr).trans (h r hr')

theorem Kept.creates {q : Proc} (h : Kept sc last) (hc : Creates sc sc' q) :
    Kept sc' (Function.update last (sc.freeProc (sc.nfreeProc - 1)) q.ctx) := by
  have hslot : sc.nfreeProc - 1 = sc'.nfreeProc := by have := hc.nfreeProc; omega
  rw [hslot]
  intro r hr
  by_cases hnew : r = sc.freeProc sc'.nfreeProc
  · obtain ⟨s, hs⟩ := hc.created
    rw [hnew, hs, Function.update_self]
  · obtain ⟨s, hs⟩ := hc.others r hnew
    have hr' : r ∉ freeStack sc := by
      rw [hc.freeStack_eq, Multiset.mem_cons, not_or]
      exact ⟨hnew, hr⟩
    rw [hs, Function.update_of_ne hnew]
    exact h r hr'

/-- Nothing is freed and no context written. -/
theorem Kept.congr (h : Kept sc last) (hfree : freeStack sc' = freeStack sc)
    (hctx : ∀ r, (sc'.proc r).ctx = (sc.proc r).ctx) : Kept sc' last := by
  apply h.mono
  · intro r hr
    rw [hfree]
    exact hr
  · intro r _
    exact hctx r

/-- The context of a process that exits is not needed any more. -/
theorem Kept.exits {i : ℕ} (h : Kept sc last) (hx : Exits sc sc' i) : Kept sc' last := by
  apply h.mono
  · intro r hr
    rw [hx.freeStack_eq]
    exact Multiset.mem_cons_of_mem hr
  · intro r hr
    rw [hx.freeStack_eq, Multiset.mem_cons, not_or] at hr
    obtain ⟨s, hs⟩ := hx.others r hr.1
    rw [hs]

/-- One event. -/
theorem step_kept (hk : KernelInv k) (h : Kept k.sched last) (e : Event) :
    Holds Stop.IsHalt (fun k' => KernelInv k' ∧ Kept k'.sched (remember pf k last e))
      (step pf k e) := by
  apply (step_inv pf hk e).and
  cases e with
  | scheduleReq pc progSize memReq =>
    apply (scheduleReq_spec pf hk.places pc progSize memReq).mono
    intro k' hk'
    obtain ⟨-, -, -, -, mem, m, root, p, halloc, -, hroot, hc⟩ := hk'
    have hrec : created pf k (.scheduleReq pc progSize memReq) = some
        (k.sched.freeProc (k.sched.nfreeProc - 1), newCtx mem memReq pf.jrtExit ⟨root, k.asid⟩) := by
      simp [created, newborn, halloc, hroot, Except.toOption]
    rw [remember, hrec]
    exact h.creates hc
  | timerFn =>
    apply (timerFn_spec pf hk.places hk.edf).mono
    intro k' hk'
    obtain ⟨-, -, -, -, -, -, hw⟩ := hk'
    exact h.congr (freeStack_congr hw.freeProc hw.nfreeProc) hw.ctx
  | waitUntil u =>
    apply (waitUntil_spec pf hk.places hk.timer u).mono
    intro k' hk'
    obtain ⟨-, -, -, -, -, i, hs⟩ := hk'
    exact h.congr (freeStack_congr hs.freeProc hs.nfreeProc) hs.ctx
  | exit =>
    apply (exit_spec pf hk.places).mono
    intro k' hk'
    obtain ⟨-, -, -, -, i, -, -, -, hx⟩ := hk'
    exact h.exits hx
  | spawn deadline ep ap memReq =>
    apply (spawn_spec pf hk.places deadline ep ap memReq).mono
    intro k' hk'
    obtain ⟨-, -, -, -, cur, mem, m, root, p, hcur, halloc, hroot, hc⟩ := hk'
    have hrec : created pf k (.spawn deadline ep ap memReq) = some
        (k.sched.freeProc (k.sched.nfreeProc - 1),
          { newCtx mem memReq pf.jrtExit ⟨root, k.asid⟩ with
            pc := ep
            x := Function.update (newCtx mem memReq pf.jrtExit ⟨root, k.asid⟩).x 2 ap }) := by
      simp [created, newborn, hcur, halloc, hroot, Except.toOption]
    rw [remember, hrec]
    exact h.creates hc

/-- All events of an exception. -/
theorem follow_kept (hk : KernelInv k) (h : Kept k.sched last) (es : List Event) :
    Holds Stop.IsHalt (fun k' => KernelInv k' ∧ Kept k'.sched (follow pf k last es))
      (es.foldlM (step pf) k) := by
  induction es generalizing k last with
  | nil => exact ⟨hk, h⟩
  | cons e es ih =>
    rw [List.foldlM_cons]
    have hstep := step_kept pf hk h e
    cases hrun : step pf k e with
    | error e' =>
      rw [hrun] at hstep
      exact hstep
    | ok k' =>
      obtain ⟨hk', h'⟩ := hstep.of_ok hrun
      simp only [follow, hrun]
      exact ih hk' h'

/-! ## The interrupted process -/

theorem exists_of_curr (hk : KernelInv k) (hcur : k.sched.curr = some r) : Exists r := by
  cases r with
  | p0 => trivial
  | pb i => exact hk.places.slot_of_curr hcur

theorem curr_not_free (hk : KernelInv k) (hcur : k.sched.curr = some r) :
    r ∉ freeStack k.sched := by
  cases r with
  | p0 => exact hk.places.conserved.p0_not_free
  | pb i =>
    intro hfree
    have hnd := hk.places.nodup
    rw [add_zero, Multiset.nodup_add] at hnd
    have hrun : ProcRef.pb i ∈ running k.sched.curr := by simp [hcur]
    exact Multiset.disjoint_left.mp hnd.2.2 (by simp [hfree]) hrun

theorem suspend_inv (t : Trap) (hk : KernelInv k) (r : ProcRef) : KernelInv (suspend t k r) := by
  constructor
  · exact hk.places.modify r (fun q => { q with ctx := t.saved (k.sched.proc r).ctx })
      (fun _ => rfl) (fun _ => rfl) (fun _ => rfl)
  · exact hk.edf.modify r (fun q => { q with ctx := t.saved (k.sched.proc r).ctx }) fun _ => rfl
  · refine hk.timer.congr rfl (Sched.modify_waiting _ _ _) ?_
    intro s _
    rw [suspend, proc_withCtx]
    split_ifs with hs
    · rw [hs]
    · rfl

theorem suspend_kept (t : Trap) (hk : KernelInv k) (h : Kept k.sched last)
    (hcur : k.sched.curr = some r) :
    Kept (suspend t k r).sched (Function.update last r (t.saved (last r))) := by
  have hlast := h r (curr_not_free hk hcur)
  intro s hs
  by_cases hsr : s = r
  · rw [hsr, Function.update_self, ← hlast]
    exact proc_withCtx_ctx _ _ _
  · have hfree : freeStack (suspend t k r).sched = freeStack k.sched :=
      freeStack_congr (Sched.modify_freeProc _ _ _) (Sched.modify_nfreeProc _ _ _)
    have hs' : s ∉ freeStack k.sched := by rwa [hfree] at hs
    rw [Function.update_of_ne hsr, ← h s hs', suspend, proc_withCtx, if_neg hsr]

end

/-! ## Runs -/

/-- What holds between two exceptions. -/
structure RecordedInv (st : Recorded M) : Prop where
  kernel : KernelInv st.machine.kernel
  kept : Kept st.machine.kernel.sched st.last

/-- The machine runs the current process with the registers on record for it, under its
own table root and identifier. -/
def Resumed (st : Recorded M) : Prop :=
  ∃ r, st.machine.kernel.sched.curr = some r ∧ (∀ i ≤ 30, st.machine.x i = (st.last r).x i) ∧
    st.machine.sp = (st.last r).sp ∧ st.machine.pc = (st.last r).pc ∧
    st.machine.pstate = (st.last r).pstate ∧
    st.machine.ttbr0 = writeTtbr0Asid (st.last r).mmap.root.l0Pa (st.last r).mmap.asid

/-- The stops of an exception. The handler table is read past its end for one number. -/
def TrapStop (e : Stop) : Prop := e.IsHalt ∨ e = .unsetRead

theorem events_holds (t : Trap) {sc : Sched} {r : ProcRef} (hcur : sc.curr = some r) :
    Holds TrapStop (fun _ => True) (t.events sc) := by
  unfold Trap.events irqEvents syncEvents
  rw [hcur]
  simp only [deref, ok_bind]
  split_ifs
  all_goals simp [TrapStop, Holds, Stop.IsHalt, pure, Except.pure]

/-- One exception. -/
theorem takeRecorded_inv {st : Recorded M} (h : RecordedInv st) (t : Trap) :
    Holds TrapStop (fun st' => RecordedInv st' ∧ Resumed st') (takeRecorded pf gSched st t) := by
  obtain ⟨r, hcur, _⟩ := h.kernel.places.curr
  have hr := exists_of_curr h.kernel hcur
  obtain ⟨back, htrap, hback⟩ := takeTrap_eq pf gSched t hr hcur
  have hsinv := suspend_inv t h.kernel r
  have hskept := suspend_kept t h.kernel h.kept hcur
  have hscur : (suspend t st.machine.kernel r).sched.curr = some r :=
    (withCtx_curr _ _ _).trans hcur
  rw [takeRecorded, htrap, recordTrap, hcur]
  simp only [bind_assoc]
  have hev := events_holds t hscur
  cases hes : t.events (suspend t st.machine.kernel r).sched with
  | error e =>
    rw [hes] at hev
    exact hev
  | ok es =>
    rw [ok_bind]
    have hrun := follow_kept pf hsinv hskept es
    cases hk : es.foldlM (step pf) (suspend t st.machine.kernel r) with
    | error e =>
      rw [hk] at hrun
      exact Or.inl hrun
    | ok k =>
      obtain ⟨hkinv, hkept⟩ := hrun.of_ok hk
      obtain ⟨s, hs, _⟩ := hkinv.places.curr
      obtain ⟨m, hm, hloaded, rfl⟩ := hback k s hs (exists_of_curr hkinv hs)
      have hctx := hkept s (curr_not_free hkinv hs)
      rw [ok_bind, hm, ok_bind]
      refine ⟨⟨hkinv, hkept⟩, s, hs, ?_⟩
      simp only
      rw [← hctx]
      exact ⟨hloaded.x, hloaded.sp, hloaded.pc, hloaded.pstate, hloaded.ttbr0⟩

theorem bootRecorded_inv (m : Machine M) (mem : M) :
    Holds TrapStop RecordedInv (bootRecorded pf m mem) := by
  have hinit := schedInit_inv pf mem
  unfold bootRecorded
  cases hk : schedInit pf mem with
  | error e =>
    rw [hk] at hinit
    exact Or.inl hinit
  | ok k => exact ⟨hinit.of_ok hk, fun r _ => rfl⟩

/-- In every run of interrupts and system calls, each exception ends in a process that has
the registers of its last interruption or, if it has not run yet, of its creation. -/
theorem traps_resume (m : Machine M) (mem : M) (ts : List Trap) (t : Trap) :
    Holds TrapStop Resumed (do
      let st ← bootRecorded pf m mem
      let st ← ts.foldlM (takeRecorded pf gSched) st
      takeRecorded pf gSched st t) := by
  apply (bootRecorded_inv pf m mem).bind
  intro st hst
  have hrun : Holds TrapStop RecordedInv (ts.foldlM (takeRecorded pf gSched) st) :=
    Holds.foldlM (fun st t h => (takeRecorded_inv pf gSched h t).mono fun _ h => h.1) ts st hst
  apply hrun.bind
  intro st' hst'
  exact (takeRecorded_inv pf gSched hst' t).mono fun _ h => h.2

/-! ## A process that comes and goes -/

/-- A memory subsystem in which every call succeeds. -/
def steadyPlatform : Platform Unit where
  alloc _ _ := .ok (0x51000000, ())
  free _ _ := .ok ()
  procRoot _ _ _ := .ok (⟨0x51100000, 0x51100000⟩, ())
  kernRoot _ := .ok (⟨0x51200000, 0x51200000⟩, ())
  rootFree _ _ := .ok ()
  cntpct n := n
  jrtExit := 0x50000000

def blankMachine : Machine Unit where
  x _ := 0
  sp := 0
  pc := 0
  pstate := 0
  elr := 0
  spsr := 0
  ttbr0 := 0
  eoir := 0
  stack _ := 0
  kernel := ⟨⟨zeroProc, none, 0, fun _ => zeroProc, ProcRef.pb, 0,
    Heap.heapInit (fun _ => ⟨0, .p0, 0⟩) 0, Heap.heapInit (fun _ => ⟨0, .p0, 0⟩) 0⟩, (), 0,
    ⟨false, 0, 0⟩, 0⟩

/-- A request interrupts the kernel process. -/
def arrival : Trap where
  irq := true
  x i := 7 * i
  sp := 0x51FFF000
  sp_lt := by decide
  pc := 0x50010000
  pstate := 0x345
  stack _ := 0
  pending := ⟨72, 0, 0, [(0x50100000, 4096, 8192)], fun _ => ⟨fun _ => 1, fun _ => 2⟩⟩

/-- The process made for it exits. -/
def departure : Trap where
  irq := false
  x i := if i = 8 then 1 else 5
  sp := 0x51001000
  sp_lt := by decide
  pc := 0x40
  pstate := 0x45
  stack _ := 0
  pending := ⟨0, 0x15 <<< 26, 0, [], fun _ => ⟨fun _ => 3, fun _ => 4⟩⟩

/-- The kernel process goes on as it was interrupted, with its own map. -/
theorem kernel_resumes :
    (do
      let st ← bootRecorded steadyPlatform blankMachine ()
      let st ← [arrival].foldlM (takeRecorded steadyPlatform 0x50020000) st
      let st ← takeRecorded steadyPlatform 0x50020000 st departure
      return (st.machine.x 20, st.machine.x 30, st.machine.sp, st.machine.pc,
        st.machine.ttbr0)).toOption =
      some (140, 210, 0x51FFF000, 0x50010000, 0x51200000) ∧
    Holds TrapStop Resumed (do
      let st ← bootRecorded steadyPlatform blankMachine ()
      let st ← [arrival].foldlM (takeRecorded steadyPlatform 0x50020000) st
      takeRecorded steadyPlatform 0x50020000 st departure) := by
  constructor
  · decide +kernel
  · exact traps_resume steadyPlatform 0x50020000 blankMachine () [arrival] departure

end JanusRT.Exceptions
