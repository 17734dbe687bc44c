import JanusRT.Switching

/-!
# Handler specifications

For each event: the partition and the earliest deadline rule afterwards, what the
timer is programmed to, and which process records and stack slots were written.
-/
namespace JanusRT
open Heap Outcome

variable {M : Type} (pf : Platform M)

/-- The effect of creating a process with record `q` on the process table. -/
structure Creates (sc sc' : Sched) (q : Proc) : Prop where
  nfreeProc : sc.nfreeProc = sc'.nfreeProc + 1
  freeProc : sc'.freeProc = sc.freeProc
  waiting : sc'.waiting = sc.waiting
  created : ∃ s, sc'.proc (sc.freeProc sc'.nfreeProc) = { q with state := s }
  others : ∀ r, r ≠ sc.freeProc sc'.nfreeProc → ∃ s, sc'.proc r = { sc.proc r with state := s }

/-- The effect of the exit of `pb i` on the process table. -/
structure Exits (sc sc' : Sched) (i : ℕ) : Prop where
  curr : sc.curr = some (.pb i)
  nfreeProc : sc'.nfreeProc = sc.nfreeProc + 1
  freeProc : sc'.freeProc = Function.update sc.freeProc sc.nfreeProc (.pb i)
  waiting : sc'.waiting = sc.waiting
  freed : sc'.pb i =
    { sc.pb i with state := .unused, ctx := { (sc.pb i).ctx with mmap := noMap } }
  others : ∀ r, r ≠ .pb i → ∃ s, sc'.proc r = { sc.proc r with state := s }

/-- The effect of `pb i` going to sleep until `u` on the process table. -/
structure Sleeps (sc sc' : Sched) (i u : ℕ) : Prop where
  curr : sc.curr = some (.pb i)
  nfreeProc : sc'.nfreeProc = sc.nfreeProc
  freeProc : sc'.freeProc = sc.freeProc
  slept : sc'.pb i = { sc.pb i with waitUntil := u, state := .waiting }
  others : ∀ r, r ≠ .pb i → ∃ s, sc'.proc r = { sc.proc r with state := s }

/-- The effect of waking processes on the process table. -/
structure Wakes (sc sc' : Sched) : Prop where
  procs : SameProcs sc sc'
  freeProc : sc'.freeProc = sc.freeProc
  nfreeProc : sc'.nfreeProc = sc.nfreeProc

theorem freeStack_congr {sc sc' : Sched} (hf : sc'.freeProc = sc.freeProc)
    (hn : sc'.nfreeProc = sc.nfreeProc) : freeStack sc' = freeStack sc := by
  rw [freeStack, freeStack, hf, hn]

theorem Creates.freeStack_eq {sc sc' : Sched} {q : Proc} (hc : Creates sc sc' q) :
    freeStack sc = sc.freeProc sc'.nfreeProc ::ₘ freeStack sc' := by
  rw [freeStack, freeStack, hc.nfreeProc, hc.freeProc, Finset.sum_range_succ, add_comm,
    Multiset.singleton_add]

theorem Exits.freeStack_eq {sc sc' : Sched} {i : ℕ} (hx : Exits sc sc' i) :
    freeStack sc' = .pb i ::ₘ freeStack sc := by
  have hold : ∑ j ∈ Finset.range sc.nfreeProc,
      ({Function.update sc.freeProc sc.nfreeProc (ProcRef.pb i) j} : Multiset ProcRef) =
        freeStack sc := by
    apply Finset.sum_congr rfl
    intro j hj
    rw [Function.update_of_ne (Finset.mem_range.mp hj).ne]
  rw [freeStack, hx.nfreeProc, hx.freeProc, Finset.sum_range_succ, hold, Function.update_self,
    add_comm, Multiset.singleton_add]

theorem Wakes.ctx {sc sc' : Sched} (hw : Wakes sc sc') (r : ProcRef) :
    (sc'.proc r).ctx = (sc.proc r).ctx := by
  obtain ⟨s, hs⟩ := hw.procs r
  rw [hs]

theorem Sleeps.ctx {sc sc' : Sched} {i u : ℕ} (hs : Sleeps sc sc' i u) (r : ProcRef) :
    (sc'.proc r).ctx = (sc.proc r).ctx := by
  have hself : sc'.proc (.pb i) = { sc.proc (.pb i) with waitUntil := u, state := .waiting } :=
    hs.slept
  by_cases hr : r = .pb i
  · rw [hr, hself]
  · obtain ⟨s, hs'⟩ := hs.others r hr
    rw [hs']

/-- While a process waits the timer is on and set no later than the process needs,
up to one tick after the last programming. -/
def TimerOk (k : Kernel M) : Prop :=
  ∀ r ∈ queued k.sched.waiting, k.timer.enabled = true ∧
    k.timer.cval ≤ max (k.sched.proc r).waitUntil (k.timer.setAt + 1)

theorem TimerOk.congr {k k' : Kernel M} (h : TimerOk k) (ht : k'.timer = k.timer)
    (hw : k'.sched.waiting = k.sched.waiting)
    (hu : ∀ r ∈ queued k.sched.waiting,
      (k'.sched.proc r).waitUntil = (k.sched.proc r).waitUntil) : TimerOk k' := by
  intro r hr
  rw [hw] at hr
  rw [ht, hu r hr]
  exact h r hr

theorem Edf.congr {sc sc' : Sched} (h : Edf sc) (hc : sc'.curr = sc.curr)
    (hr : sc'.ready = sc.ready)
    (he : ∀ i, (sc'.pb i).effDeadline = (sc.pb i).effDeadline) : Edf sc' := by
  refine ⟨?_, ?_⟩
  · intro i hi x hx
    rw [hc] at hi
    rw [hr] at hx
    rw [he]
    exact h.1 i hi x hx
  · intro hp0
    rw [hr]
    exact h.2 (hc ▸ hp0)

theorem Edf.modify {sc : Sched} (h : Edf sc) (r : ProcRef) (f : Proc → Proc)
    (hf : ∀ q, (f q).effDeadline = q.effDeadline) : Edf (sc.modify r f) := by
  apply h.congr (Sched.modify_curr sc r f) (Sched.modify_ready sc r f)
  intro i
  have hproc := Sched.proc_modify sc r (.pb i) f
  split_ifs at hproc with he
  · subst he
    exact (congrArg Proc.effDeadline hproc).trans (hf _)
  · exact congrArg Proc.effDeadline hproc

/-- A slot of the free stack is not in the waiting heap. -/
theorem Inv.free_not_waiting {sc : Sched} (h : Inv 0 sc) {r : ProcRef}
    (hr : r ∈ queued sc.waiting) (n : ℕ) (hn : n < sc.nfreeProc) : r ≠ sc.freeProc n := by
  rintro rfl
  have hd := h.nodup
  have hm : sc.freeProc n ∈ freeStack sc := by
    simp only [freeStack, Multiset.mem_sum, Finset.mem_range, Multiset.mem_singleton]
    exact ⟨n, hn, rfl⟩
  rw [add_zero, Multiset.nodup_add, Multiset.nodup_add] at hd
  exact Multiset.disjoint_left.mp hd.1.2.2 (by simp [hm]) hr

theorem Creates.timerOk {k k' : Kernel M} {q : Proc} (h : TimerOk k) (hinv : Inv 0 k.sched)
    (hc : Creates k.sched k'.sched q) (ht : k'.timer = k.timer) : TimerOk k' := by
  apply h.congr ht hc.waiting
  intro r hr
  have hne := hinv.free_not_waiting hr k'.sched.nfreeProc (by have := hc.nfreeProc; omega)
  obtain ⟨s, hs⟩ := hc.others r hne
  rw [hs]

/-- Creating and then queueing amounts to `Creates`. -/
theorem creates_of_frame {sc sc' : Sched} {i : ℕ} {f : Proc → Proc} (hpos : 0 < sc.nfreeProc)
    (hp : sc.freeProc (sc.nfreeProc - 1) = .pb i)
    (hf : Frame ({ sc with nfreeProc := sc.nfreeProc - 1 }.modify (.pb i) f) sc') :
    Creates sc sc' (f (sc.pb i)) := by
  have hn : sc'.nfreeProc = sc.nfreeProc - 1 := by simpa using hf.nfreeProc
  refine ⟨by omega, by simpa using hf.freeProc, by simpa using hf.waiting, ?_, ?_⟩
  · rw [hn, hp]
    obtain ⟨s, hs⟩ := hf.procs (.pb i)
    exact ⟨s, by rw [hs, Sched.proc_modify, if_pos rfl]; rfl⟩
  · intro r hr
    rw [hn, hp] at hr
    obtain ⟨s, hs⟩ := hf.procs r
    rw [Sched.proc_modify, if_neg hr] at hs
    exact ⟨s, by rw [hs]; cases r <;> rfl⟩

theorem scheduleReq_spec {k : Kernel M} (h : Inv 0 k.sched) (pc progSize memReq : ℕ) :
    Holds Stop.IsHalt (fun k' => Inv 0 k'.sched ∧ Edf k'.sched ∧ k'.timer = k.timer ∧
      k'.asid = (k.asid + 1) % u16 ∧ ∃ mem m root p,
        pf.alloc k.mem memReq = .ok (mem, m) ∧ mem ≠ 0 ∧
        pf.procRoot m pc progSize = .ok (root, k'.mem) ∧
        Creates k.sched k'.sched
          (newProc p pc progSize mem memReq 0 pf.jrtExit ⟨root, k.asid⟩))
      (scheduleReq pf k pc progSize memReq) := by
  unfold scheduleReq
  apply (holds_call _).bind
  rintro ⟨mem, m⟩ ha
  simp only
  split_ifs with hz
  · trivial
  refine (schedNewProc_spec pf (k := { k with mem := m }) h pc progSize mem memReq 0
    pf.jrtExit).bind ?_
  rintro ⟨_, _⟩ ⟨i, root, m', hroot, hpos, hp, rfl, rfl, hinv⟩
  dsimp only at hroot hpos hp hinv ⊢
  rw [← bind_assoc]
  apply (readyThenSched_spec hinv).bind
  intro sc' hsc'
  obtain ⟨hinv', hedf, hframe⟩ := hsc'
  have hcreates := creates_of_frame hpos hp hframe
  exact ⟨hinv', hedf, rfl, rfl, mem, m, root, k.sched.pb i, ha, hz, hroot, hcreates⟩

theorem spawn_spec {k : Kernel M} (h : Inv 0 k.sched) (deadline ep ap memReq : ℕ) :
    Holds Stop.IsHalt (fun k' => Inv 0 k'.sched ∧ Edf k'.sched ∧ k'.timer = k.timer ∧
      k'.asid = (k.asid + 1) % u16 ∧ ∃ cur mem m root p,
        k.sched.curr = some cur ∧ pf.alloc k.mem memReq = .ok (mem, m) ∧
        pf.procRoot m (k.sched.proc cur).paPc (k.sched.proc cur).progSize =
          .ok (root, k'.mem) ∧
        Creates k.sched k'.sched
          { newProc p (k.sched.proc cur).paPc (k.sched.proc cur).progSize mem memReq deadline
              pf.jrtExit ⟨root, k.asid⟩ with
            ctx := { newCtx mem memReq pf.jrtExit ⟨root, k.asid⟩ with
              pc := ep
              x := Function.update (newCtx mem memReq pf.jrtExit ⟨root, k.asid⟩).x 2 ap } })
      (spawn pf k deadline ep ap memReq) := by
  unfold spawn
  apply (holds_call _).bind
  rintro ⟨mem, m⟩ ha
  obtain ⟨cur, hcur, _⟩ := h.curr
  simp only [hcur, deref, ok_bind]
  refine (schedNewProc_spec pf (k := { k with mem := m }) h _ _ mem memReq deadline
    pf.jrtExit).bind ?_
  rintro ⟨_, _⟩ ⟨i, root, m', hroot, hpos, hp, rfl, rfl, hinv⟩
  obtain ⟨j, hj, he⟩ := hinv.slot_of_held (Multiset.mem_cons_self _ _)
  injection he with he
  subst j
  simp only [schedGetProc_succ hj, ok_bind]
  rw [← bind_assoc]
  have hmod := hinv.modify_held (Multiset.mem_cons_self _ _)
    (fun q => { q with ctx := { q.ctx with pc := ep, x := Function.update q.ctx.x 2 ap } })
    (fun _ => rfl)
  apply (readyThenSched_spec hmod).bind
  intro sc' hsc'
  obtain ⟨hinv', hedf, hframe⟩ := hsc'
  -- the two writes to the new slot are one write
  have htwice : ∀ (sc : Sched) (f g : Proc → Proc),
      (sc.modify (.pb i) f).modify (.pb i) g = sc.modify (.pb i) (fun q => g (f q)) := by
    intro sc f g
    simp [Sched.modify]
  rw [htwice] at hframe
  have hcreates := creates_of_frame hpos hp hframe
  exact ⟨hinv', hedf, rfl, rfl, cur, mem, m, root, k.sched.pb i, rfl, ha, hroot, hcreates⟩

theorem exit_spec {k : Kernel M} (h : Inv 0 k.sched) :
    Holds Stop.IsHalt (fun k' => Inv 0 k'.sched ∧ Edf k'.sched ∧ k'.timer = k.timer ∧
      k'.asid = k.asid ∧ ∃ i m, pf.free k.mem (k.sched.pb i).mem = .ok m ∧
        pf.rootFree m (k.sched.pb i).ctx.mmap.root = .ok k'.mem ∧
        Exits k.sched k'.sched i)
      (exit pf k) := by
  unfold exit
  apply (schedYield_spec h).bind
  rintro ⟨c, sc⟩ ⟨hcur, hinv, hedf, hframe⟩
  dsimp only at hcur hinv hedf hframe ⊢
  cases c with
  | p0 =>
    have hz : (sc.proc .p0).pid = 0 := hinv.p0_pid
    rw [hz, schedFreeProc, schedGetProc_zero]
    trivial
  | pb i =>
    rw [hcur] at hinv
    have hi : i < maxProc := h.slot_of_curr hcur
    have hpid : (sc.proc (.pb i)).pid = i + 1 := hinv.pb_pid i hi
    rw [hpid]
    apply (schedFreeProc_spec pf (k := { k with sched := sc }) hinv).mono
    intro out hout
    obtain ⟨m, m', hm, hm', rfl, hinv'⟩ := hout
    obtain ⟨s, hs⟩ := hframe.procs (.pb i)
    have hsame : sc.pb i = { k.sched.pb i with state := s } := hs
    simp only [hsame] at hm hm'
    refine ⟨hinv', ?_, rfl, rfl, i, m, hm, hm', hcur, ?_, ?_, ?_, ?_, ?_⟩
    · exact (hedf.modify (.pb i) (fun q => { q with
        state := .unused, ctx := { q.ctx with mmap := noMap } }) fun _ => rfl).congr rfl rfl
        fun _ => rfl
    · simp [hframe.nfreeProc]
    · simp [hframe.freeProc, hframe.nfreeProc]
    · simpa using hframe.waiting
    · simp [Sched.modify, hsame]
    · intro r hr
      obtain ⟨s', hs'⟩ := hframe.procs r
      refine ⟨s', ?_⟩
      rw [← hs']
      have := Sched.proc_modify sc (.pb i) r fun q =>
        { q with state := .unused, ctx := { q.ctx with mmap := noMap } }
      rw [if_neg hr] at this
      rw [← this]
      cases r <;> rfl

/-! ## Sleeping and waking -/

/-- Programming the timer for the least deadline of the waiting heap. -/
theorem timerOk_arm {k : Kernel M} (u : ℕ)
    (hu : ∀ r ∈ queued k.sched.waiting, u ≤ (k.sched.proc r).waitUntil) :
    TimerOk (armTimer pf k u) := by
  intro r hr
  refine ⟨rfl, ?_⟩
  apply (compareValue_le (pf.cntpct k.reads) u).trans
  exact max_le_max (hu r hr) le_rfl

/-- After `wait_until` has queued a process, every sleeper waits for `u` or is an old one. -/
def SleepsUntil (sc sc' : Sched) (u : ℕ) : Prop :=
  ∀ r ∈ queued sc'.waiting, (sc'.proc r).waitUntil = u ∨
    r ∈ queued sc.waiting ∧ (sc'.proc r).waitUntil = (sc.proc r).waitUntil

/-- The timer is set for a process that is to wake before all others. -/
theorem timerOk_earliest {k k' : Kernel M} {u : ℕ} (h : Inv 0 k.sched)
    (hu : SleepsUntil k.sched k'.sched u) (hle : ∀ x ∈ contents k.sched.waiting, u ≤ x.1) :
    TimerOk (armTimer pf k' u) := by
  apply timerOk_arm pf u
  intro r hr
  obtain he | ⟨hold, he⟩ := hu r hr
  · exact he.ge
  · obtain ⟨key, hkey⟩ := mem_queued.mp hold
    rw [he]
    exact (hle _ hkey).trans_eq (h.waiting_key _ hkey)

/-- The timer stays as it is for a process that wakes after another. -/
theorem timerOk_later {k k' : Kernel M} {u dl : ℕ} {w : ProcRef} (h : Inv 0 k.sched) (ht : TimerOk k)
    (hu : SleepsUntil k.sched k'.sched u) (hw : (dl, w) ∈ contents k.sched.waiting) (hle : dl ≤ u)
    (htimer : k'.timer = k.timer) : TimerOk k' := by
  have hdl : dl = (k.sched.proc w).waitUntil := h.waiting_key _ hw
  intro r hr
  rw [htimer]
  obtain he | ⟨hold, he⟩ := hu r hr
  · obtain ⟨hon, hset⟩ := ht w (mem_queued.mpr ⟨dl, hw⟩)
    refine ⟨hon, hset.trans (max_le_max ?_ le_rfl)⟩
    rw [he, ← hdl]
    exact hle
  · rw [he]
    exact ht r hold

theorem waitUntil_spec {k : Kernel M} (h : Inv 0 k.sched) (ht : TimerOk k) (u : ℕ) :
    Holds Stop.IsHalt (fun k' => Inv 0 k'.sched ∧ Edf k'.sched ∧ TimerOk k' ∧
      k'.asid = k.asid ∧ k'.mem = k.mem ∧ ∃ i, Sleeps k.sched k'.sched i u)
      (waitUntil pf k u) := by
  unfold waitUntil
  apply (schedYield_spec h).bind
  rintro ⟨c, sc⟩ ⟨hcur, hinv, hedf, hframe⟩
  dsimp only at hcur hinv hedf hframe ⊢
  cases c with
  | p0 =>
    have hz : ((sc.modify .p0 fun q => { q with waitUntil := u, state := .waiting }).proc .p0).pid
        = 0 := by
      rw [Sched.proc_modify, if_pos rfl]
      exact hinv.p0_pid
    rw [hz, schedWaitProc, schedGetProc_zero]
    trivial
  | pb i =>
    rw [hcur] at hinv
    have hi : i < maxProc := h.slot_of_curr hcur
    have hheld : Inv (.pb i ::ₘ 0) sc := hinv
    have hmod := hheld.modify_held (Multiset.mem_cons_self _ _)
      (fun q => { q with waitUntil := u, state := .waiting }) (fun _ => rfl)
    generalize hs : (sc.modify (.pb i) fun q => { q with waitUntil := u, state := .waiting }) = s
      at hmod
    have hpid : (s.proc (.pb i)).pid = i + 1 := hmod.pb_pid i hi
    have hwait : s.waiting = k.sched.waiting := by
      rw [← hs, Sched.modify_waiting, hframe.waiting]
    have hself : s.pb i = { k.sched.pb i with waitUntil := u, state := .waiting } := by
      obtain ⟨st, hst⟩ := hframe.procs (.pb i)
      have hst' : sc.pb i = { k.sched.pb i with state := st } := hst
      rw [← hs]
      simp [Sched.modify, hst']
    have hother : ∀ r, r ≠ .pb i → ∃ st, s.proc r = { k.sched.proc r with state := st } := by
      intro r hr
      rw [← hs, Sched.proc_modify, if_neg hr]
      exact hframe.procs r
    have hedf' : Edf s := by
      rw [← hs]
      exact hedf.modify _ _ fun _ => rfl
    rw [hpid]
    apply (schedWaitProc_spec hmod).bind
    intro out hout
    obtain ⟨hinv', h', rfl, hc⟩ := hout
    have hsleep : Sleeps k.sched { s with waiting := h' } i u :=
      ⟨hcur, by rw [← hs]; simp [hframe.nfreeProc], by rw [← hs]; simp [hframe.freeProc],
        hself, fun r hr => by
          obtain ⟨st, hst⟩ := hother r hr
          exact ⟨st, by rw [← hst]; cases r <;> rfl⟩⟩
    have hedf'' : Edf { s with waiting := h' } := hedf'.congr rfl rfl (fun _ => rfl)
    have hu : (s.pb i).waitUntil = u := by rw [hself]
    rw [hu] at hc
    have hsleeps : SleepsUntil k.sched { s with waiting := h' } u := by
      intro r hr
      rw [queued_cons hc, Multiset.mem_cons] at hr
      obtain rfl | hr := hr
      · exact Or.inl hu
      · obtain ⟨key, hkey⟩ := mem_queued.mp hr
        have hnow : key = (s.proc r).waitUntil := hmod.waiting_key _ hkey
        rw [hwait] at hkey
        have hthen : key = (k.sched.proc r).waitUntil := h.waiting_key _ hkey
        exact Or.inr ⟨mem_queued.mpr ⟨key, hkey⟩, hnow.symm.trans hthen⟩
    rw [hwait]
    cases hw : heapPeek k.sched.waiting with
    | none =>
      refine ⟨hinv', hedf'', timerOk_earliest pf h hsleeps ?_, rfl, rfl, i, hsleep⟩
      intro x hx
      rw [heapPeek_none hw] at hx
      exact absurd hx (Multiset.notMem_zero x)
    | some top =>
      obtain ⟨dl, w⟩ := top
      obtain ⟨hmem, hmin⟩ := heapPeek_some h.waiting_wf.ordered hw
      dsimp only
      split_ifs with hlt
      · refine ⟨hinv', hedf'', timerOk_earliest pf h hsleeps ?_, rfl, rfl, i, hsleep⟩
        intro x hx
        exact hlt.le.trans (hmin x hx)
      · exact ⟨hinv', hedf'', timerOk_later h ht hsleeps hmem (Nat.not_lt.mp hlt) rfl, rfl, rfl, i,
          hsleep⟩

/-- The wake-up loop, on a nonempty waiting heap and a sufficient bound. Either it
stops at a process that is not due, with the timer set for it, or it empties the
heap and turns the timer off. -/
theorem timerLoop_spec (n : ℕ) {k : Kernel M} (h : Inv 0 k.sched) (hedf : Edf k.sched)
    (hpos : 0 < k.sched.waiting.len) (hn : k.sched.waiting.len ≤ n) :
    Holds Stop.IsHalt (fun k' => Inv 0 k'.sched ∧ Edf k'.sched ∧ TimerOk k' ∧
      (k'.sched.waiting.len = 0 → k'.timer.enabled = false) ∧ k'.asid = k.asid ∧
      k'.mem = k.mem ∧ Wakes k.sched k'.sched)
      (timerLoop pf n k) := by
  induction n generalizing k with
  | zero => omega
  | succ n ih =>
    obtain ⟨dl, p, h', hpop, hpeek, hw, hlen, _, hcont⟩ :=
      heapPop_spec k.sched.waiting h.waiting_wf hpos
    obtain ⟨i, hi, rfl⟩ := h.slot_of_waiting (queued_cons hcont ▸ Multiset.mem_cons_self _ _)
    have hinv := h.pop_waiting hw hcont
    have hpid : (k.sched.pb i).pid = i + 1 := h.pb_pid i hi
    have hdl : dl = (k.sched.pb i).waitUntil :=
      h.waiting_key (dl, .pb i) (by rw [hcont]; exact Multiset.mem_cons_self _ _)
    have hmin := (heapPeek_some h.waiting_wf.ordered hpeek).2
    rw [timerLoop, hpop]
    dsimp only [timeNowTicks]
    split_ifs with hlt
    · have hp : ({ k.sched with waiting := h' } : Sched).proc (.pb i) = k.sched.pb i := rfl
      rw [hp, hpid]
      apply (schedWaitProc_spec hinv).bind
      intro out hout
      obtain ⟨hinv', h'', rfl, hc⟩ := hout
      have hcont' : contents h'' = contents k.sched.waiting := by
        rw [hc, hcont, hdl]
      refine ⟨hinv', hedf.congr rfl rfl (fun _ => rfl), timerOk_arm pf dl ?_, ?_, rfl, rfl, ?_⟩
      · intro r hr
        obtain ⟨key, hkey⟩ := mem_queued.mp hr
        rw [hcont'] at hkey
        exact (hmin _ hkey).trans_eq (h.waiting_key _ hkey)
      · intro hz
        have : contents h'' = 0 := contents_eq_zero.mpr hz
        rw [hcont', contents_eq_zero] at this
        omega
      · exact ⟨fun r => ⟨(k.sched.proc r).state, by cases r <;> rfl⟩, rfl, rfl⟩
    · have hp : ({ k.sched with waiting := h' } : Sched).proc (.pb i) = k.sched.pb i := rfl
      rw [hp, hpid, ← bind_assoc]
      apply (readyThenSched_spec hinv).bind
      intro sc hsc
      obtain ⟨hinv', hedf', hframe⟩ := hsc
      have hwaiting : sc.waiting = h' := hframe.waiting
      have hwakes : Wakes k.sched sc :=
        ⟨fun r => by
          obtain ⟨s, hs⟩ := hframe.procs r
          exact ⟨s, by rw [hs]; cases r <;> rfl⟩, hframe.freeProc, hframe.nfreeProc⟩
      simp only [schedHasWaiting, decide_eq_true_eq]
      split_ifs with hmore
      · refine (ih (k := { k with reads := k.reads + 1, sched := sc }) hinv' hedf' hmore
          (by simp only [hwaiting]; omega)).mono ?_
        intro k' hk'
        obtain ⟨hi', he', ht', hz', ha', hm', hw'⟩ := hk'
        refine ⟨hi', he', ht', hz', ha', hm', ?_, ?_, ?_⟩
        · intro r
          obtain ⟨a, ha⟩ := hwakes.procs r
          obtain ⟨b, hb⟩ := hw'.procs r
          exact ⟨b, by rw [hb]; simp only [ha]⟩
        · exact hw'.freeProc.trans hwakes.freeProc
        · exact hw'.nfreeProc.trans hwakes.nfreeProc
      · refine ⟨hinv', hedf', ?_, fun _ => rfl, rfl, rfl, hwakes⟩
        intro r hr
        have hz : contents sc.waiting = 0 := contents_eq_zero.mpr (Nat.eq_zero_of_not_pos hmore)
        obtain ⟨key, hkey⟩ := mem_queued.mp hr
        rw [show contents (disarmTimer { k with reads := k.reads + 1, sched := sc }).sched.waiting
          = 0 from hz] at hkey
        exact absurd hkey (Multiset.notMem_zero _)

theorem timerFn_spec {k : Kernel M} (h : Inv 0 k.sched) (hedf : Edf k.sched) :
    Holds Stop.IsHalt (fun k' => Inv 0 k'.sched ∧ Edf k'.sched ∧ TimerOk k' ∧
      (k'.sched.waiting.len = 0 → k'.timer.enabled = false) ∧ k'.asid = k.asid ∧
      k'.mem = k.mem ∧ Wakes k.sched k'.sched)
      (timerFn pf k) := by
  simp only [timerFn, schedHasWaiting, decide_eq_true_eq]
  split_ifs with hpos
  · exact timerLoop_spec pf _ h hedf hpos le_rfl
  · refine ⟨h, hedf, ?_, fun _ => rfl, rfl, rfl, ⟨fun r => ⟨_, rfl⟩, rfl, rfl⟩⟩
    intro r hr
    obtain ⟨key, hkey⟩ := mem_queued.mp hr
    have hz : contents k.sched.waiting = 0 := contents_eq_zero.mpr (Nat.eq_zero_of_not_pos hpos)
    rw [show contents (disarmTimer k).sched.waiting = 0 from hz] at hkey
    exact absurd hkey (Multiset.notMem_zero _)

/-! ## An idle kernel -/

/-- Nothing is ready, with room in the heap for one process. -/
structure Calm (c : ProcRef) (k : Kernel M) : Prop where
  places : Inv 0 k.sched
  curr : k.sched.curr = some c
  ready : k.sched.ready.len = 0
  cap : 0 < k.sched.ready.cap

/-- An idle kernel takes a request if the memory for it is there. -/
theorem scheduleReq_calm {k : Kernel M} (h : Calm .p0 k) (hfree : 0 < k.sched.nfreeProc)
    (pc progSize memReq : ℕ) {a : ℕ} {m m' : M} {root : PtRoot}
    (halloc : pf.alloc k.mem memReq = .ok (a, m)) (hz : a ≠ 0)
    (hroot : pf.procRoot m pc progSize = .ok (root, m')) :
    ∃ k' i, scheduleReq pf k pc progSize memReq = .ok k' ∧ Calm (.pb i) k' := by
  obtain ⟨n, hn⟩ : ∃ n, schedNewProc pf { k with mem := m } pc progSize a memReq 0
      pf.jrtExit = .ok n := by
    simp [schedNewProc, schedAllocProc, Nat.not_le.mpr hfree, procMapCreate, hroot, call, pure,
      Except.pure]
  obtain ⟨i, _, _, _, _, _, hpid, heq, hinv⟩ :=
    (schedNewProc_spec pf (k := { k with mem := m }) h.places pc progSize a memReq 0 _).of_ok hn
  obtain ⟨j, hj, he⟩ := hinv.slot_of_held (Multiset.mem_cons_self _ _)
  injection he with he
  subst j
  have hready : n.2.sched.ready = k.sched.ready := by rw [heq]; simp
  have hcurr : n.2.sched.curr = some .p0 := by rw [heq]; simpa using h.curr
  obtain ⟨h₁, hpush, hw₁, hlen₁, hcap₁, hcont₁⟩ := heapPush_spec n.2.sched.ready
    (n.2.sched.pb i).effDeadline (.pb i) hinv.ready_wf (by rw [hready, h.ready]; exact h.cap)
  have hrdy : schedReadyProc n.2.sched n.1 = .ok { n.2.sched with ready := h₁ } := by
    rw [hpid, schedReadyProc, schedGetProc_succ hj]
    simp [heapPushOrPanic, Sched.proc, hpush, pure, Except.pure]
  have hpos₁ : 0 < h₁.len := by omega
  obtain ⟨key, p, h₂, hpop, hpeek, hw₂, hlen₂, hcap₂, hcont₂⟩ := heapPop_spec h₁ hw₁ hpos₁
  have hinv₁ := hinv.push_ready hw₁ hcont₁
  obtain ⟨q, hq, rfl⟩ := hinv₁.slot_of_ready (queued_cons hcont₂ ▸ Multiset.mem_cons_self _ _)
  have hp0 : n.2.sched.p0.pid = 0 := hinv.p0_pid
  obtain ⟨sc', hsched, hcurr', hready'⟩ :
      ∃ sc', sched schedSwitchIrq { n.2.sched with ready := h₁ } = .ok sc' ∧
        sc'.curr = some (.pb q) ∧ sc'.ready = h₂ := by
    simp [sched, hpeek, hcurr, deref, Sched.proc, hp0, p0OrProc, schedPreempt, hpop, setState,
      Sched.modify, schedSwitchIrq, pure, Except.pure]
  have hspec := ((sched_spec hinv₁ hpos₁).of_ok hsched).1
  refine ⟨{ n.2 with sched := sc' }, q, ?_, hspec, hcurr', ?_, ?_⟩
  · rw [scheduleReq, halloc]
    simp [call, hz, hn, hrdy, hsched, pure, Except.pure]
  · rw [hready']
    rw [hready, h.ready] at hlen₁
    omega
  · rw [hready', hcap₂, hcap₁, hready]
    exact h.cap

/-- The only process leaves an idle kernel if its memory can be returned. -/
theorem exit_calm {k : Kernel M} {i : ℕ} (h : Calm (.pb i) k)
    (hmem : ∀ m a, ∃ m', pf.free m a = .ok m') (hroot : ∀ m r, ∃ m', pf.rootFree m r = .ok m') :
    ∃ k', exit pf k = .ok k' ∧ Calm .p0 k' ∧ 0 < k'.sched.nfreeProc := by
  have hi := h.places.slot_of_curr h.curr
  have hpid : k.sched.pid = i + 1 := by
    obtain ⟨r, hr, hp⟩ := h.places.curr
    obtain rfl := Option.some.inj (h.curr.symm.trans hr)
    exact hp.trans (h.places.pb_pid i hi)
  obtain ⟨y, hy, hsched⟩ : ∃ y, schedYield k.sched = .ok (.pb i, y) ∧
      y = schedSwitchIrq (setState k.sched .p0 .running) (.pb i) .p0 := by
    refine ⟨_, ?_, rfl⟩
    have hget : p0OrProc (setState k.sched .p0 .running).pid (setState k.sched .p0 .running).pid =
        .ok (.pb i) := by
      rw [setState_pid, hpid, p0OrProc, if_neg (Nat.succ_ne_zero i), schedGetProc_succ hi]
    unfold schedYield
    rw [heapPop_empty _ h.ready]
    simp only [Option.map_none, Option.getD_none]
    rw [hget]
    rfl
  have hspec := (schedYield_spec h.places).of_ok hy
  simp only [h.curr, running_pb] at hspec
  have hinv : Inv (.pb i ::ₘ 0) y := hspec.2.1
  have hcard := congrArg Multiset.card hinv.places
  have hroom : ¬ maxProc ≤ y.nfreeProc := by
    have hall : allProcs.card = maxProc := by rw [allProcs]; simp
    simp only [Multiset.card_add, card_freeStack, card_queued, Multiset.card_cons,
      Multiset.card_zero, hall] at hcard
    omega
  have hpid' : (y.proc (.pb i)).pid = i + 1 := hinv.pb_pid i hi
  obtain ⟨k', hk'⟩ : ∃ k', schedFreeProc pf { k with sched := y } (i + 1) = .ok k' := by
    rw [schedFreeProc, schedGetProc_succ hi, ok_bind, if_neg hroom]
    dsimp only
    generalize ({ y.modify (.pb i) (fun q => { q with state := .unused }) with
      freeProc := Function.update (y.modify (.pb i) (fun q => { q with state := .unused })).freeProc
        (y.modify (.pb i) (fun q => { q with state := .unused })).nfreeProc (.pb i)
      nfreeProc := (y.modify (.pb i) (fun q => { q with state := .unused })).nfreeProc + 1 } :
        Sched) = sc
    obtain ⟨m₁, h₁⟩ := hmem k.mem (sc.proc (.pb i)).mem
    obtain ⟨m₂, h₂⟩ := hroot m₁ (sc.proc (.pb i)).ctx.mmap.root
    simp [h₁, h₂, call, mmuMapDestroy, pure, Except.pure]
  obtain ⟨m, m', _, _, heq, hinv'⟩ :=
    (schedFreeProc_spec pf (k := { k with sched := y }) hinv).of_ok hk'
  have hcurr : y.curr = some .p0 := by rw [hsched]; rfl
  have hready : y.ready = k.sched.ready := by rw [hsched]; rfl
  refine ⟨k', ?_, ⟨hinv', ?_, ?_, ?_⟩, ?_⟩
  · rw [exit, hy]
    simpa [hpid'] using hk'
  · rw [heq]
    simpa using hcurr
  · rw [heq]
    simpa [hready] using h.ready
  · rw [heq]
    simpa [hready] using h.cap
  · rw [heq]
    exact Nat.succ_pos _

/-- `sched` leaves a process running that is as urgent as the first of the heap. -/
theorem sched_stays {sc : Sched} (h : Inv 0 sc) {i key : ℕ} {p : ProcRef}
    (hpeek : heapPeek sc.ready = some (key, p)) (hcurr : sc.curr = some (.pb i))
    (hle : (sc.pb i).effDeadline ≤ key) : sched schedSwitchIrq sc = .ok sc := by
  obtain ⟨cur, hcur, hpid, hget⟩ := p0OrProc_spec h
  obtain rfl : cur = .pb i := Option.some.inj (hcur.symm.trans hcurr)
  have hget' : p0OrProc (sc.proc (.pb i)).pid sc.pid = .ok (.pb i) := by rw [← hpid]; exact hget
  have hnz : (sc.proc (.pb i)).pid ≠ 0 := by
    have := h.pb_pid i (h.slot_of_curr hcurr)
    simp only [Sched.proc]
    omega
  have hnot : ¬ key < (sc.proc (.pb i)).effDeadline := Nat.not_lt.mpr hle
  unfold sched
  rw [hpeek]
  simp only [reduceCtorEq, false_and, if_false, hcurr, deref, ok_bind, hget', if_neg hnz, if_neg hnot]
  rfl

/-- A process that runs alone spawns one that is not more urgent and runs on. -/
theorem spawn_calm {k : Kernel M} {i : ℕ} (h : Calm (.pb i) k) (hfree : 0 < k.sched.nfreeProc)
    (deadline ep ap memReq : ℕ) {a : ℕ} {m m' : M} {root : PtRoot}
    (halloc : pf.alloc k.mem memReq = .ok (a, m))
    (hroot : pf.procRoot m (k.sched.pb i).paPc (k.sched.pb i).progSize = .ok (root, m'))
    (hdl : (k.sched.pb i).effDeadline ≤ deadline) :
    ∃ k', spawn pf k deadline ep ap memReq = .ok k' := by
  obtain ⟨n, hn⟩ : ∃ n, schedNewProc pf { k with mem := m } (k.sched.pb i).paPc
      (k.sched.pb i).progSize a memReq deadline pf.jrtExit = .ok n := by
    simp [schedNewProc, schedAllocProc, Nat.not_le.mpr hfree, procMapCreate, hroot, call, pure,
      Except.pure]
  obtain ⟨j, _, _, _, _, _, hpid, heq, hinv⟩ :=
    (schedNewProc_spec pf (k := { k with mem := m }) h.places _ _ a memReq deadline _).of_ok hn
  obtain ⟨j', hj, he⟩ := hinv.slot_of_held (Multiset.mem_cons_self _ _)
  injection he with he
  subst j'
  have hmod := hinv.modify_held (Multiset.mem_cons_self _ _)
    (fun q => { q with ctx := { q.ctx with pc := ep, x := Function.update q.ctx.x 2 ap } })
    (fun _ => rfl)
  generalize hs : (n.2.sched.modify (.pb j) fun q =>
    { q with ctx := { q.ctx with pc := ep, x := Function.update q.ctx.x 2 ap } }) = s at hmod
  have hready : s.ready = k.sched.ready := by rw [← hs, heq]; simp
  have hcurr : s.curr = some (.pb i) := by rw [← hs, heq]; simpa using h.curr
  have hji : ProcRef.pb i ≠ .pb j := by
    intro hij
    exact hmod.disjoint_held (Multiset.mem_cons_self _ _) (by rw [hcurr, hij]; simp)
  have hproci : s.pb i = k.sched.pb i := by
    have hne : i ≠ j := fun hij => hji (by rw [hij])
    rw [← hs, heq]
    simp [Sched.modify, hne]
  have hprocj : (s.pb j).effDeadline = deadline := by
    rw [← hs, heq]
    simp [Sched.modify, newProc]
  obtain ⟨h₁, hpush, hw₁, hlen₁, _, hcont₁⟩ := heapPush_spec s.ready (s.pb j).effDeadline (.pb j)
    hmod.ready_wf (by rw [hready, h.ready]; exact h.cap)
  have hrdy : schedReadyProc s n.1 = .ok { s with ready := h₁ } := by
    rw [hpid, schedReadyProc, schedGetProc_succ hj]
    simp [heapPushOrPanic, Sched.proc, hpush, pure, Except.pure]
  have hinv₁ := hmod.push_ready hw₁ hcont₁
  obtain ⟨key, p, hpeek, hmem, _⟩ := heapPeek_spec h₁ hw₁.ordered (by omega)
  have hkey : key = deadline := by
    rw [hcont₁, hready, contents_eq_zero.mpr h.ready] at hmem
    simp only [Multiset.cons_zero, Multiset.mem_singleton, Prod.mk.injEq] at hmem
    exact hmem.1.trans hprocj
  have hsched : sched schedSwitchIrq { s with ready := h₁ } = .ok { s with ready := h₁ } := by
    apply sched_stays hinv₁ hpeek hcurr
    dsimp only
    rw [hproci, hkey]
    exact hdl
  refine ⟨{ n.2 with sched := { s with ready := h₁ } }, ?_⟩
  rw [spawn, halloc]
  simp only [call, ok_bind, h.curr, deref]
  have hget : schedGetProc n.1 = .ok (.pb j) := by rw [hpid, schedGetProc_succ hj]
  have hcur : k.sched.proc (.pb i) = k.sched.pb i := rfl
  rw [hcur, hn, ok_bind, hget, ok_bind, hs, hrdy, ok_bind, hsched]
  rfl

end JanusRT
