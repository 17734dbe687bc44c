import JanusRT.Places

/-!
# Yielding, preempting, creating and freeing

One specification for each scheduler operation that changes the current process or
the process table. Each says that the partition is kept, whether the earliest
deadline rule holds afterwards, and exactly which process records were written.
-/
namespace JanusRT
open Heap Outcome

variable {M : Type}

theorem setState_proc_effDeadline (sc : Sched) (r q : ProcRef) (s : State) :
    ((setState sc r s).proc q).effDeadline = (sc.proc q).effDeadline := by
  simp only [setState, Sched.proc_modify]
  split_ifs with he
  · rw [he]
  · rfl

@[simp] theorem setState_ready (sc : Sched) (r : ProcRef) (s : State) :
    (setState sc r s).ready = sc.ready := Sched.modify_ready _ _ _

@[simp] theorem setState_curr (sc : Sched) (r : ProcRef) (s : State) :
    (setState sc r s).curr = sc.curr := Sched.modify_curr _ _ _

@[simp] theorem setState_pid (sc : Sched) (r : ProcRef) (s : State) :
    (setState sc r s).pid = sc.pid := Sched.modify_pid _ _ _

/-- The popped process is at least as urgent as what stays in the heap. -/
theorem Inv.pop_least {held : Multiset ProcRef} {sc : Sched} (h : Inv held sc)
    {key : ℕ} {p : ProcRef} {h' : MinHeap ProcRef} (hpeek : heapPeek sc.ready = some (key, p))
    (hc : contents sc.ready = (key, p) ::ₘ contents h') :
    key = (sc.proc p).effDeadline ∧ ∀ x ∈ contents h', (sc.proc p).effDeadline ≤ x.1 := by
  obtain ⟨hmem, hmin⟩ := heapPeek_some h.ready_wf.ordered hpeek
  have hkey : key = (sc.proc p).effDeadline := h.ready_key _ hmem
  refine ⟨hkey, ?_⟩
  intro x hx
  rw [← hkey]
  exact hmin x (by rw [hc]; exact Multiset.mem_cons_of_mem hx)

/-- The outgoing process is handed to the caller, the most urgent ready process
runs, and the kernel process runs if there is none. -/
theorem schedYield_spec {sc : Sched} (h : Inv 0 sc) :
    Holds Stop.IsHalt (fun y => sc.curr = some y.1 ∧ Inv (running sc.curr) y.2 ∧ Edf y.2 ∧
      Frame sc y.2) (schedYield sc) := by
  unfold schedYield
  by_cases hz : sc.ready.len = 0
  · have hpop := heapPop_empty sc.ready hz
    have hinv := h.setState .p0 .running
    obtain ⟨r, hr, _, hc⟩ := p0OrProc_spec hinv
    rw [hpop]
    simp only [Option.map_none, Option.getD_none]
    rw [hc]
    refine ⟨by simpa using hr, ?_, ⟨?_, fun _ => ?_⟩, ?_⟩
    · simpa using Inv.switch (n := .p0) hinv r
    · intro i hi
      simp [schedSwitchIrq] at hi
    · simpa [schedSwitchIrq] using hz
    · exact (frame_setState sc .p0 .running).trans (frame_switch _ r _)
  · have hpos : 0 < sc.ready.len := Nat.pos_of_ne_zero hz
    obtain ⟨key, p, h', hpop, hpeek, hw, _, _, hcont⟩ := heapPop_spec sc.ready h.ready_wf hpos
    obtain ⟨i, hi, rfl⟩ := h.slot_of_ready (queued_cons hcont ▸ Multiset.mem_cons_self _ _)
    have hinv := (h.pop_ready hw hcont).setState (.pb i) .running
    obtain ⟨r, hr, _, hc⟩ := p0OrProc_spec hinv
    rw [hpop]
    simp only [Option.map_some, Option.getD_some]
    rw [hc]
    refine ⟨by simpa using hr, ?_, edf_switch (c := r) ?_, ?_⟩
    · simpa using Inv.switch (n := .pb i) hinv r
    · intro x hx
      have hle := (h.pop_least hpeek hcont).2 x (by simpa using hx)
      have he := setState_proc_effDeadline { sc with ready := h' } (.pb i) (.pb i) .running
      simp only [Sched.proc] at he hle ⊢
      rw [he]
      exact hle
    · exact ((frame_ready sc h').trans (frame_setState _ _ _)).trans (frame_switch _ r _)

/-- The context switch inside `sched`, once the head of the heap is known to be due. -/
theorem schedPreempt_spec {sc : Sched} {cur : ProcRef} (h : Inv 0 sc) (hcur : sc.curr = some cur)
    (hpos : 0 < sc.ready.len)
    (hdue : ∀ i, cur = .pb i → ∀ key p, heapPeek sc.ready = some (key, p) →
      key < (sc.pb i).effDeadline) :
    Holds Stop.IsHalt (fun sc' => Inv 0 sc' ∧ Edf sc' ∧ Frame sc sc')
      (schedPreempt schedSwitchIrq sc cur cur) := by
  obtain ⟨key, p, h', hpop, hpeek, hw, _, _, hcont⟩ := heapPop_spec sc.ready h.ready_wf hpos
  obtain ⟨i, hi, rfl⟩ := h.slot_of_ready (queued_cons hcont ▸ Multiset.mem_cons_self _ _)
  obtain ⟨hkey, hmin⟩ := h.pop_least hpeek hcont
  have hinv := ((h.pop_ready hw hcont).setState (.pb i) .running).setState cur .ready
  have hframe : Frame sc (setState (setState { sc with ready := h' } (.pb i) .running) cur .ready) :=
    ((frame_ready sc h').trans (frame_setState _ _ _)).trans (frame_setState _ _ _)
  unfold schedPreempt
  rw [hpop]
  simp only [Option.map_some, deref, ok_bind]
  generalize hs : setState (setState { sc with ready := h' } (.pb i) .running) cur .ready = s
    at hinv hframe
  have hsready : s.ready = h' := by rw [← hs]; simp
  have hscurr : s.curr = some cur := by rw [← hs]; simpa using hcur
  have heff : ∀ q, (s.proc q).effDeadline = (sc.proc q).effDeadline := by
    intro q
    obtain ⟨st, he⟩ := hframe.procs q
    rw [he]
  cases cur with
  | p0 =>
    have hp : (s.proc .p0).pid = 0 := hinv.p0_pid
    rw [if_neg (by simp [hp])]
    refine ⟨?_, edf_switch ?_, hframe.trans (frame_switch _ _ _)⟩
    · simpa [hscurr] using Inv.switch (n := .pb i) hinv .p0
    · intro x hx
      rw [hsready] at hx
      have he : (s.pb i).effDeadline = (sc.pb i).effDeadline := heff (.pb i)
      rw [he]
      exact hmin x hx
  | pb j =>
    have hj : j < maxProc := h.slot_of_curr hcur
    have hp : (s.proc (.pb j)).pid = j + 1 := hinv.pb_pid j hj
    rw [hp, if_pos (Nat.succ_ne_zero j)]
    -- the switch happens after the push, but the partition does not depend on their order
    have hswitch := Inv.switch (n := .pb i) hinv (.pb j)
    rw [hscurr] at hswitch
    have hpush : Holds Stop.IsHalt (fun s' => ∃ h'', s' = { s with ready := h'' } ∧ Wf h'' ∧
        contents h'' = ((s.pb j).effDeadline, .pb j) ::ₘ contents s.ready)
        (schedReadyProc s (j + 1)) := by
      rw [schedReadyProc, schedGetProc_succ hj]
      apply (heapPushOrPanic_spec hinv.ready_wf _ _).bind
      intro h'' hh''
      obtain ⟨hw'', hc''⟩ := hh''
      exact ⟨h'', rfl, hw'', hc''⟩
    apply hpush.bind
    intro out hout
    obtain ⟨h'', rfl, hw'', hc''⟩ := hout
    refine ⟨?_, edf_switch ?_, (hframe.trans (frame_ready _ _)).trans (frame_switch _ _ _)⟩
    · have hheld : Inv (.pb j ::ₘ 0) (schedSwitchIrq s (.pb j) (.pb i)) := hswitch
      exact hheld.push_ready hw'' hc''
    · intro x hx
      have he : (s.pb i).effDeadline = (sc.pb i).effDeadline := heff (.pb i)
      have he' : (s.pb j).effDeadline = (sc.pb j).effDeadline := heff (.pb j)
      have hkey' : key = (sc.pb i).effDeadline := hkey
      change (s.pb i).effDeadline ≤ x.1
      rw [he]
      obtain rfl | hx := Multiset.mem_cons.mp (hc'' ▸ hx)
      · have := hdue j rfl key _ hpeek
        simp only
        omega
      · exact hmin x (hsready ▸ hx)

/-- With something ready, `sched` re-establishes the earliest deadline rule from
any partitioned state. -/
theorem sched_spec {sc : Sched} (h : Inv 0 sc) (hpos : 0 < sc.ready.len) :
    Holds Stop.IsHalt (fun sc' => Inv 0 sc' ∧ Edf sc' ∧ Frame sc sc')
      (sched schedSwitchIrq sc) := by
  obtain ⟨key, p, hpeek, hmem, hmin⟩ := heapPeek_spec sc.ready h.ready_wf.ordered hpos
  obtain ⟨cur, hcur, hpid, hget⟩ := p0OrProc_spec h
  have hget' : p0OrProc (sc.proc cur).pid sc.pid = .ok cur := by rw [← hpid]; exact hget
  unfold sched
  rw [hpeek]
  simp only [reduceCtorEq, false_and, if_false, hcur, deref, ok_bind, hget']
  have hpeek' : ∀ k q, heapPeek sc.ready = some (k, q) → k = key := by
    intro k q hk
    rw [hpeek] at hk
    simp only [Option.some.injEq, Prod.mk.injEq] at hk
    exact hk.1.symm
  split_ifs with hz hlt
  · apply schedPreempt_spec h hcur hpos
    rintro i rfl
    have := h.pb_pid i (h.slot_of_curr hcur)
    simp only [Sched.proc] at hz
    omega
  · apply schedPreempt_spec h hcur hpos
    rintro i rfl k q hk
    rw [hpeek' k q hk]
    exact hlt
  · refine ⟨h, ⟨?_, ?_⟩, Frame.refl sc⟩
    · intro i hi x hx
      rw [hcur] at hi
      obtain rfl := Option.some.inj hi
      exact (Nat.le_of_not_lt hlt).trans (hmin x hx)
    · intro hp0
      rw [hcur] at hp0
      obtain rfl := Option.some.inj hp0
      exact absurd h.p0_pid hz

/-- The tail shared by every handler that makes a process ready. -/
theorem readyThenSched_spec {sc : Sched} {i : ℕ} (h : Inv (.pb i ::ₘ 0) sc) :
    Holds Stop.IsHalt (fun sc' => Inv 0 sc' ∧ Edf sc' ∧ Frame sc sc')
      (schedReadyProc sc (i + 1) >>= sched schedSwitchIrq) := by
  apply (schedReadyProc_spec h).bind
  intro out hout
  obtain ⟨hinv, h', rfl, hc⟩ := hout
  have hpos : 0 < h'.len := by
    rw [← card_contents, hc]
    simp
  apply (sched_spec hinv hpos).mono
  intro sc' hsc'
  obtain ⟨hinv', hedf, hframe⟩ := hsc'
  exact ⟨hinv', hedf, (frame_ready sc h').trans hframe⟩

/-! ## The process table -/

variable (pf : Platform M)

/-- A new process takes the top slot of the free stack and the next address space
identifier; it is in no container yet. -/
theorem schedNewProc_spec {k : Kernel M} (h : Inv 0 k.sched)
    (pc codeSize mem memSize deadline exit : ℕ) :
    Holds Stop.IsHalt (fun n => ∃ i root m, pf.procRoot k.mem pc codeSize = .ok (root, m) ∧
      0 < k.sched.nfreeProc ∧ k.sched.freeProc (k.sched.nfreeProc - 1) = .pb i ∧ n.1 = i + 1 ∧
      n.2 = { k with
        sched := { k.sched with nfreeProc := k.sched.nfreeProc - 1 }.modify (.pb i) fun q =>
          newProc q pc codeSize mem memSize deadline exit ⟨root, k.asid⟩
        mem := m
        asid := (k.asid + 1) % u16 } ∧
      Inv (.pb i ::ₘ 0) n.2.sched)
      (schedNewProc pf k pc codeSize mem memSize deadline exit) := by
  unfold schedNewProc schedAllocProc
  by_cases hz : k.sched.nfreeProc ≤ 0
  · rw [if_pos hz]
    trivial
  rw [if_neg hz]
  have hpos : 0 < k.sched.nfreeProc := Nat.lt_of_not_le hz
  have hinv := h.alloc hpos
  obtain ⟨i, hi, hp⟩ := hinv.slot_of_held (Multiset.mem_cons_self _ _)
  rw [hp] at hinv
  simp only [hp, procMapCreate, bind_assoc, pure_bind]
  apply (holds_call _).bind
  rintro ⟨root, m⟩ hroot
  have hnew := hinv.modify_held (Multiset.mem_cons_self _ _)
    (fun q => newProc q pc codeSize mem memSize deadline exit ⟨root, k.asid⟩) (fun _ => rfl)
  refine ⟨i, root, m, hroot, hpos, rfl, ?_, rfl, hnew⟩
  exact hnew.pb_pid i hi

/-- Freeing returns the slot to the stack, its memory to the allocator and its
tables to the page-table code. -/
theorem schedFreeProc_spec {k : Kernel M} {i : ℕ} (h : Inv (.pb i ::ₘ 0) k.sched) :
    Holds Stop.IsHalt (fun k' => ∃ m m', pf.free k.mem (k.sched.pb i).mem = .ok m ∧
      pf.rootFree m (k.sched.pb i).ctx.mmap.root = .ok m' ∧
      k' = { k with
        sched := { k.sched.modify (.pb i) (fun q =>
            { q with state := .unused, ctx := { q.ctx with mmap := noMap } }) with
          freeProc := Function.update k.sched.freeProc k.sched.nfreeProc (.pb i)
          nfreeProc := k.sched.nfreeProc + 1 }
        mem := m' } ∧
      Inv 0 k'.sched)
      (schedFreeProc pf k (i + 1)) := by
  obtain ⟨j, hj, he⟩ := h.slot_of_held (Multiset.mem_cons_self _ _)
  injection he with he
  subst j
  rw [schedFreeProc, schedGetProc_succ hj]
  simp only [ok_bind]
  split_ifs with hfull
  · trivial
  have hmod : ∀ f g : Proc → Proc, ∀ fp n,
      ({ k.sched.modify (.pb i) f with freeProc := fp, nfreeProc := n }.modify (.pb i) g) =
        { k.sched.modify (.pb i) (fun q => g (f q)) with freeProc := fp, nfreeProc := n } := by
    intro f g fp n
    simp [Sched.modify]
  have hproc : ∀ f : Proc → Proc, ∀ fp n,
      ({ k.sched.modify (.pb i) f with freeProc := fp, nfreeProc := n }.proc (.pb i)) =
        f (k.sched.pb i) := by
    intro f fp n
    simp [Sched.modify, Sched.proc]
  simp only [hproc, hmod, mmuMapDestroy, bind_assoc, pure_bind, Sched.modify_freeProc,
    Sched.modify_nfreeProc]
  apply (holds_call _).bind
  intro m hm
  apply (holds_call _).bind
  intro m' hm'
  have hinv := (h.modify_held (Multiset.mem_cons_self _ _)
    (fun q => { q with state := .unused, ctx := { q.ctx with mmap := noMap } })
    (fun _ => rfl)).release
  simp only [Sched.modify_freeProc, Sched.modify_nfreeProc] at hinv
  exact ⟨m, m', hm, hm', rfl, hinv⟩

end JanusRT
