import JanusRT.Ownership

/-!
# Ownership over whole runs

Every event keeps the accounts, so in every state of every run the blocks that are out are
exactly those owned, and no handler returns a block that is not out. Whether all live
processes have memory is another matter: `schedule_req` stops the kernel when `alloc`
returns NULL, and `spawn` goes on.
-/
namespace JanusRT
open Heap Outcome RadixTree

/-! ## Stops -/

/-- Every stop but the error of the allocator. -/
def LawfulStop (e : Stop) : Prop := e ≠ .halt illegalFree

/-- The computation does not stop with the error of the allocator. -/
def Clean {α : Type} (x : Except Stop α) : Prop := Holds LawfulStop (fun _ => True) x

section Clean
variable {α β M : Type} (pf : Platform M)

theorem clean_pure (a : α) : Clean (pure a : Except Stop α) := trivial

theorem clean_panic {e : JrtErr} (h : e ≠ .eunknown) : Clean (kernelPanic e : Except Stop α) := by
  change Stop.halt (.panic e) ≠ .halt (.panic .eunknown)
  simpa using h

theorem Clean.bind {x : Except Stop α} {f : α → Except Stop β} (hx : Clean x)
    (hf : ∀ a, Clean (f a)) : Clean (x >>= f) :=
  Holds.bind hx fun a _ => hf a

theorem clean_call {P : α → Prop} {x : Except Halt α} (h : Holds Lawful P x) :
    Holds LawfulStop P (call x) := by
  cases x with
  | ok a => exact h
  | error e =>
    intro he
    exact h (Stop.halt.inj he)

theorem Clean.holds {P : α → Prop} {x : Except Stop α} (hx : Clean x)
    (h : ∀ a, x = .ok a → P a) : Holds LawfulStop P x :=
  Holds.of_value hx fun a ha _ => h a ha

theorem schedGetProc_clean (pid : ℕ) : Clean (schedGetProc pid) := by
  unfold schedGetProc
  dsimp only
  split_ifs
  · exact clean_panic (by decide)
  · exact clean_pure _

theorem p0OrProc_clean (test pid : ℕ) : Clean (p0OrProc test pid) := by
  unfold p0OrProc
  split_ifs
  · exact clean_pure _
  · exact schedGetProc_clean pid

theorem deref_clean (r : Option ProcRef) : Clean (deref r) := by
  cases r with
  | none => simp [Clean, deref, LawfulStop]
  | some r => exact clean_pure r

theorem heapPushOrPanic_clean (h : MinHeap ProcRef) (key : ℕ) (p : ProcRef) :
    Clean (heapPushOrPanic h key p) := by
  unfold heapPushOrPanic
  dsimp only
  split_ifs
  · exact clean_panic (by decide)
  · exact clean_pure _

theorem schedReadyProc_clean (sc : Sched) (pid : ℕ) : Clean (schedReadyProc sc pid) :=
  (schedGetProc_clean pid).bind fun _ => (heapPushOrPanic_clean _ _ _).bind fun _ => clean_pure _

theorem schedWaitProc_clean (sc : Sched) (pid : ℕ) : Clean (schedWaitProc sc pid) :=
  (schedGetProc_clean pid).bind fun _ => (heapPushOrPanic_clean _ _ _).bind fun _ => clean_pure _

theorem schedYield_clean (sc : Sched) : Clean (schedYield sc) :=
  (p0OrProc_clean _ _).bind fun _ => clean_pure _

theorem schedPreempt_clean (swp : Sched → ProcRef → ProcRef → Sched) (sc : Sched)
    (cur c : ProcRef) : Clean (schedPreempt swp sc cur c) := by
  unfold schedPreempt
  apply (deref_clean _).bind
  intro p
  refine Clean.bind ?_ fun _ => clean_pure _
  split_ifs
  · exact schedReadyProc_clean _ _
  · exact clean_pure _

theorem sched_clean (swp : Sched → ProcRef → ProcRef → Sched) (sc : Sched) :
    Clean (sched swp sc) := by
  unfold sched
  dsimp only
  split_ifs
  · exact clean_pure _
  · apply (deref_clean _).bind
    intro cur
    apply (p0OrProc_clean _ _).bind
    intro c
    split_ifs
    · exact schedPreempt_clean _ _ _ _
    · split
      · simp [Clean, LawfulStop]
      · split_ifs
        · exact schedPreempt_clean _ _ _ _
        · exact clean_pure _

theorem timerLoop_clean (n : ℕ) (k : Kernel M) : Clean (timerLoop pf n k) := by
  induction n generalizing k with
  | zero => simp [timerLoop, Clean, LawfulStop]
  | succ n ih =>
    rw [timerLoop]
    dsimp only
    split
    · exact clean_pure _
    · split_ifs
      · exact (schedWaitProc_clean _ _).bind fun _ => clean_pure _
      · refine (schedReadyProc_clean _ _).bind fun _ => (sched_clean _ _).bind ?_
        intro sc
        split_ifs
        · exact ih _
        · exact clean_pure _

theorem timerFn_clean (k : Kernel M) : Clean (timerFn pf k) := by
  unfold timerFn
  split_ifs
  · exact timerLoop_clean pf _ k
  · exact clean_pure _

theorem waitUntil_clean (k : Kernel M) (u : ℕ) : Clean (waitUntil pf k u) := by
  unfold waitUntil
  refine (schedYield_clean _).bind fun _ => (schedWaitProc_clean _ _).bind ?_
  intro sc
  dsimp only
  split
  · exact clean_pure _
  · split_ifs
    · exact clean_pure _
    · exact clean_pure _

/-- The calls a process creation makes. -/
structure CleanCalls : Prop where
  alloc : ∀ m len, Holds Lawful (fun _ => True) (pf.alloc m len)
  procRoot : ∀ m base len, Holds Lawful (fun _ => True) (pf.procRoot m base len)

variable {pf}

theorem schedNewProc_clean (hpf : CleanCalls pf) (k : Kernel M)
    (pc codeSize mem memSize deadline exit : ℕ) :
    Clean (schedNewProc pf k pc codeSize mem memSize deadline exit) := by
  unfold schedNewProc
  dsimp only
  split
  · exact clean_panic (by decide)
  · refine Clean.bind ?_ fun _ => clean_pure _
    exact Clean.bind (clean_call (hpf.procRoot _ _ _)) fun _ => clean_pure _

theorem scheduleReq_clean (hpf : CleanCalls pf) (k : Kernel M) (pc progSize memReq : ℕ) :
    Clean (scheduleReq pf k pc progSize memReq) := by
  unfold scheduleReq
  apply Clean.bind (clean_call (hpf.alloc _ _))
  intro a
  dsimp only
  split_ifs
  · exact clean_panic (by decide)
  · exact (schedNewProc_clean hpf _ _ _ _ _ _ _).bind fun _ =>
      (schedReadyProc_clean _ _).bind fun _ => (sched_clean _ _).bind fun _ => clean_pure _

theorem spawn_clean (hpf : CleanCalls pf) (k : Kernel M) (deadline ep ap memReq : ℕ) :
    Clean (spawn pf k deadline ep ap memReq) := by
  unfold spawn
  apply Clean.bind (clean_call (hpf.alloc _ _))
  intro a
  refine (deref_clean _).bind fun _ => (schedNewProc_clean hpf _ _ _ _ _ _ _).bind fun _ => ?_
  exact (schedGetProc_clean _).bind fun _ => (schedReadyProc_clean _ _).bind fun _ =>
    (sched_clean _ _).bind fun _ => clean_pure _

theorem schedFreeProc_clean {k : Kernel M} {i : ℕ} (hi : i < maxProc)
    (hfree : Holds Lawful (fun m => Holds Lawful (fun _ => True)
      (pf.rootFree m (k.sched.pb i).ctx.mmap.root)) (pf.free k.mem (k.sched.pb i).mem)) :
    Clean (schedFreeProc pf k (i + 1)) := by
  rw [schedFreeProc, schedGetProc_succ hi, ok_bind]
  split_ifs
  · exact clean_panic (by decide)
  · have hproc : ∀ f : Proc → Proc, ∀ fp n,
        ({ k.sched.modify (.pb i) f with freeProc := fp, nfreeProc := n }.proc (.pb i)) =
          f (k.sched.pb i) := by
      intro f fp n
      simp [Sched.modify, Sched.proc]
    simp only [hproc]
    apply Holds.bind (clean_call hfree)
    intro m hm
    refine Clean.bind (Clean.bind (clean_call hm) fun _ => clean_pure _) fun _ => clean_pure _

end Clean

/-! ## Runs -/

section Run
variable {place : List HeapCall → ℕ → ℕ → ℕ} {ignoresNull : Bool} {kernelEnd jrtExit : ℕ}
  {cntpct : ℕ → ℕ} {k : Kernel IdealMem}

/-- The invariant of a run over the ideal allocator. -/
structure Accounted (k : Kernel IdealMem) : Prop where
  inv : KernelInv k
  ownership : Ownership k
  known : MemKnown k

theorem idealPlatform_procRoot (hp : IdealAlloc place) (m : IdealMem) (base len : ℕ) :
    Holds Lawful (fun r => ∃ ps, TakesPages m r.2 r.1 ps)
      ((idealPlatform place ignoresNull kernelEnd cntpct jrtExit).procRoot m base len) :=
  onTables_spec (f := fun t => procRoot (idealPick place m.hist) kernelEnd t base len)
    (procRoot_grown hp kernelEnd base len)

theorem idealPlatform_kernRoot (hp : IdealAlloc place) (m : IdealMem) :
    Holds Lawful (fun r => ∃ ps, TakesPages m r.2 r.1 ps)
      ((idealPlatform place ignoresNull kernelEnd cntpct jrtExit).kernRoot m) :=
  onTables_spec (f := fun t => kernRoot (idealPick place m.hist) t) (kernRoot_grown hp)

theorem idealPlatform_cleanCalls (hp : IdealAlloc place) :
    CleanCalls (idealPlatform place ignoresNull kernelEnd cntpct jrtExit) where
  alloc _ _ := trivial
  procRoot m base len := (idealPlatform_procRoot hp m base len).mono fun _ _ => trivial

theorem Sched.mem_liveProcs_curr {sc : Sched} {i : ℕ} (hc : sc.curr = some (.pb i)) :
    .pb i ∈ liveProcs sc := by
  simp [liveProcs, hc]

theorem exit_clean (h : Accounted k) :
    Clean (exit (idealPlatform place ignoresNull kernelEnd cntpct jrtExit) k) := by
  unfold exit
  refine Holds.bind ((schedYield_clean k.sched).holds (P := fun y => schedYield k.sched = .ok y)
    fun y hy => hy) ?_
  rintro ⟨c, sc⟩ hy
  obtain ⟨hcur, hinv, -, hframe⟩ := (schedYield_spec h.inv.places).of_ok hy
  dsimp only at hcur hinv hframe ⊢
  cases c with
  | p0 =>
    have hz : (sc.proc .p0).pid = 0 := hinv.p0_pid
    rw [hz, schedFreeProc, schedGetProc_zero]
    exact clean_panic (by decide)
  | pb i =>
    rw [hcur] at hinv
    have hi : i < maxProc := h.inv.places.slot_of_curr hcur
    have hpid : (sc.proc (.pb i)).pid = i + 1 := hinv.pb_pid i hi
    rw [hpid]
    obtain ⟨s, hs⟩ := hframe.procs (.pb i)
    have hsame : sc.pb i = { k.sched.pb i with state := s } := hs
    have hlive := Sched.mem_liveProcs_curr hcur
    apply schedFreeProc_clean hi
    dsimp only
    rw [hsame]
    apply (h.ownership.free_mem (r := .pb i) hlive).mono
    rintro m rfl
    obtain ⟨m', hok, -⟩ : ∃ m', ptRootFree ignoresNull (afterFree k.mem (k.sched.pb i))
        (k.sched.pb i).ctx.mmap.root = .ok m' ∧ Freed (afterFree k.mem (k.sched.pb i)) m' _ :=
      ptRootFree_spec (h.ownership.returnable (r := .pb i) hlive)
    change Holds Lawful (fun _ => True) (ptRootFree ignoresNull (afterFree k.mem (k.sched.pb i))
      (k.sched.pb i).ctx.mmap.root)
    rw [hok]
    trivial

theorem liveProcs_idle {sc : Sched} (hready : sc.ready.len = 0) (hwaiting : sc.waiting.len = 0)
    (hcurr : sc.curr = some .p0) : liveProcs sc = 0 := by
  rw [liveProcs, queued, queued, contents_eq_zero.mpr hready, contents_eq_zero.mpr hwaiting, hcurr]
  rfl

/-- While nothing but the kernel runs, the tables of its map are all that is out. -/
theorem Ownership.of_idle {ps : List ℕ} (hlive : livePtrs k.mem.hist = ps) (hnd : ps.Nodup)
    (hpages : (tablePages k.mem.table 3 k.sched.p0.ctx.mmap.root.l0).Perm ps)
    (hready : k.sched.ready.len = 0) (hwaiting : k.sched.waiting.len = 0)
    (hcurr : k.sched.curr = some .p0) : Ownership k := by
  have hidle := liveProcs_idle hready hwaiting hcurr
  have howned : owned k = ps := by
    rw [owned, hidle, Multiset.map_zero, Multiset.sum_zero, add_zero, mapBlocks,
      Multiset.coe_eq_coe.mpr hpages]
  exact ⟨by rw [hlive, howned], by rw [howned]; exact Multiset.coe_nodup.mpr hnd⟩

theorem schedInit_idle {M : Type} (pf : Platform M) (mem : M) :
    Holds Stop.IsHalt (fun k => liveProcs k.sched = 0) (schedInit pf mem) := by
  unfold schedInit kernMapCreate
  simp only [bind_assoc, pure_bind]
  apply (holds_call _).bind
  intro r _
  exact liveProcs_idle rfl rfl rfl

/-- `sched_init` takes the pages of the kernel map. -/
theorem schedInit_accounted (hp : IdealAlloc place) (table : ℕ → ℕ → ℕ) :
    Holds LawfulStop Accounted
      (schedInit (idealPlatform place ignoresNull kernelEnd cntpct jrtExit) ⟨[], table⟩) := by
  have hinv := schedInit_inv (idealPlatform place ignoresNull kernelEnd cntpct jrtExit) ⟨[], table⟩
  unfold schedInit kernMapCreate at hinv ⊢
  simp only [bind_assoc, pure_bind] at hinv ⊢
  have hroot : Holds LawfulStop (fun r => ∃ ps, TakesPages ⟨[], table⟩ r.2 r.1 ps) (call
      ((idealPlatform place ignoresNull kernelEnd cntpct jrtExit).kernRoot ⟨[], table⟩)) :=
    clean_call (idealPlatform_kernRoot hp _)
  cases hr : call
      ((idealPlatform place ignoresNull kernelEnd cntpct jrtExit).kernRoot ⟨[], table⟩) with
  | error e =>
    rw [hr] at hroot
    exact hroot
  | ok r =>
    rw [hr] at hinv hroot
    obtain ⟨ps, htake⟩ := hroot
    have hz : ∀ p ∈ ps, p ≠ 0 := fun p hm => (htake.fresh p hm).1
    refine ⟨hinv, ?_, ?_⟩
    · have hlive : livePtrs r.2.hist = ps := by
        rw [htake.hist, livePtrs_pageCalls hz]
        exact List.append_nil ps
      exact Ownership.of_idle hlive htake.nodup htake.pages rfl rfl rfl
    · intro r hr
      simp [liveProcs, queued] at hr

theorem step_accounted (hp : IdealAlloc place) (h : Accounted k) (e : Event) :
    Holds LawfulStop Accounted
      (step (idealPlatform place ignoresNull kernelEnd cntpct jrtExit) k e) := by
  have hstep := step_inv (idealPlatform place ignoresNull kernelEnd cntpct jrtExit) h.inv e
  cases e with
  | scheduleReq pc progSize memReq =>
    apply (scheduleReq_clean (idealPlatform_cleanCalls hp) k pc progSize memReq).holds
    intro k' hok
    have hinv' := hstep.of_ok hok
    obtain ⟨-, -, -, -, mem, m, root, p, halloc, -, hroot, hc⟩ :=
      (scheduleReq_spec _ h.inv.places pc progSize memReq).of_ok hok
    obtain ⟨ps, htake⟩ := (idealPlatform_procRoot hp m pc progSize).of_ok hroot
    exact ⟨hinv', h.ownership.created hp h.inv.places hinv'.places hc halloc htake,
      h.known.created h.inv.places hinv'.places hc halloc htake⟩
  | timerFn =>
    apply (timerFn_clean _ k).holds
    intro k' hok
    have hinv' := hstep.of_ok hok
    obtain ⟨-, -, -, -, -, hmem, hw⟩ := (timerFn_spec _ h.inv.places h.inv.edf).of_ok hok
    have hmoves : Moves k k' := by
      refine ⟨hmem, hw.nfreeProc, hw.freeProc, ?_⟩
      intro r
      obtain ⟨s, hs⟩ := hw.procs r
      exact ⟨(k.sched.proc r).waitUntil, s, hs⟩
    exact ⟨hinv', h.ownership.moved h.inv.places hinv'.places hmoves,
      h.known.moved h.inv.places hinv'.places hmoves⟩
  | waitUntil u =>
    apply (waitUntil_clean _ k u).holds
    intro k' hok
    have hinv' := hstep.of_ok hok
    obtain ⟨-, -, -, -, hmem, i, hs⟩ := (waitUntil_spec _ h.inv.places h.inv.timer u).of_ok hok
    have hmoves : Moves k k' := by
      refine ⟨hmem, hs.nfreeProc, hs.freeProc, ?_⟩
      intro r
      by_cases hr : r = .pb i
      · subst hr
        exact ⟨u, .waiting, hs.slept⟩
      · obtain ⟨s, he⟩ := hs.others r hr
        exact ⟨(k.sched.proc r).waitUntil, s, he⟩
    exact ⟨hinv', h.ownership.moved h.inv.places hinv'.places hmoves,
      h.known.moved h.inv.places hinv'.places hmoves⟩
  | exit =>
    apply (exit_clean h).holds
    intro k' hok
    have hinv' := hstep.of_ok hok
    obtain ⟨-, -, -, -, i, m, hfree, hroot, hx⟩ := (exit_spec _ h.inv.places).of_ok hok
    have hlive := Sched.mem_liveProcs_curr hx.curr
    have hm := (h.ownership.free_mem (r := .pb i) hlive).of_ok hfree
    rw [hm] at hroot
    exact ⟨hinv', h.ownership.exited h.inv.places hinv'.places hx hroot,
      h.known.exited h.ownership h.inv.places hinv'.places hx hroot⟩
  | spawn deadline ep ap memReq =>
    apply (spawn_clean (idealPlatform_cleanCalls hp) k deadline ep ap memReq).holds
    intro k' hok
    have hinv' := hstep.of_ok hok
    obtain ⟨-, -, -, -, cur, mem, m, root, p, -, halloc, hroot, hc⟩ :=
      (spawn_spec _ h.inv.places deadline ep ap memReq).of_ok hok
    obtain ⟨ps, htake⟩ := (idealPlatform_procRoot hp m _ _).of_ok hroot
    exact ⟨hinv', h.ownership.created hp h.inv.places hinv'.places hc halloc htake,
      h.known.created h.inv.places hinv'.places hc halloc htake⟩

theorem run_accounted (hp : IdealAlloc place) (table : ℕ → ℕ → ℕ) (es : List Event) :
    Holds LawfulStop Accounted
      (run (idealPlatform place ignoresNull kernelEnd cntpct jrtExit) ⟨[], table⟩ es) :=
  (schedInit_accounted hp table).bind (Holds.foldlM (fun _ e h => step_accounted hp h e) es)

end Run

/-! ## A kernel over the bump allocator -/

/-- The platform of the examples below, with an empty heap. -/
def bumpPlatform : Platform IdealMem := idealPlatform bumpPlace false 0x50020000 id 0x50000000

def emptyHeap : IdealMem := ⟨[], fun _ _ => 0⟩

/-- Idle or running one process, with room for `n` more pages. -/
structure Roomy (c : ProcRef) (n : ℕ) (k : Kernel IdealMem) : Prop where
  calm : Calm c k
  slots : 1 < k.sched.nfreeProc
  room : heapTop k.mem.hist + 8192 * n < 2 ^ 48

theorem bump_boot : ∃ k, run bumpPlatform emptyHeap [] = .ok k ∧ Roomy .p0 (2 ^ 24) k := by
  obtain ⟨r, hr, htop⟩ := onTables_returns (m := emptyHeap)
    (kernRoot_spec (bumpPlace_ideal.pages []) ⟨fun _ _ => 0, []⟩) (by decide)
  have hroot : bumpPlatform.kernRoot emptyHeap = .ok r := hr
  obtain ⟨k, hk, hmem, hcurr, hready, hcap, hslot⟩ : ∃ k, schedInit bumpPlatform emptyHeap = .ok k ∧
      k.mem = r.2 ∧ k.sched.curr = some .p0 ∧ k.sched.ready.len = 0 ∧
      k.sched.ready.cap = readyMax ∧ k.sched.nfreeProc = maxProc := by
    rw [schedInit, kernMapCreate, hroot]
    exact ⟨_, rfl, rfl, rfl, rfl, rfl, rfl⟩
  have hinv := (schedInit_inv bumpPlatform emptyHeap).of_ok hk
  refine ⟨k, by rw [run, hk]; rfl, ⟨hinv.places, hcurr, hready, ?_⟩, ?_, ?_⟩
  · rw [hcap]
    decide
  · rw [hslot]
    decide
  · rw [hmem]
    apply lt_of_le_of_lt (Nat.add_le_add_right htop _)
    decide

/-- Room for `n + 1` steps of size `s` is room for one of them. -/
theorem room_first {t s n b : ℕ} (h : t + s * (n + 1) < b) : t + s < b := by
  rw [Nat.mul_succ] at h
  omega

/-- After one step there is room for the others. -/
theorem room_next {t t' s n b : ℕ} (h : t + s * (n + 1) < b) (ht : t' ≤ t + s) :
    t' + s * n < b := by
  rw [Nat.mul_succ] at h
  omega

/-- The memory after `alloc` has returned one page. -/
theorem bump_alloc {m : IdealMem} (hroom : heapTop m.hist + 8192 < 2 ^ 48) :
    ∃ p m', idealAlloc bumpPlace m 4096 = .ok (p, m') ∧ p ≠ 0 ∧
      heapTop m'.hist ≤ heapTop m.hist + 8192 := by
  have hplace : bumpPlace m.hist 4096 1 = heapTop m.hist + 1 := by
    unfold bumpPlace
    rw [Nat.div_one, Nat.mul_one, if_pos (by omega)]
  refine ⟨heapTop m.hist + 1, _, by rw [idealAlloc, hplace], Nat.succ_ne_zero _, ?_⟩
  dsimp only
  rw [heapTop, if_neg (Nat.succ_ne_zero _)]
  omega

theorem bump_procRoot {m : IdealMem} {n n' : ℕ} (hroom : heapTop m.hist + 8192 * n' < 2 ^ 48)
    (hn : n + mapPages < n') {pc progSize : ℕ}
    (hpc : pc < code0 + jrtCodeSize) (hsize : progSize ≤ jrtCodeSize) :
    ∃ root m', bumpPlatform.procRoot m pc progSize = .ok (root, m') ∧
      heapTop m'.hist + 8192 * n < 2 ^ 48 := by
  have hspec := procRoot_allocs bumpPlace_ideal m.hist ⟨m.table, []⟩
    (show 0x50020000 ≤ code0 + jrtCodeSize by decide) hpc hsize
  clear hpc hsize
  generalize mapPages = c at hn hspec
  have hroom' : heapTop m.hist + 8192 * (c + 1) < 2 ^ 48 := by omega
  obtain ⟨r, hr, htop⟩ := onTables_returns
    (f := fun t => procRoot (idealPick bumpPlace m.hist) 0x50020000 t pc progSize) hspec hroom'
  exact ⟨r.1, r.2, hr, by omega⟩

/-- A request of one page of memory on an idle kernel. -/
theorem bump_scheduleReq {k : Kernel IdealMem} {n n' : ℕ} (h : Roomy .p0 (n' + 1) k)
    (hn : n + mapPages < n') {pc progSize : ℕ} (hpc : pc < code0 + jrtCodeSize)
    (hsize : progSize ≤ jrtCodeSize) :
    ∃ k' i, scheduleReq bumpPlatform k pc progSize 4096 = .ok k' ∧ Calm (.pb i) k' ∧
      heapTop k'.mem.hist + 8192 * n < 2 ^ 48 := by
  obtain ⟨p, m, halloc, hp, htop⟩ := bump_alloc (room_first h.room)
  obtain ⟨root, m', hroot, htop'⟩ := bump_procRoot (room_next h.room htop) hn hpc hsize
  obtain ⟨k', i, hk', hcalm⟩ := scheduleReq_calm bumpPlatform h.calm (Nat.zero_lt_of_lt h.slots) pc progSize 4096 halloc
    hp hroot
  refine ⟨k', i, hk', hcalm, ?_⟩
  obtain ⟨-, -, -, -, _, _, _, _, halloc', -, hroot', -⟩ :=
    (scheduleReq_spec bumpPlatform h.calm.places pc progSize 4096).of_ok hk'
  obtain ⟨-, rfl⟩ := Prod.mk.inj (Except.ok.inj (halloc.symm.trans halloc'))
  obtain ⟨-, hmem⟩ := Prod.mk.inj (Except.ok.inj (hroot.symm.trans hroot'))
  rw [← hmem]
  exact htop'

section Run
variable {place : List HeapCall → ℕ → ℕ → ℕ} {ignoresNull : Bool} {kernelEnd jrtExit : ℕ}
  {cntpct : ℕ → ℕ} {k : Kernel IdealMem}

/-- In every run, all blocks that are out have exactly one owner, and nothing is returned
that is not out. -/
theorem run_ownership (hp : IdealAlloc place) (table : ℕ → ℕ → ℕ) (es : List Event) :
    Holds LawfulStop Ownership
      (run (idealPlatform place ignoresNull kernelEnd cntpct jrtExit) ⟨[], table⟩ es) :=
  (run_accounted hp table es).mono fun _ h => h.ownership

end Run

/-- One program on a fresh kernel. -/
def oneProgram : List Event := [.scheduleReq 0x50100000 4096 4096]

theorem oneProgram_returns :
    ∃ k i, run bumpPlatform emptyHeap oneProgram = .ok k ∧ Calm (.pb i) k ∧
      heapTop k.mem.hist + 8192 * 100000 < 2 ^ 48 ∧ 0 < k.sched.nfreeProc ∧
      (k.sched.pb i).paPc = 0x50100000 ∧ (k.sched.pb i).progSize = 4096 ∧
      (k.sched.pb i).effDeadline = 0 := by
  obtain ⟨k₀, h₀, hroomy⟩ := bump_boot
  have hroomy' : Roomy .p0 (2 ^ 24 - 1 + 1) k₀ := hroomy
  obtain ⟨k, i, hk, hcalm, htop⟩ := bump_scheduleReq (n := 100000) hroomy'
    (by decide) (show 0x50100000 < code0 + jrtCodeSize by decide)
    (show 4096 ≤ jrtCodeSize by decide)
  obtain ⟨hinv, -, -, -, mem, m, root, p, -, -, -, hc⟩ :=
    (scheduleReq_spec bumpPlatform hroomy.calm.places 0x50100000 4096 4096).of_ok hk
  -- the new process is the only one, so it is the one that runs
  have hidle : liveProcs k₀.sched = 0 :=
    (schedInit_idle bumpPlatform emptyHeap).of_ok (by simpa [run] using h₀)
  have hlive := hc.liveProcs hroomy.calm.places hinv
  rw [hidle] at hlive
  have hnew : ProcRef.pb i = k₀.sched.freeProc k.sched.nfreeProc := by
    have hcurr := Sched.mem_liveProcs_curr hcalm.curr
    rw [hlive] at hcurr
    simpa using hcurr
  obtain ⟨s, hs⟩ := hc.created
  rw [← hnew] at hs
  have hproc : k.sched.pb i = _ := hs
  refine ⟨k, i, (run_snoc bumpPlatform emptyHeap [] _ h₀).trans hk, hcalm, htop, ?_, ?_, ?_, ?_⟩
  · have h1 := hc.nfreeProc
    have h2 := hroomy.slots
    omega
  · rw [hproc]
    rfl
  · rw [hproc]
    rfl
  · rw [hproc]
    rfl

/-- It owns its memory and its tables. -/
theorem oneProgram_ownership :
    ∃ k, run bumpPlatform emptyHeap oneProgram = .ok k ∧ Ownership k := by
  obtain ⟨k, i, hk, -⟩ := oneProgram_returns
  exact ⟨k, hk, (run_ownership bumpPlace_ideal (fun _ _ => 0) oneProgram).of_ok hk⟩

/-! ## Memory of live processes -/

section Run
variable {place : List HeapCall → ℕ → ℕ → ℕ} {ignoresNull : Bool} {kernelEnd jrtExit : ℕ}
  {cntpct : ℕ → ℕ} {k : Kernel IdealMem}

/-- Every live process has real memory. -/
def AllReal (k : Kernel IdealMem) : Prop :=
  ∀ r ∈ liveProcs k.sched, RealMem k.mem (k.sched.proc r)

theorem Accounted.allReal_iff (h : Accounted k) :
    AllReal k ↔ ∀ r ∈ liveProcs k.sched, (k.sched.proc r).mem ≠ 0 :=
  ⟨fun ha r hr => (ha r hr).1, fun hne r hr => h.known r hr (hne r hr)⟩

/-- A new process has real memory if it has any. -/
theorem AllReal.created {k' : Kernel IdealMem} {q : Proc} (ha : AllReal k) (h : Accounted k)
    (h' : Accounted k') (hc : Creates k.sched k'.sched q) (hq : q.mem ≠ 0) : AllReal k' := by
  rw [h'.allReal_iff]
  intro r hr
  rw [hc.liveProcs h.inv.places h'.inv.places, Multiset.mem_cons] at hr
  obtain rfl | hr := hr
  · obtain ⟨s, hs⟩ := hc.created
    rw [hs]
    exact hq
  · by_cases hnew : r = k.sched.freeProc k'.sched.nfreeProc
    · obtain ⟨s, hs⟩ := hc.created
      rw [hnew, hs]
      exact hq
    · obtain ⟨s, hs⟩ := hc.others r hnew
      rw [hs]
      exact (ha r hr).1

/-- One event, with the condition on a spawn. -/
theorem step_allReal (hp : IdealAlloc place) (h : Accounted k) (ha : AllReal k) {e : Event}
    {k' : Kernel IdealMem}
    (hok : step (idealPlatform place ignoresNull kernelEnd cntpct jrtExit) k e = .ok k')
    (he : ∀ deadline ep ap memReq, e = .spawn deadline ep ap memReq →
      place k.mem.hist memReq 1 ≠ 0) : AllReal k' := by
  have h' := (step_accounted hp h e).of_ok hok
  cases e with
  | scheduleReq pc progSize memReq =>
    obtain ⟨-, -, -, -, mem, m, root, p, halloc, hne, hroot, hc⟩ :=
      (scheduleReq_spec _ h.inv.places pc progSize memReq).of_ok hok
    exact ha.created h h' hc hne
  | timerFn =>
    obtain ⟨-, -, -, -, -, -, hw⟩ := (timerFn_spec _ h.inv.places h.inv.edf).of_ok hok
    rw [h'.allReal_iff]
    intro r hr
    rw [liveProcs_eq h.inv.places h'.inv.places (freeStack_congr hw.freeProc hw.nfreeProc)] at hr
    obtain ⟨s, hs⟩ := hw.procs r
    rw [hs]
    exact (ha r hr).1
  | waitUntil u =>
    obtain ⟨-, -, -, -, -, i, hs⟩ := (waitUntil_spec _ h.inv.places h.inv.timer u).of_ok hok
    rw [h'.allReal_iff]
    intro r hr
    rw [liveProcs_eq h.inv.places h'.inv.places (freeStack_congr hs.freeProc hs.nfreeProc)] at hr
    by_cases hri : r = .pb i
    · subst hri
      have hslept : k'.sched.proc (.pb i) = _ := hs.slept
      rw [hslept]
      exact (ha _ hr).1
    · obtain ⟨s, hst⟩ := hs.others r hri
      rw [hst]
      exact (ha r hr).1
  | exit =>
    obtain ⟨-, -, -, -, i, m, -, -, hx⟩ := (exit_spec _ h.inv.places).of_ok hok
    have hlive := hx.liveProcs h.inv.places h'.inv.places
    have hnd := h.inv.places.nodup_live
    rw [hlive] at hnd
    rw [h'.allReal_iff]
    intro r hr
    have hri : r ≠ .pb i := by
      rintro rfl
      exact (Multiset.nodup_cons.mp hnd).1 hr
    obtain ⟨s, hs⟩ := hx.others r hri
    rw [hs]
    exact (ha r (hlive ▸ Multiset.mem_cons_of_mem hr)).1
  | spawn deadline ep ap memReq =>
    obtain ⟨-, -, -, -, cur, mem, m, root, p, -, halloc, hroot, hc⟩ :=
      (spawn_spec _ h.inv.places deadline ep ap memReq).of_ok hok
    have hmem : place k.mem.hist memReq 1 = mem := (Prod.mk.inj (Except.ok.inj halloc)).1
    apply ha.created h h' hc
    change mem ≠ 0
    rw [← hmem]
    exact he deadline ep ap memReq rfl

/-- A spawn that gets NULL leaves a live process without memory. -/
theorem spawn_null (h : Accounted k) {k' : Kernel IdealMem} (hinv' : Inv 0 k'.sched)
    {deadline ep ap memReq : ℕ}
    (hok : spawn (idealPlatform place ignoresNull kernelEnd cntpct jrtExit) k deadline ep ap
      memReq = .ok k')
    (hnull : place k.mem.hist memReq 1 = 0) :
    ∃ r ∈ liveProcs k'.sched, (k'.sched.proc r).mem = 0 := by
  obtain ⟨-, -, -, -, cur, mem, m, root, p, -, halloc, hroot, hc⟩ :=
    (spawn_spec _ h.inv.places deadline ep ap memReq).of_ok hok
  have hmem : place k.mem.hist memReq 1 = mem := (Prod.mk.inj (Except.ok.inj halloc)).1
  refine ⟨k.sched.freeProc k'.sched.nfreeProc, ?_, ?_⟩
  · rw [hc.liveProcs h.inv.places hinv']
    exact Multiset.mem_cons_self _ _
  · obtain ⟨s, hs⟩ := hc.created
    rw [hs]
    exact hmem.symm.trans hnull

/-- All live processes have real memory in all states of a run exactly if no spawn of it
that returns was given NULL. -/
theorem run_allReal_iff (hp : IdealAlloc place) (table : ℕ → ℕ → ℕ) (es : List Event) :
    (∀ es' k, es' <+: es →
      run (idealPlatform place ignoresNull kernelEnd cntpct jrtExit) ⟨[], table⟩ es' = .ok k →
        AllReal k) ↔
    ∀ es' k k' deadline ep ap memReq, es' ++ [.spawn deadline ep ap memReq] <+: es →
      run (idealPlatform place ignoresNull kernelEnd cntpct jrtExit) ⟨[], table⟩ es' = .ok k →
      spawn (idealPlatform place ignoresNull kernelEnd cntpct jrtExit) k deadline ep ap memReq =
        .ok k' → place k.mem.hist memReq 1 ≠ 0 := by
  constructor
  · intro hall es' k k' deadline ep ap memReq hpre hk hk' hnull
    have h := (run_accounted hp table es').of_ok hk
    have hnext := (run_snoc _ _ es' (.spawn deadline ep ap memReq) hk).trans hk'
    have hinv' := (run_inv _ _ _).of_ok hnext
    obtain ⟨r, hr, hz⟩ := spawn_null h hinv'.places hk' hnull
    exact (hall _ k' hpre hnext r hr).1 hz
  · intro hall es'
    -- along the run, from its first state on
    induction es' using List.reverseRecOn with
    | nil =>
      intro k _ hk r hr
      have hidle : liveProcs k.sched = 0 := by
        have hinit : schedInit (idealPlatform place ignoresNull kernelEnd cntpct jrtExit)
            ⟨[], table⟩ = .ok k := by simpa [run] using hk
        exact (schedInit_idle _ _).of_ok hinit
      rw [hidle] at hr
      exact absurd hr (Multiset.notMem_zero r)
    | append_singleton es' e ih =>
      intro k' hpre hk'
      cases hk : run (idealPlatform place ignoresNull kernelEnd cntpct jrtExit) ⟨[], table⟩ es' with
      | error x =>
        rw [run_append, hk] at hk'
        cases hk'
      | ok k =>
        have h := (run_accounted hp table es').of_ok hk
        have ha := ih k ((List.prefix_append _ _).trans hpre) hk
        have hstep := (run_snoc _ _ es' e hk).symm.trans hk'
        apply step_allReal hp h ha hstep
        rintro deadline ep ap memReq rfl
        exact hall es' k k' deadline ep ap memReq hpre hk hstep

end Run

/-- The program starts a child with as much memory as its own. -/
def spawnWithMemory : List Event := oneProgram ++ [.spawn 5 0 0 4096]

theorem spawnWithMemory_returns :
    ∃ k k', run bumpPlatform emptyHeap oneProgram = .ok k ∧
      run bumpPlatform emptyHeap spawnWithMemory = .ok k' ∧ bumpPlace k.mem.hist 4096 1 ≠ 0 := by
  obtain ⟨k, i, hk, hcalm, htop, hslot, hpc, hsize, hdl⟩ := oneProgram_returns
  have hroom : heapTop k.mem.hist + 8192 * (99999 + 1) < 2 ^ 48 := htop
  obtain ⟨p, m, halloc, hp, htop'⟩ := bump_alloc (room_first hroom)
  obtain ⟨root, m', hroot, -⟩ := bump_procRoot (n := 0) (room_next hroom htop') (by decide)
    (show 0x50100000 < code0 + jrtCodeSize by decide) (show 4096 ≤ jrtCodeSize by decide)
  rw [← hpc, ← hsize] at hroot
  obtain ⟨k', hk'⟩ := spawn_calm bumpPlatform hcalm hslot 5 0 0 4096 halloc hroot
    (by rw [hdl]; decide)
  have hplace : bumpPlace k.mem.hist 4096 1 = p := (Prod.mk.inj (Except.ok.inj halloc)).1
  exact ⟨k, k', hk, (run_snoc bumpPlatform emptyHeap oneProgram (.spawn 5 0 0 4096) hk).trans hk',
    hplace ▸ hp⟩

/-- Both processes have memory. -/
theorem spawnWithMemory_allReal :
    ∃ k, run bumpPlatform emptyHeap spawnWithMemory = .ok k ∧ AllReal k := by
  obtain ⟨k, k', hk, hk', hmem⟩ := spawnWithMemory_returns
  refine ⟨k', hk', (run_allReal_iff bumpPlace_ideal (fun _ _ => 0) spawnWithMemory).mpr ?_ _ k'
    (List.prefix_refl _) hk'⟩
  rintro (_ | ⟨e, _ | ⟨e', es⟩⟩) k₁ _ deadline ep ap memReq hpre hk₁ -
  · simp [spawnWithMemory, oneProgram] at hpre
  · simp only [spawnWithMemory, oneProgram, List.cons_append, List.nil_append,
      List.cons_prefix_cons, Event.spawn.injEq] at hpre
    obtain ⟨rfl, ⟨-, -, -, rfl⟩, -⟩ := hpre
    obtain rfl := Except.ok.inj (hk.symm.trans hk₁)
    exact hmem
  · simp [spawnWithMemory, oneProgram] at hpre

/-- The program asks for a child with more memory than any block has. -/
def spawnWithoutMemory : List Event := oneProgram ++ [.spawn 5 0 0 (2 ^ 32)]

/-- The kernel goes on, with a ready process whose memory is NULL. -/
theorem spawnWithoutMemory_not_allReal :
    ∃ k, run bumpPlatform emptyHeap spawnWithoutMemory = .ok k ∧
      (∃ r ∈ liveProcs k.sched, (k.sched.proc r).mem = 0) ∧ ¬AllReal k := by
  obtain ⟨k, i, hk, hcalm, htop, hslot, hpc, hsize, hdl⟩ := oneProgram_returns
  have hacc : Accounted k := (run_accounted bumpPlace_ideal (fun _ _ => 0) oneProgram).of_ok hk
  have hnull : bumpPlace k.mem.hist (2 ^ 32) 1 = 0 := by
    unfold bumpPlace
    rw [if_neg (by omega)]
  have halloc : bumpPlatform.alloc k.mem (2 ^ 32) =
      .ok (0, { k.mem with hist := .alloc (2 ^ 32) 1 0 :: k.mem.hist }) := by
    change idealAlloc bumpPlace k.mem (2 ^ 32) = _
    rw [idealAlloc, hnull]
  obtain ⟨root, m', hroot, -⟩ := bump_procRoot (m := { k.mem with
      hist := .alloc (2 ^ 32) 1 0 :: k.mem.hist }) (n := 0) htop (by decide)
    (show 0x50100000 < code0 + jrtCodeSize by decide) (show 4096 ≤ jrtCodeSize by decide)
  rw [← hpc, ← hsize] at hroot
  obtain ⟨k', hk'⟩ := spawn_calm bumpPlatform hcalm hslot 5 0 0 (2 ^ 32) halloc hroot
    (by rw [hdl]; decide)
  have hrun := (run_snoc bumpPlatform emptyHeap oneProgram (.spawn 5 0 0 (2 ^ 32)) hk).trans hk'
  have hinv' := (run_inv bumpPlatform emptyHeap _).of_ok hrun
  obtain ⟨r, hr, hz⟩ := spawn_null hacc hinv'.places hk' hnull
  exact ⟨k', hrun, ⟨r, hr, hz⟩, fun hreal => (hreal r hr).1 hz⟩

end JanusRT
