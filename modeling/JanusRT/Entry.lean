import JanusRT.ProcessMap
import JanusRT.Rtcore
import JanusRT.Runs

/-!
# From a scheduling request to the first instruction

A request names an entry address; `rtcore_sched_prog` turns it into a physical `pc`
and a length, `schedule_req` creates a process that starts at virtual zero, and its
page map is meant to take virtual zero to `pc`. The module asks for an entry that is
a multiple of four, `map_range_pages` rounds it down to a page.
-/
namespace JanusRT
open RadixTree Outcome Heap

/-- The process that `schedule_req` took from the free stack starts at virtual zero,
and virtual `o` is physical `pc + o` for the whole program. -/
def EntryRuns (k k' : Kernel PageMem) (req : SchedReq) : Prop :=
  let p := k'.sched.proc (k.sched.freeProc k'.sched.nfreeProc)
  p.ctx.pc = 0 ∧ ∀ o, o < req.progSize → ∃ attrs,
    walk k'.mem p.ctx.mmap.root.l0Pa o = some (req.pc + o, attrs)

variable {Fd : Type} [DecidableEq Fd] {pick : List ℕ → ℕ} {kernelEnd : ℕ}

/-- The low part of the new process's translation, for any `pc` in the code window. -/
theorem scheduleReq_translates (pf : Platform PageMem) (hpick : IdealPages pick)
    (hk : kernelEnd ≤ code0 + jrtCodeSize) {k k' : Kernel PageMem} (hinv : Inv 0 k.sched)
    {pc progSize memReq : ℕ} (hpc : pc < code0 + jrtCodeSize) (hsize : progSize ≤ jrtCodeSize)
    (hs : scheduleReq (mmuPlatform pf pick kernelEnd) k pc progSize memReq = .ok k') :
    let p := k'.sched.proc (k.sched.freeProc k'.sched.nfreeProc)
    p.ctx.pc = 0 ∧ ∀ o, o < progSize →
      walk k'.mem p.ctx.mmap.root.l0Pa o = some (roundDown pc + o, pteProcRwx) := by
  obtain ⟨_, _, _, _, mem, m, root, q, _, _, hroot, hcreates⟩ :=
    (scheduleReq_spec (mmuPlatform pf pick kernelEnd) hinv pc progSize memReq).of_ok hs
  obtain ⟨s, hp⟩ := hcreates.created
  have hspec := procRoot_spec hpick m _ _ hk hpc hsize
  have hroot : procRoot pick kernelEnd m pc progSize = .ok (root, k'.mem) := hroot
  rw [hroot] at hspec
  obtain ⟨_, _, hl0, hw⟩ := hspec
  dsimp only at hl0 hw ⊢
  rw [hp]
  refine ⟨rfl, ?_⟩
  intro o ho
  have hcode : jrtCodeSize = 0x1000000 := rfl
  change walk k'.mem root.l0Pa o = _
  rw [hl0, hw o (by omega), if_pos (by unfold roundUp; omega)]

/-- The requested entry is the one that runs exactly when it is at a page boundary of
the mapping: for every request the module accepts after any file operations, and in
every state of the real-time kernel. -/
theorem schedule_entryRuns_iff (pf : Platform PageMem) (hpick : IdealPages pick)
    (hk : kernelEnd ≤ code0 + jrtCodeSize) (ops : List (FileOp Fd)) (fd : Fd)
    (args : SchedProgArgs) {req : SchedReq} {c : RtcoreCtx} (hc : (rtcoreRun ops).ctx fd = some c)
    (hreq : rtcoreSchedProg (rtcoreRun ops) fd (some args) = .ok req) (mem : PageMem)
    (es : List Event) {k k' : Kernel PageMem}
    (hrun : run (mmuPlatform pf pick kernelEnd) mem es = .ok k)
    (hs : scheduleReq (mmuPlatform pf pick kernelEnd) k req.pc req.progSize req.memReq = .ok k') :
    EntryRuns k k' req ↔ (args.entryUser - c.userBase) % pageSize = 0 := by
  have hcode : code0 = 0x50000000 ∧ jrtCodeSize = 0x1000000 := ⟨rfl, rfl⟩
  have hmod := rtcoreRun_inv ops
  obtain ⟨c', hc', hok, -, hbase, hpc, hpos, hend, _⟩ := rtcoreSchedProg_ok hmod hreq
  obtain rfl : c = c' := Option.some.inj (hc.symm.trans hc')
  have hle := hmod.le
  have hge := hok.ge
  have hal := hok.aligned
  have hwin := hok.le
  have hinv := ((run_inv (mmuPlatform pf pick kernelEnd) mem es).of_ok hrun).places
  obtain ⟨hstart, hw⟩ := scheduleReq_translates pf hpick hk hinv (by omega) (by omega) hs
  have hsize : pageSize = 4096 := rfl
  rw [hsize]
  constructor
  · intro hruns
    obtain ⟨attrs, ha⟩ := hruns.2 0 hpos
    rw [hw 0 hpos] at ha
    simp only [Option.some.injEq, Prod.mk.injEq, Nat.add_zero] at ha
    have hdown := ha.1
    unfold roundDown at hdown
    omega
  · intro haligned
    have hdown : roundDown req.pc = req.pc := by
      unfold roundDown
      omega
    refine ⟨hstart, ?_⟩
    intro o ho
    rw [hw o ho, hdown]
    exact ⟨_, rfl⟩

/-! ## A request inside a page -/

/-- A one-page mapping, opened and mapped. -/
def mapOnePage : List (FileOp Unit) :=
  [.openFile () true,
    .mmap () ⟨0x400000, 0x401000, by decide, by decide, by decide, by decide⟩ true]

/-- A platform whose allocator always has a block to give. -/
def roomyPlatform : Platform PageMem := { inertPlatform with alloc := fun m _ => .ok (0x51100000, m) }

/-- A request on a kernel that has just been initialised over empty tables. -/
theorem boot_scheduleReq (pc progSize : ℕ) (hpc : pc < code0 + jrtCodeSize)
    (hsize : progSize ≤ jrtCodeSize) (memReq : ℕ) :
    ∃ k k', run (mmuPlatform roomyPlatform nextPage 0x50020000) ⟨fun _ _ => 0, []⟩ [] = .ok k ∧
      scheduleReq (mmuPlatform roomyPlatform nextPage 0x50020000) k pc progSize memReq = .ok k' := by
  obtain ⟨r, hr, hpages⟩ := (kernRoot_spec nextPage_ideal ⟨fun _ _ => 0, []⟩).returns (k := 0)
    (by decide) (by decide)
  obtain ⟨q, hq, _⟩ := (procRoot_spec nextPage_ideal r.2 pc progSize
    (show 0x50020000 ≤ code0 + jrtCodeSize by decide) hpc hsize).returns (by decide) hpages
  have hroot : (mmuPlatform roomyPlatform nextPage 0x50020000).kernRoot ⟨fun _ _ => 0, []⟩ =
      .ok (r.1, r.2) := hr
  obtain ⟨k, hk⟩ : ∃ k, schedInit (mmuPlatform roomyPlatform nextPage 0x50020000)
      ⟨fun _ _ => 0, []⟩ = .ok k := by
    rw [schedInit, kernMapCreate, hroot]
    exact ⟨_, rfl⟩
  have hinv := (schedInit_inv (mmuPlatform roomyPlatform nextPage 0x50020000) _).of_ok hk
  have hcalm : Calm .p0 k ∧ 0 < k.sched.nfreeProc ∧ k.mem = r.2 := by
    rw [schedInit, kernMapCreate, hroot] at hk
    obtain rfl := Except.ok.inj hk
    exact ⟨⟨hinv.places, rfl, rfl, show 0 < readyMax by decide⟩, show 0 < maxProc by decide, rfl⟩
  have halloc : (mmuPlatform roomyPlatform nextPage 0x50020000).alloc k.mem memReq =
      .ok (0x51100000, r.2) := by
    rw [hcalm.2.2]
    rfl
  obtain ⟨k', _, hk', _⟩ := scheduleReq_calm (mmuPlatform roomyPlatform nextPage 0x50020000)
    hcalm.1 hcalm.2.1 pc progSize memReq halloc (by decide) hq
  exact ⟨k, k', by rw [run, hk]; rfl, hk'⟩

/-- With the entry at the start of the mapping the program runs from it. -/
theorem schedule_entryRuns_at_start :
    rtcoreSchedProg (rtcoreRun mapOnePage) () (some ⟨0x400000, 4096⟩) =
        .ok ⟨0x50000000, 0x1000, 4096⟩ ∧
      ∃ k k', EntryRuns k k' ⟨0x50000000, 0x1000, 4096⟩ := by
  have hctx : (rtcoreRun mapOnePage).ctx () = some ⟨0x400000, 0x1000, 0x50000000, 0, true⟩ := by
    decide
  have hreq : rtcoreSchedProg (rtcoreRun mapOnePage) () (some ⟨0x400000, 4096⟩) =
      .ok ⟨0x50000000, 0x1000, 4096⟩ := by decide
  obtain ⟨k, k', hk, hk'⟩ := boot_scheduleReq 0x50000000 0x1000 (by decide)
    (by decide) 4096
  refine ⟨hreq, k, k', ?_⟩
  rw [schedule_entryRuns_iff roomyPlatform nextPage_ideal (by decide) mapOnePage () _ hctx hreq _ []
    hk hk']
  decide

/-- With the entry four bytes into the mapping, which the module accepts, virtual zero
is the start of the page and not the entry. -/
theorem entry_inside_page_missed :
    rtcoreSchedProg (rtcoreRun mapOnePage) () (some ⟨0x400004, 4096⟩) =
        .ok ⟨0x50000004, 0xFFC, 4096⟩ ∧
      ∃ k k', run (mmuPlatform roomyPlatform nextPage 0x50020000) ⟨fun _ _ => 0, []⟩ [] = .ok k ∧
        scheduleReq (mmuPlatform roomyPlatform nextPage 0x50020000) k 0x50000004 0xFFC 4096 =
          .ok k' ∧ ¬ EntryRuns k k' ⟨0x50000004, 0xFFC, 4096⟩ := by
  refine ⟨by decide, ?_⟩
  obtain ⟨k, k', hk, hk'⟩ := boot_scheduleReq 0x50000004 0xFFC (by decide)
    (by decide) 4096
  refine ⟨k, k', hk, hk', ?_⟩
  have hinv := ((run_inv (mmuPlatform roomyPlatform nextPage 0x50020000) _ []).of_ok hk).places
  obtain ⟨_, hw⟩ := scheduleReq_translates roomyPlatform nextPage_ideal (by decide) hinv
    (by decide) (by decide) hk'
  intro hruns
  obtain ⟨attrs, ha⟩ := hruns.2 0 (by decide)
  rw [hw 0 (by decide)] at ha
  revert ha
  simp [roundDown]

end JanusRT
