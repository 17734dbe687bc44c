import JanusRT.Timer

/-!
# Scheduler operations

The functions of `sched.c` and `sched.h`, the map handles of `mmu.c` they use, and
the global kernel state. Console output is left out. The page tables and the
allocator enter through a `Platform`: the scheduler only calls them, so everything
proved about the scheduler holds for any memory subsystem behind these calls.
-/
namespace JanusRT
open Heap

/-- The calls that leave the scheduler. `procRoot` and `kernRoot` are `pt_root_new`
followed by `build_process_map` or `build_kernel_map`, `rootFree` is `pt_root_free`.
`cntpct n` is the value of the `n`-th counter reading and `jrtExit` the address of
`jrt_exit`. -/
structure Platform (M : Type) where
  alloc : M → ℕ → Except Halt (ℕ × M)
  free : M → ℕ → Except Halt M
  procRoot : M → ℕ → ℕ → Except Halt (PtRoot × M)
  kernRoot : M → Except Halt (PtRoot × M)
  rootFree : M → PtRoot → Except Halt M
  cntpct : ℕ → ℕ
  jrtExit : ℕ

/-- `G_SCHED`, the memory behind `G_ALLOC`, the static `asid` of `sched_new_proc`,
the timer, and the number of counter readings so far. -/
structure Kernel (M : Type) where
  sched : Sched
  mem : M
  asid : ℕ
  timer : Timer
  reads : ℕ

variable {M : Type} (pf : Platform M)

def procMapCreate (mem : M) (procBasePa imageLen asid : ℕ) : Except Stop (MmuMap × M) := do
  let r ← call (pf.procRoot mem procBasePa imageLen)
  pure (⟨r.1, asid⟩, r.2)

def kernMapCreate (mem : M) (asid : ℕ) : Except Stop (MmuMap × M) := do
  let r ← call (pf.kernRoot mem)
  pure (⟨r.1, asid⟩, r.2)

def mmuMapDestroy (mem : M) (km : MmuMap) : Except Stop (MmuMap × M) := do
  let mem ← call (pf.rootFree mem km.root)
  pure (noMap, mem)

/-! ## Process table -/

/-- `PSR_M_EL1h`. -/
def psrMEl1h : ℕ := 0x5

/-- `FIQ_MASK`, the F bit of a saved PSTATE. -/
def fiqMask : ℕ := 1 <<< 6

def pstateEl1h (exMask : ℕ) : ℕ := psrMEl1h ||| exMask

def pidToIdx (p : ℤ) : ℤ := p - 1

def idxToPid (i : ℕ) : ℕ := i + 1

/-- Dereference of a pointer that may be NULL. -/
def deref : Option ProcRef → Except Stop ProcRef
  | none => .error .nullDeref
  | some r => .ok r

def schedGetProc (pid : ℕ) : Except Stop ProcRef :=
  let idx := pidToIdx pid
  if idx < 0 ∨ (maxProc : ℤ) ≤ idx then kernelPanic .einval else .ok (.pb idx.toNat)

def schedAllocProc (sc : Sched) : Option ProcRef × Sched :=
  if sc.nfreeProc ≤ 0 then (none, sc)
  else
    let n := sc.nfreeProc - 1
    (some (sc.freeProc n), { sc with nfreeProc := n })

def schedFreeProc (k : Kernel M) (pid : ℕ) : Except Stop (Kernel M) := do
  let p ← schedGetProc pid
  if maxProc ≤ k.sched.nfreeProc then kernelPanic .enomem
  else
    let sc := k.sched.modify p fun q => { q with state := .unused }
    let sc := { sc with
      freeProc := Function.update sc.freeProc sc.nfreeProc p
      nfreeProc := sc.nfreeProc + 1 }
    let mem ← call (pf.free k.mem (sc.proc p).mem)
    let d ← mmuMapDestroy pf mem (sc.proc p).ctx.mmap
    let sc := sc.modify p fun q => { q with ctx := { q.ctx with mmap := d.1 } }
    pure { k with sched := sc, mem := d.2 }

/-- The register image of a new process: cleared registers, the top of its memory
aligned down to 16 bytes as stack, and the arguments of `start(mem, mem_size)`. -/
def newCtx (mem memSize exit : ℕ) (mmap : MmuMap) : Ctx where
  x := Function.update (Function.update (Function.update (fun _ => 0) 0 mem) 1 memSize) 30 exit
  sp := (mem + memSize) % u64 / 16 * 16
  pc := 0
  pstate := pstateEl1h fiqMask
  mmap := mmap

/-- The fields `sched_new_proc` writes. `pid`, `wait_until` and the context's floating
point part keep what the slot held. -/
def newProc (q : Proc) (pc codeSize mem memSize deadline exit : ℕ) (mmap : MmuMap) : Proc :=
  { q with
    ctx := newCtx mem memSize exit mmap
    paPc := pc
    first := 1
    mem := mem
    memSize := memSize
    progSize := codeSize
    effDeadline := deadline
    absDeadline := deadline
    state := .ready }

def schedNewProc (k : Kernel M) (pc codeSize mem memSize deadline exit : ℕ) :
    Except Stop (ℕ × Kernel M) := do
  let a := schedAllocProc k.sched
  match a.1 with
  | none => kernelPanic .enomem
  | some p =>
    let m ← procMapCreate pf k.mem pc codeSize k.asid
    let sc := a.2.modify p fun q => newProc q pc codeSize mem memSize deadline exit m.1
    pure ((sc.proc p).pid, { k with sched := sc, mem := m.2, asid := (k.asid + 1) % u16 })

/-! ## Queues -/

/-- `heap_push` with the caller's panic on a full heap. -/
def heapPushOrPanic (h : MinHeap ProcRef) (key : ℕ) (p : ProcRef) :
    Except Stop (MinHeap ProcRef) :=
  let r := heapPush h key p
  if r.1 ≠ 0 then kernelPanic .enomem else .ok r.2

def schedReadyProc (sc : Sched) (pid : ℕ) : Except Stop Sched := do
  let p ← schedGetProc pid
  let h ← heapPushOrPanic sc.ready (sc.proc p).effDeadline p
  pure { sc with ready := h }

def schedWaitProc (sc : Sched) (pid : ℕ) : Except Stop Sched := do
  let p ← schedGetProc pid
  let h ← heapPushOrPanic sc.waiting (sc.proc p).waitUntil p
  pure { sc with waiting := h }

def schedHasWaiting (sc : Sched) : Bool := decide (0 < sc.waiting.len)

/-! ## Switching -/

/-- Only the scheduler's own fields; the registers follow in the exception return. -/
def schedSwitchIrq (sc : Sched) (_c n : ProcRef) : Sched :=
  { sc with pid := (sc.proc n).pid, curr := some n }

/-- The conditional `test == 0 ? &sc->p0 : sched_get_proc(sc, pid)`. -/
def p0OrProc (test pid : ℕ) : Except Stop ProcRef :=
  if test = 0 then .ok .p0 else schedGetProc pid

/-- Mark a process running or ready. -/
def setState (sc : Sched) (r : ProcRef) (s : State) : Sched :=
  sc.modify r fun q => { q with state := s }

def schedYield (sc : Sched) : Except Stop (ProcRef × Sched) := do
  let popped := heapPop sc.ready
  let p := (popped.1.map Prod.snd).getD .p0
  let sc := { sc with ready := popped.2 }
  let sc := setState sc p .running
  let c ← p0OrProc sc.pid sc.pid
  pure (c, schedSwitchIrq sc c p)

/-- The context switch of `sched`: `cur` is `sc->curr` and `c` the process it stands for. -/
def schedPreempt (swp : Sched → ProcRef → ProcRef → Sched) (sc : Sched) (cur c : ProcRef) :
    Except Stop Sched := do
  let popped := heapPop sc.ready
  let sc := { sc with ready := popped.2 }
  let p ← deref (popped.1.map Prod.snd)
  let sc := setState sc p .running
  let sc := setState sc c .ready
  let sc ← (if (sc.proc cur).pid ≠ 0 then schedReadyProc sc (sc.proc c).pid else .ok sc)
  pure (swp sc c p)

/-- With an empty ready heap the early return is taken only if `curr` is NULL as
well. Otherwise `deadline` was never written by `heap_peek`, and comparing it is
the `unsetRead` below. -/
def sched (swp : Sched → ProcRef → ProcRef → Sched) (sc : Sched) : Except Stop Sched :=
  let top := heapPeek sc.ready
  if top = none ∧ sc.curr = none then pure sc
  else do
    let cur ← deref sc.curr
    let c ← p0OrProc (sc.proc cur).pid sc.pid
    if (sc.proc cur).pid = 0 then schedPreempt swp sc cur c
    else
      match top with
      | none => .error .unsetRead
      | some (deadline, _) =>
        if deadline < (sc.proc c).effDeadline then schedPreempt swp sc cur c else pure sc

/-- `sched_init` on zeroed memory, with the static `asid` at its initial value and
the timer as the hardware resets it. -/
def schedInit (mem : M) : Except Stop (Kernel M) := do
  let m ← kernMapCreate pf mem 0
  pure {
    sched := {
      p0 := { zeroProc with pid := 0, first := 0, ctx := { zeroProc.ctx with mmap := m.1 } }
      curr := some .p0
      pid := 0
      pb := fun i => { zeroProc with pid := idxToPid i, state := .unused }
      freeProc := fun i => .pb i
      nfreeProc := maxProc
      ready := heapInit (fun _ => ⟨0, .p0, 0⟩) readyMax
      waiting := heapInit (fun _ => ⟨0, .p0, 0⟩) readyMax }
    mem := m.2
    asid := 1
    timer := ⟨false, 0, 0⟩
    reads := 0 }

end JanusRT
