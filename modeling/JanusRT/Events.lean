import JanusRT.Sched

/-!
# Kernel events

The handlers of `rtprog.c` and `syscall.c` that change the scheduler, and runs of
them in any order. A run stops at the first handler that does not return.
-/
namespace JanusRT
open Heap

variable {M : Type} (pf : Platform M)

/-- One counter reading. -/
def timeNowTicks (k : Kernel M) : ℕ × Kernel M :=
  (pf.cntpct k.reads, { k with reads := k.reads + 1 })

def armTimer (k : Kernel M) (deadlineTicks : ℕ) : Kernel M :=
  let now := timeNowTicks pf k
  { now.2 with timer := (timerScheduleAtTicks now.1 deadlineTicks now.2.timer).2 }

def disarmTimer (k : Kernel M) : Kernel M := { k with timer := timerCancel k.timer }

def scheduleReq (k : Kernel M) (pc progSize memReq : ℕ) : Except Stop (Kernel M) := do
  let a ← call (pf.alloc k.mem memReq)
  let k := { k with mem := a.2 }
  if a.1 = 0 then kernelPanic .enomem
  else
    let n ← schedNewProc pf k pc progSize a.1 memReq 0 pf.jrtExit
    let sc ← schedReadyProc n.2.sched n.1
    let sc ← sched schedSwitchIrq sc
    pure { n.2 with sched := sc }

/-- The `do … while` of `timer_fn`. Each round takes one process out of the waiting
heap, so a bound of the heap's length is never exhausted. -/
def timerLoop : ℕ → Kernel M → Except Stop (Kernel M)
  | 0, _ => .error .loopBound
  | n + 1, k =>
    let popped := heapPop k.sched.waiting
    let k := { k with sched := { k.sched with waiting := popped.2 } }
    match popped.1 with
    | none => pure k
    | some (dl, p) =>
      let now := timeNowTicks pf k
      let k := now.2
      if now.1 < dl then do
        let sc ← schedWaitProc k.sched (k.sched.proc p).pid
        pure (armTimer pf { k with sched := sc } dl)
      else do
        let sc ← schedReadyProc k.sched (k.sched.proc p).pid
        let sc ← sched schedSwitchIrq sc
        let k := { k with sched := sc }
        if schedHasWaiting k.sched then timerLoop n k else pure (disarmTimer k)

def timerFn (k : Kernel M) : Except Stop (Kernel M) :=
  if schedHasWaiting k.sched then timerLoop pf k.sched.waiting.len k
  else pure (disarmTimer k)

def waitUntil (k : Kernel M) (until_ : ℕ) : Except Stop (Kernel M) := do
  let y ← schedYield k.sched
  let p := y.1
  let sc := y.2.modify p fun q => { q with waitUntil := until_, state := .waiting }
  let w := heapPeek sc.waiting
  let sc ← schedWaitProc sc (sc.proc p).pid
  let k := { k with sched := sc }
  match w with
  | none => pure (armTimer pf k until_)
  | some (dl, _) =>
    if until_ < dl then pure (armTimer pf (disarmTimer k) until_) else pure k

def exit (k : Kernel M) : Except Stop (Kernel M) := do
  let y ← schedYield k.sched
  schedFreeProc pf { k with sched := y.2 } (y.2.proc y.1).pid

/-- The caller is `G_SCHED.curr`. A NULL result of `alloc` is not tested here. -/
def spawn (k : Kernel M) (deadline ep ap memReq : ℕ) : Except Stop (Kernel M) := do
  let a ← call (pf.alloc k.mem memReq)
  let k := { k with mem := a.2 }
  let cur ← deref k.sched.curr
  let n ← schedNewProc pf k (k.sched.proc cur).paPc (k.sched.proc cur).progSize
    a.1 memReq deadline pf.jrtExit
  let p ← schedGetProc n.1
  let sc := n.2.sched.modify p fun q =>
    { q with ctx := { q.ctx with pc := ep, x := Function.update q.ctx.x 2 ap } }
  let sc ← schedReadyProc sc n.1
  let sc ← sched schedSwitchIrq sc
  pure { n.2 with sched := sc }

/-- The events of a run, with the arguments they arrive with. -/
inductive Event
  | scheduleReq (pc progSize memReq : ℕ)
  | timerFn
  | waitUntil (until_ : ℕ)
  | exit
  | spawn (deadline ep ap memReq : ℕ)
  deriving DecidableEq, Repr

def step (k : Kernel M) : Event → Except Stop (Kernel M)
  | .scheduleReq pc progSize memReq => scheduleReq pf k pc progSize memReq
  | .timerFn => timerFn pf k
  | .waitUntil u => waitUntil pf k u
  | .exit => exit pf k
  | .spawn deadline ep ap memReq => spawn pf k deadline ep ap memReq

/-- A run from `sched_init`. -/
def run (mem : M) (es : List Event) : Except Stop (Kernel M) := do
  let k ← schedInit pf mem
  es.foldlM (step pf) k

end JanusRT
