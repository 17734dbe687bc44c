import JanusRT.Heap

/-!
# Kernel data structures

The records of `mmu_structs.h`, `sched_structs.h` and `kerror.h`. A machine word is
a natural number; arithmetic on it reduces explicitly where the C type wraps. The
floating-point part of `ctx_t` is left out because the handlers are built with
`SAVE_FP` zero, and so are the two fairness fields of `proc_t` that nothing reads.
-/
namespace JanusRT

/-- Modulus of `u64` arithmetic. -/
def u64 : ℕ := 2 ^ 64

/-- Modulus of `u32` arithmetic. -/
def u32 : ℕ := 2 ^ 32

/-- Modulus of `u16` arithmetic. -/
def u16 : ℕ := 2 ^ 16

/-- `jrt_err_t`. -/
inductive JrtErr
  | enomem | einval | eassert | eunknown
  deriving DecidableEq, Repr

/-- A call that does not come back: `KERNEL_PANIC` ends in `halt()`, and a loop of
the called code may run forever. -/
inductive Halt
  | panic (e : JrtErr)
  | hang
  deriving DecidableEq, Repr

/-- Why a kernel function did not return. Apart from the halts these are the
accesses that C leaves undefined, and the loop bound of the model running out. -/
inductive Stop
  | halt (h : Halt)
  | nullDeref
  | unsetRead
  | loopBound
  deriving DecidableEq, Repr

/-- The stops the source asks for. -/
def Stop.IsHalt : Stop → Prop
  | .halt _ => True
  | _ => False

@[simp] theorem isHalt_halt (h : Halt) : (Stop.halt h).IsHalt := trivial

/-- `KERNEL_PANIC(err)`. -/
def kernelPanic {α : Type} (e : JrtErr) : Except Stop α := .error (.halt (.panic e))

/-- A call into the memory subsystem either returns or halts the kernel. -/
def call {α : Type} : Except Halt α → Except Stop α
  | .ok a => .ok a
  | .error h => .error (.halt h)

/-- `pt_root_t`. -/
structure PtRoot where
  l0 : ℕ
  l0Pa : ℕ
  deriving DecidableEq, Repr

/-- `mmu_map_t`. -/
structure MmuMap where
  root : PtRoot
  asid : ℕ
  deriving DecidableEq, Repr

/-- `ctx_t`. -/
structure Ctx where
  x : ℕ → ℕ
  sp : ℕ
  pc : ℕ
  pstate : ℕ
  mmap : MmuMap

/-- `state_t`. -/
inductive State
  | ready | running | waiting | unused
  deriving DecidableEq, Repr

/-- `proc_t`. A `mem` of zero is the NULL pointer. -/
structure Proc where
  ctx : Ctx
  pid : ℕ
  state : State
  first : ℕ
  paPc : ℕ
  waitUntil : ℕ
  absDeadline : ℕ
  effDeadline : ℕ
  progSize : ℕ
  mem : ℕ
  memSize : ℕ

/-- A zeroed map handle, as in fresh `.bss` and after `mmu_map_destroy`. -/
def noMap : MmuMap := ⟨⟨0, 0⟩, 0⟩

/-- The `.bss` contents of a process slot. -/
def zeroProc : Proc :=
  ⟨⟨fun _ => 0, 0, 0, 0, noMap⟩, 0, .ready, 0, 0, 0, 0, 0, 0, 0, 0⟩

/-- A `proc_t *` that is not NULL: `&sc->p0` or `&sc->pb[i]`. -/
inductive ProcRef
  | p0
  | pb (i : ℕ)
  deriving DecidableEq, Repr

/-- `READY_MAX`. -/
def readyMax : ℕ := 0xFF

/-- `MAX_PROC`. -/
def maxProc : ℕ := 0x1000

/-- `sched_t`. -/
structure Sched where
  p0 : Proc
  curr : Option ProcRef
  pid : ℕ
  pb : ℕ → Proc
  freeProc : ℕ → ProcRef
  nfreeProc : ℕ
  ready : Heap.MinHeap ProcRef
  waiting : Heap.MinHeap ProcRef

namespace Sched

/-- `*p`. -/
def proc (sc : Sched) : ProcRef → Proc
  | .p0 => sc.p0
  | .pb i => sc.pb i

/-- Assignment through a process pointer. -/
def modify (sc : Sched) (r : ProcRef) (f : Proc → Proc) : Sched :=
  match r with
  | .p0 => { sc with p0 := f sc.p0 }
  | .pb i => { sc with pb := Function.update sc.pb i (f (sc.pb i)) }

theorem proc_modify (sc : Sched) (r s : ProcRef) (f : Proc → Proc) :
    (sc.modify r f).proc s = if s = r then f (sc.proc r) else sc.proc s := by
  cases r with
  | p0 => cases s <;> simp [modify, proc]
  | pb i =>
    cases s with
    | p0 => simp [modify, proc]
    | pb j =>
      by_cases h : j = i
      · subst j; simp [modify, proc]
      · simp [modify, proc, h]

@[simp] theorem modify_curr (sc : Sched) (r : ProcRef) (f : Proc → Proc) :
    (sc.modify r f).curr = sc.curr := by cases r <;> rfl

@[simp] theorem modify_pid (sc : Sched) (r : ProcRef) (f : Proc → Proc) :
    (sc.modify r f).pid = sc.pid := by cases r <;> rfl

@[simp] theorem modify_freeProc (sc : Sched) (r : ProcRef) (f : Proc → Proc) :
    (sc.modify r f).freeProc = sc.freeProc := by cases r <;> rfl

@[simp] theorem modify_nfreeProc (sc : Sched) (r : ProcRef) (f : Proc → Proc) :
    (sc.modify r f).nfreeProc = sc.nfreeProc := by cases r <;> rfl

@[simp] theorem modify_ready (sc : Sched) (r : ProcRef) (f : Proc → Proc) :
    (sc.modify r f).ready = sc.ready := by cases r <;> rfl

@[simp] theorem modify_waiting (sc : Sched) (r : ProcRef) (f : Proc → Proc) :
    (sc.modify r f).waiting = sc.waiting := by cases r <;> rfl

end Sched

end JanusRT
