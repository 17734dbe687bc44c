import JanusRT.Runs

/-!
# Exception entry and return

`irq_el1` and `sync_el1` instruction by instruction, over the register file, the
`ctx_t` of every process and the words on the stacks. The handlers reach `G_SCHED`
through addresses, with the offsets that the build takes from the C structures; the
floating-point parts are not assembled, since `SAVE_FP` is zero. A stack lies apart
from `G_SCHED`, so accesses through `sp` have a memory of their own. A called C
function obeys the procedure call standard: it keeps `x19` to `x29`, `sp` and what is
on the stack, and leaves anything in the other registers and below `sp`. Interrupts
are masked in the handlers, so one exception is over before the next is taken.
-/
namespace JanusRT.Exceptions

/-! ## Addresses in `G_SCHED` -/

/-- `CTX_X`. -/
def ctxX : ℕ := 0

/-- `CTX_SP`. -/
def ctxSp : ℕ := 248

/-- `CTX_PC`. -/
def ctxPc : ℕ := 256

/-- `CTX_PSTATE`. -/
def ctxPstate : ℕ := 264

/-- `CTX_MMAP`. -/
def ctxMmap : ℕ := 792

/-- `PROC_CTX`. -/
def procCtx : ℕ := 0

/-- `PROC_SIZE`. -/
def procSize : ℕ := 912

/-- `SCHED_P0`. -/
def schedP0 : ℕ := 0

/-- `SCHED_CURR`. -/
def schedCurr : ℕ := 912

/-- The offset of `pb`, after `curr` and `pid`, aligned for `u128`. -/
def schedPb : ℕ := 928

/-- `KERNEL_SP`. -/
def kernelSp : ℕ := schedP0 + procCtx + ctxSp

/-- `KERNEL_MMAP`. -/
def kernelMmap : ℕ := schedP0 + procCtx + ctxMmap

/-- `PT_ROOT_L0_PA`, counted from the start of the map. -/
def mmapL0Pa : ℕ := 8

/-- `MMAP_ASID`. -/
def mmapAsid : ℕ := 16

/-- The fields of `ctx_t` that are accessed here. -/
inductive CtxField
  | x (i : ℕ) | sp | pc | pstate | l0Pa | asid
  deriving DecidableEq, Repr

def ctxGet (c : Ctx) : CtxField → ℕ
  | .x i => c.x i
  | .sp => c.sp
  | .pc => c.pc
  | .pstate => c.pstate
  | .l0Pa => c.mmap.root.l0Pa
  | .asid => c.mmap.asid

def ctxSet (c : Ctx) (v : ℕ) : CtxField → Ctx
  | .x i => { c with x := Function.update c.x i v }
  | .sp => { c with sp := v }
  | .pc => { c with pc := v }
  | .pstate => { c with pstate := v }
  | .l0Pa => { c with mmap := { c.mmap with root := { c.mmap.root with l0Pa := v } } }
  | .asid => { c with mmap := { c.mmap with asid := v } }

/-- The field at an offset of `ctx_t`. -/
def ctxFieldAt (off : ℕ) : Option CtxField :=
  if off % 8 = 0 ∧ off < ctxSp then some (.x ((off - ctxX) / 8))
  else if off = ctxSp then some .sp
  else if off = ctxPc then some .pc
  else if off = ctxPstate then some .pstate
  else if off = ctxMmap + mmapL0Pa then some .l0Pa
  else if off = ctxMmap + mmapAsid then some .asid
  else none

/-- Where a process record lies in `G_SCHED`. -/
def procOffset : ProcRef → ℕ
  | .p0 => schedP0
  | .pb i => schedPb + i * procSize

/-- The process record at an offset of `G_SCHED`, and the offset in it. -/
def procAt (off : ℕ) : Option (ProcRef × ℕ) :=
  if off < schedP0 + procSize then some (.p0, off)
  else if schedPb ≤ off ∧ off < schedPb + maxProc * procSize then
    some (.pb ((off - schedPb) / procSize), (off - schedPb) % procSize)
  else none

/-- The register of a context that an address in `G_SCHED` names. -/
def ctxAt (off : ℕ) : Option (ProcRef × CtxField) := do
  let (r, o) ← procAt off
  let f ← ctxFieldAt (o - procCtx)
  return (r, f)

section
variable (gSched : ℕ)

/-- A load through a pointer into `G_SCHED`. -/
def load (sc : Sched) (a : ℕ) : Except Stop ℕ :=
  if a = gSched + schedCurr then
    .ok (match sc.curr with
      | none => 0
      | some r => gSched + procOffset r)
  else
    match (if gSched ≤ a then ctxAt (a - gSched) else none) with
    | none => .error .nullDeref
    | some (r, f) => .ok (ctxGet (sc.proc r).ctx f)

/-- A store through a pointer into a process record. -/
def store (sc : Sched) (a v : ℕ) : Except Stop Sched :=
  match (if gSched ≤ a then ctxAt (a - gSched) else none) with
  | none => .error .nullDeref
  | some (r, f) => .ok (sc.modify r fun q => { q with ctx := ctxSet q.ctx v f })

end

/-! ## The machine -/

structure Machine (M : Type) where
  x : ℕ → ℕ
  sp : ℕ
  pc : ℕ
  pstate : ℕ
  elr : ℕ
  spsr : ℕ
  ttbr0 : ℕ
  eoir : ℕ
  stack : ℕ → ℕ
  kernel : Kernel M

/-- What a C function leaves in the registers it may use and on the stack below `sp`. -/
structure Noise where
  regs : ℕ → ℕ
  below : ℕ → ℕ

/-- What the hardware and the mailbox present during an exception, and the traces of the
three calls it makes. -/
structure Pending where
  iar : ℕ
  esr : ℕ
  far : ℕ
  ring : List (ℕ × ℕ × ℕ)
  noise : ℕ → Noise

/-- The system registers of the handlers. -/
inductive SysReg
  | elr | spsr | iar | eoir | esr | far
  deriving DecidableEq, Repr

inductive CFun
  | mmuMapSwitch | irqDispatch | syncExceptionEntry
  deriving DecidableEq, Repr

/-- The instructions of the handlers. Loads and stores with base `sp` are apart from those
with another base. `adrp` and the `add` of the low bits are one instruction. -/
inductive Instr
  | subSp (n : ℕ)
  | addSp (n : ℕ)
  | stpSp (s t n : ℕ)
  | ldpSp (d e n : ℕ)
  | strSpPre (s n : ℕ)
  | ldrSpPost (d n : ℕ)
  | adrSched (d : ℕ)
  | ldr (d b n : ℕ)
  | ldp (d e b n : ℕ)
  | str (s b n : ℕ)
  | stp (s t b n : ℕ)
  | addImm (d b n : ℕ)
  | andImm (d b n : ℕ)
  | mov (d s : ℕ)
  | movFromSp (d : ℕ)
  | movToSp (s : ℕ)
  | mrs (d : ℕ) (r : SysReg)
  | msr (r : SysReg) (s : ℕ)
  | bl (site : ℕ) (f : CFun)
  | isb
  | eret
  deriving DecidableEq, Repr

/-- `write_ttbr0_asid`. -/
def writeTtbr0Asid (ttbr0Pa asid : ℕ) : ℕ := ttbr0Pa / 0x1000 * 0x1000 ||| (asid % u16) <<< 48

/-- The handlers that `irq_dispatch` calls: `timer_fn` for the timer, `ipc_sched` with its
budget for the mailbox. The table of shared interrupts ends below 1020. -/
def irqEvents (intid : ℕ) (ring : List (ℕ × ℕ × ℕ)) : Except Stop (List Event) :=
  if 1020 < intid then .ok []
  else if intid = 1020 then .error .unsetRead
  else if intid = 30 then .ok [.timerFn]
  else if intid = 72 then .ok ((ring.take 3).map fun r => .scheduleReq r.1 r.2.1 r.2.2)
  else .ok []

/-- `take_syscall`, with the registers of the current process. -/
def syscallEvents (c : Ctx) : List Event :=
  if c.x 8 = 0 then [.waitUntil (c.x 0)]
  else if c.x 8 = 1 then [.exit]
  else if c.x 8 = 2 then [.spawn (c.x 0) (c.x 1) (c.x 2) (c.x 3)]
  else []

/-- `sync_exception_entry`: a system call, a `brk` of a process, which is ignored, or an
exception that halts. -/
def syncEvents (esr : ℕ) (sc : Sched) : Except Stop (List Event) :=
  if esr / 2 ^ 26 % 2 ^ 6 = 0x15 then do
    let cur ← deref sc.curr
    return syscallEvents (sc.proc cur).ctx
  else if esr / 2 ^ 26 % 2 ^ 6 = 0x3C ∧ esr % 2 ^ 16 = 1 then .ok []
  else .error (.halt .hang)

variable {M : Type} (pf : Platform M) (gSched : ℕ)

/-- The registers and the stack after a call. -/
def afterCall (n : Noise) (m : Machine M) : Machine M :=
  { m with
    x := fun i => if 19 ≤ i ∧ i ≤ 29 then m.x i else n.regs i
    stack := fun a => if m.sp ≤ a then m.stack a else n.below a }

/-- The C functions. -/
def callC (h : Pending) (m : Machine M) : CFun → Except Stop (Machine M)
  | .mmuMapSwitch => do
    let l0Pa ← load gSched m.kernel.sched (m.x 0 + mmapL0Pa)
    let asid ← load gSched m.kernel.sched (m.x 0 + mmapAsid)
    return { m with ttbr0 := writeTtbr0Asid l0Pa asid }
  | .irqDispatch => do
    let es ← irqEvents (m.x 1) h.ring
    let k ← es.foldlM (step pf) m.kernel
    return { m with kernel := k }
  | .syncExceptionEntry => do
    let es ← syncEvents (m.x 0) m.kernel.sched
    let k ← es.foldlM (step pf) m.kernel
    return { m with kernel := k }

/-- `m.x d = v`. -/
def setX (m : Machine M) (d v : ℕ) : Machine M := { m with x := Function.update m.x d v }

def setSched (m : Machine M) (sc : Sched) : Machine M :=
  { m with kernel := { m.kernel with sched := sc } }

/-- Arithmetic on the stack pointer. -/
def plus (a n : ℕ) : ℕ := (a + n) % u64

def minus (a n : ℕ) : ℕ := (a + (u64 - n)) % u64

def exec (h : Pending) (m : Machine M) : Instr → Except Stop (Machine M)
  | .subSp n => return { m with sp := minus m.sp n }
  | .addSp n => return { m with sp := plus m.sp n }
  | .stpSp s t n => return { m with
      stack := Function.update (Function.update m.stack (plus m.sp n) (m.x s)) (plus m.sp (n + 8))
        (m.x t) }
  | .ldpSp d e n => return setX (setX m d (m.stack (plus m.sp n))) e (m.stack (plus m.sp (n + 8)))
  | .strSpPre s n => return { m with
      sp := minus m.sp n
      stack := Function.update m.stack (minus m.sp n) (m.x s) }
  | .ldrSpPost d n => return { setX m d (m.stack m.sp) with sp := plus m.sp n }
  | .adrSched d => return setX m d gSched
  | .ldr d b n => do
    let v ← load gSched m.kernel.sched (m.x b + n)
    return setX m d v
  | .ldp d e b n => do
    let v ← load gSched m.kernel.sched (m.x b + n)
    let w ← load gSched m.kernel.sched (m.x b + n + 8)
    return setX (setX m d v) e w
  | .str s b n => do
    let sc ← store gSched m.kernel.sched (m.x b + n) (m.x s)
    return setSched m sc
  | .stp s t b n => do
    let sc ← store gSched m.kernel.sched (m.x b + n) (m.x s)
    let sc ← store gSched sc (m.x b + n + 8) (m.x t)
    return setSched m sc
  | .addImm d b n => return setX m d (m.x b + n)
  | .andImm d b n => return setX m d (m.x b &&& n)
  | .mov d s => return setX m d (m.x s)
  | .movFromSp d => return setX m d m.sp
  | .movToSp s => return { m with sp := m.x s }
  | .mrs d .elr => return setX m d m.elr
  | .mrs d .spsr => return setX m d m.spsr
  | .mrs d .iar => return setX m d h.iar
  | .mrs d .eoir => return setX m d m.eoir
  | .mrs d .esr => return setX m d h.esr
  | .mrs d .far => return setX m d h.far
  | .msr .elr s => return { m with elr := m.x s }
  | .msr .spsr s => return { m with spsr := m.x s }
  | .msr .eoir s => return { m with eoir := m.x s }
  | .msr _ _ => return m
  | .bl site f => do
    let m ← callC pf gSched h m f
    return afterCall (h.noise site) m
  | .isb => return m
  | .eret => return { m with pc := m.elr, pstate := m.spsr }

/-! ## The handlers -/

/-- The first instructions of both handlers: two pairs of registers go by way of the stack. -/
def saveFirst : List Instr := [
  .subSp 32,
  .stpSp 20 21 0,
  .stpSp 0 1 16,
  .adrSched 21,
  .ldr 20 21 schedCurr,
  .addImm 20 20 procCtx,
  .ldpSp 0 1 0,
  .stp 0 1 20 (ctxX + 160),
  .addSp 16,
  .ldpSp 0 1 0,
  .stp 0 1 20 ctxX,
  .addSp 16]

/-- The other general registers. -/
def saveRest : List Instr := [
  .stp 2 3 20 (ctxX + 16),
  .stp 4 5 20 (ctxX + 32),
  .stp 6 7 20 (ctxX + 48),
  .stp 8 9 20 (ctxX + 64),
  .stp 10 11 20 (ctxX + 80),
  .stp 12 13 20 (ctxX + 96),
  .stp 14 15 20 (ctxX + 112),
  .stp 16 17 20 (ctxX + 128),
  .stp 18 19 20 (ctxX + 144),
  .stp 22 23 20 (ctxX + 176),
  .stp 24 25 20 (ctxX + 192),
  .stp 26 27 20 (ctxX + 208),
  .stp 28 29 20 (ctxX + 224)]

/-- `x30`, the return state and the stack pointer; then the kernel's stack and map. -/
def saveLast : List Instr := [
  .str 30 20 (ctxX + 240),
  .mrs 0 .elr,
  .mrs 1 .spsr,
  .str 0 20 ctxPc,
  .str 1 20 ctxPstate,
  .movFromSp 0,
  .str 0 20 ctxSp,
  .ldr 2 21 kernelSp,
  .movToSp 2,
  .addImm 0 21 kernelMmap,
  .bl 0 .mmuMapSwitch]

/-- The C handler of `irq_el1`; the `IAR` stays on the kernel stack. -/
def irqCall : List Instr := [
  .mrs 0 .iar,
  .strSpPre 0 16,
  .andImm 1 0 0x00FFFFFF,
  .mov 0 20,
  .bl 1 .irqDispatch]

/-- The C handler of `sync_el1`. -/
def syncCall : List Instr := [
  .mrs 0 .esr,
  .ldr 1 20 ctxPc,
  .mrs 2 .far,
  .bl 1 .syncExceptionEntry]

/-- The context that is current now, its map and its return state. -/
def refetch : List Instr := [
  .ldr 20 21 schedCurr,
  .addImm 20 20 procCtx,
  .addImm 0 20 ctxMmap,
  .bl 2 .mmuMapSwitch,
  .ldr 8 20 ctxPc,
  .ldr 9 20 ctxPstate,
  .msr .elr 8,
  .msr .spsr 9]

/-- The end of interrupt, in `irq_el1` only. -/
def endOfIrq : List Instr := [
  .ldrSpPost 0 16,
  .msr .eoir 0,
  .isb]

/-- The stack pointer, and the context's address in a register that is restored last. -/
def restoreSp : List Instr := [
  .ldr 12 20 ctxSp,
  .movToSp 12,
  .mov 0 20]

def restoreRest : List Instr := [
  .ldp 2 3 0 (ctxX + 16),
  .ldp 4 5 0 (ctxX + 32),
  .ldp 6 7 0 (ctxX + 48),
  .ldp 8 9 0 (ctxX + 64),
  .ldp 10 11 0 (ctxX + 80),
  .ldp 12 13 0 (ctxX + 96),
  .ldp 14 15 0 (ctxX + 112),
  .ldp 16 17 0 (ctxX + 128),
  .ldp 18 19 0 (ctxX + 144),
  .ldp 20 21 0 (ctxX + 160),
  .ldp 22 23 0 (ctxX + 176),
  .ldp 24 25 0 (ctxX + 192),
  .ldp 26 27 0 (ctxX + 208),
  .ldp 28 29 0 (ctxX + 224)]

def restoreLast : List Instr := [
  .ldr 30 0 (ctxX + 240),
  .ldp 0 1 0 ctxX,
  .eret]

/-- `irq_el1`. -/
def irqEl1 : List Instr :=
  saveFirst ++ saveRest ++ saveLast ++ irqCall ++ refetch ++ endOfIrq ++ restoreSp ++
    restoreRest ++ restoreLast

/-- `sync_el1`. -/
def syncEl1 : List Instr :=
  saveFirst ++ saveRest ++ saveLast ++ syncCall ++ refetch ++ restoreSp ++ restoreRest ++
    restoreLast

/-! ## Runs -/

/-- An exception: its kind, the registers of the process it interrupts, which may have
computed anything since it was last resumed, and what the hardware presents. -/
structure Trap where
  irq : Bool
  x : ℕ → ℕ
  sp : ℕ
  sp_lt : sp < u64
  pc : ℕ
  pstate : ℕ
  stack : ℕ → ℕ
  pending : Pending

/-- Exception entry puts the return state into `ELR` and `SPSR`. -/
def Trap.enter (t : Trap) (m : Machine M) : Machine M :=
  { m with x := t.x, sp := t.sp, elr := t.pc, spsr := t.pstate, stack := t.stack }

/-- An exception from its entry to its return. -/
def takeTrap (t : Trap) (m : Machine M) : Except Stop (Machine M) :=
  (if t.irq then irqEl1 else syncEl1).foldlM (exec pf gSched t.pending) (t.enter m)

end JanusRT.Exceptions
