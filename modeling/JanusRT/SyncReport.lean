import JanusRT.Console
import JanusRT.Exceptions

/-!
# The report of a fault

`sync_exception_entry` prints the syndrome, the return address and the fault address before it halts
or recovers. It may interrupt a process in the middle of `uart_putc`; the report can be read off the
line all the same.
-/
namespace JanusRT.SyncReport

open Outcome Snprintf Numeral Uart Console

section
variable {δ : Type} {float : Fmt → δ → List UInt8}

/-! ## The code -/

/-- `uart_puts` of a constant. -/
def puts (s : String) : Call float := .puts (text s)

/-- `ESR_EC`. -/
def esrEc (esr : ℕ) : ℕ := (esr >>> 26) &&& 0x3F

/-- `ESR_IL`. -/
def esrIl (esr : ℕ) : ℕ := (esr >>> 25) &&& 0x1

/-- `ESR_ISS`. -/
def esrIss (esr : ℕ) : ℕ := esr &&& 0x01FFFFFF

def ecStr (ec : ℕ) : String :=
  match ec with
  | 0x00 => "Unknown/UNDEF"
  | 0x15 => "SVC (AArch64)"
  | 0x20 => "Instruction Abort, lower EL"
  | 0x21 => "Instruction Abort, same EL"
  | 0x22 => "PC alignment fault"
  | 0x24 => "Data Abort, lower EL"
  | 0x25 => "Data Abort, same EL"
  | 0x26 => "SP alignment fault"
  | 0x28 => "FP/ASIMD"
  | 0x2C => "SError (system error)"
  | 0x30 => "Breakpoint, lower EL"
  | 0x31 => "Breakpoint, same EL"
  | 0x32 => "Vector catch (AArch32)"
  | 0x33 => "Watchpoint, lower EL"
  | 0x34 => "Watchpoint, same EL"
  | 0x35 => "BKPT (AArch32)"
  | 0x38 => "Software Step, lower EL"
  | 0x39 => "Software Step, same EL"
  | 0x3C => "BRK (AArch64)"
  | _ => "EC(?)"

def dfscStr (fsc : ℕ) : String :=
  match fsc with
  | 0x00 => "Addr size fault L0"
  | 0x01 => "Addr size fault L1"
  | 0x02 => "Addr size fault L2"
  | 0x03 => "Addr size fault L3"
  | 0x04 => "Translation fault L0"
  | 0x05 => "Translation fault L1"
  | 0x06 => "Translation fault L2"
  | 0x07 => "Translation fault L3"
  | 0x08 => "Access flag fault L0"
  | 0x09 => "Access flag fault L1"
  | 0x0A => "Access flag fault L2"
  | 0x0B => "Access flag fault L3"
  | 0x0C => "Permission fault L0"
  | 0x0D => "Permission fault L1"
  | 0x0E => "Permission fault L2"
  | 0x0F => "Permission fault L3"
  | 0x10 => "Sync ext abort (nTWB)"
  | 0x11 => "Async ext abort"
  | 0x12 => "Sync ext abort (TWB)"
  | 0x14 => "Sync parity/ECC"
  | 0x15 => "Async parity/ECC"
  | 0x18 => "Sync parity (TWB)"
  | 0x1C => "TF check"
  | 0x21 => "Alignment fault"
  | 0x22 => "Debug event"
  | _ => "DFSC(?)"

def ifscStr (fsc : ℕ) : String :=
  match fsc with
  | 0x00 => "Addr size fault L0"
  | 0x01 => "Addr size fault L1"
  | 0x02 => "Addr size fault L2"
  | 0x03 => "Addr size fault L3"
  | 0x04 => "Translation fault L0"
  | 0x05 => "Translation fault L1"
  | 0x06 => "Translation fault L2"
  | 0x07 => "Translation fault L3"
  | 0x0C => "Permission fault L0"
  | 0x0D => "Permission fault L1"
  | 0x0E => "Permission fault L2"
  | 0x0F => "Permission fault L3"
  | 0x11 => "Async ext abort"
  | 0x14 => "Sync parity/ECC"
  | 0x1C => "TF check"
  | _ => "IFSC(?)"

def panicStr (r : ℕ) : String :=
  match r with
  | 0 => "Kernel panic"
  | 1 => "User panic"
  | _ => "Unknown panic"

def printEcLine (ec il : ℕ) : List (Call float) :=
  [puts "EC=0x", .printHex64 ec.toUInt64, puts " (", puts (ecStr ec), puts ") IL=",
    .printU32 il.toUInt32, puts "\n"]

def decodeAbort (esr far : ℕ) (instrAbort : Bool) : List (Call float) :=
  let iss := esr &&& 0x01FFFFFF
  let wnr := (iss >>> 6) &&& 1
  let s1ptw := (iss >>> 7) &&& 1
  let ea := (iss >>> 9) &&& 1
  let fnv := (iss >>> 10) &&& 1
  let fsc := iss &&& 0x3F
  [puts (if instrAbort then "IABT " else "DABT "),
    puts "WnR=", .printU32 wnr.toUInt32,
    puts " S1PTW=", .printU32 s1ptw.toUInt32,
    puts " EA=", .printU32 ea.toUInt32,
    puts " FnV=", .printU32 fnv.toUInt32,
    puts " FSC=0x", .printHex64 fsc.toUInt64,
    puts " (", puts (if instrAbort then ifscStr fsc else dfscStr fsc), puts ")\n",
    puts "FAR=0x", .printHex64 far.toUInt64, puts "\n"]

/-- How `sync_exception_entry` goes on after the report. -/
inductive SyncExit
  | takeSyscall (imm : ℕ)
  | recover (reason : ℕ)
  | halt
  deriving DecidableEq, Repr

/-- The first lines of a report. -/
def reportHead (esr elr far : ℕ) : List (Call float) :=
  [puts "[SYNC] ESR=0x", .printHex64 esr.toUInt64, puts " ELR=0x", .printHex64 elr.toUInt64,
    puts " FAR=0x", .printHex64 far.toUInt64, puts "\n"] ++ printEcLine (esrEc esr) (esrIl esr)

/-- The switch of `sync_exception_entry`. -/
def reportRest (esr elr far : ℕ) : List (Call float) × SyncExit :=
  let halting := [puts "Halting.\n"]
  match esrEc esr with
  | 0x15 => ([puts "syscall\n"], .takeSyscall (esrIss esr % 2 ^ 16))
  | 0x20 | 0x21 => (decodeAbort esr far true ++ halting, .halt)
  | 0x24 | 0x25 => (decodeAbort esr far false ++ halting, .halt)
  | 0x2C => (puts "SError reported synchronously\n" :: halting, .halt)
  | 0x3C =>
    let imm16 := esrIss esr &&& 0xFFFF
    ([puts "[BRK] type=", puts (panicStr imm16), puts " ELR=0x", .printHex64 elr.toUInt64,
      puts "\n"], .recover imm16)
  | _ => (puts "Unhandled SYNC class\n" :: halting, .halt)

/-- `sync_exception_entry`: what it prints and how it goes on. -/
def syncExceptionEntry (esr elr far : ℕ) : List (Call float) × SyncExit :=
  let rest := reportRest esr elr far
  ((if esrEc esr ≠ 0x15 then reportHead esr elr far else []) ++ rest.1, rest.2)

/-! ## Where it goes on -/

/-- Whether `sync_recover` returns. -/
def recoverReturns (reason : ℕ) : Bool := reason = 1

theorem esrEc_eq (esr : ℕ) : esrEc esr = esr / 2 ^ 26 % 2 ^ 6 := by
  rw [esrEc, Nat.shiftRight_eq_div_pow, show 0x3F = 2 ^ 6 - 1 from rfl,
    Nat.and_two_pow_sub_one_eq_mod]

theorem esrIss_low (esr : ℕ) : esrIss esr &&& 0xFFFF = esr % 2 ^ 16 := by
  rw [esrIss, show 0x01FFFFFF = 2 ^ 25 - 1 from rfl, show 0xFFFF = 2 ^ 16 - 1 from rfl,
    Nat.and_two_pow_sub_one_eq_mod, Nat.and_two_pow_sub_one_eq_mod]
  omega

/-- The kernel handles the events of a system call, nothing for a panic of a process, and halts for
everything else. -/
theorem syncEvents_eq (float : Fmt → δ → List UInt8) (esr elr far : ℕ) (sc : Sched) :
    Exceptions.syncEvents esr sc =
      match (syncExceptionEntry esr elr far : List (Call float) × SyncExit).2 with
      | .takeSyscall _ => do
        let cur ← deref sc.curr
        return Exceptions.syscallEvents (sc.proc cur).ctx
      | .recover r => if recoverReturns r then .ok [] else .error (.halt .hang)
      | .halt => .error (.halt .hang) := by
  rw [Exceptions.syncEvents, ← esrEc_eq, ← esrIss_low]
  by_cases hsvc : esrEc esr = 0x15
  · simp [syncExceptionEntry, reportRest, hsvc]
  by_cases hbrk : esrEc esr = 0x3C
  · simp [syncExceptionEntry, reportRest, hbrk, recoverReturns]
  · have hhalt : (syncExceptionEntry esr elr far : List (Call float) × SyncExit).2 = .halt := by
      simp only [syncExceptionEntry, reportRest]
      split <;> first | rfl | contradiction
    rw [hhalt, if_neg hsvc, if_neg fun h => hbrk h.1]

/-! ## Reading a report -/

/-- Numbers of sixteen digits, with so many characters before each. -/
def readFields : List ℕ → List UInt8 → List ℕ
  | [], _ => []
  | gap :: gaps, cs =>
    value digitVal 16 ((cs.drop gap).take 16) :: readFields gaps ((cs.drop gap).drop 16)

/-- `ESR`, `ELR` and `FAR` of a report. -/
def readReport (cs : List UInt8) : List ℕ := readFields [13, 7, 7] cs

theorem readFields_cons {name : List UInt8} {gap v : ℕ} (hname : name.length = gap) (hv : v < u64)
    (gaps : List ℕ) (rest : List UInt8) :
    readFields (gap :: gaps) (name ++ (padded (digs false) 16 16 v ++ rest)) =
      v :: readFields gaps rest := by
  have hlen : (padded (digs false) 16 16 v).length = 16 := by simp [padded]
  have hval : value digitVal 16 (padded (digs false) 16 16 v) = v := by
    rw [padded_eq (digs false) (by decide) (by decide) (show v < 16 ^ 16 from hv)]
    exact (value_zeros (show digitVal (digs false 0) = 0 from rfl) _ _).trans
      (value_numeral_digs (.inr (.inr rfl)) false v)
  rw [readFields, ← hname, List.drop_left, List.take_left' hlen, List.drop_left' hlen, hval]

/-- A report starts with the three registers, whatever follows. -/
theorem readReport_entry {esr elr far : ℕ} (hesr : esr < u64) (helr : elr < u64)
    (hfar : far < u64) (hec : esrEc esr ≠ 0x15) (more : List (Call float)) :
    readReport (((syncExceptionEntry esr elr far).1 ++ more).flatMap Call.text) =
      [esr, elr, far] := by
  have hword : ∀ v < u64, v.toUInt64.toNat = v := fun v hv => Nat.mod_eq_of_lt hv
  have hhex : ∀ v < u64, (.printHex64 v.toUInt64 : Call float).text =
      padded (digs false) 16 16 v := by
    intro v hv
    rw [Call.text, hword v hv]
  have hesrName : (puts "[SYNC] ESR=0x" : Call float).text = text "[SYNC] ESR=0x" := rfl
  have helrName : (puts " ELR=0x" : Call float).text = text " ELR=0x" := rfl
  have hfarName : (puts " FAR=0x" : Call float).text = text " FAR=0x" := rfl
  rw [syncExceptionEntry, if_pos hec, reportHead]
  simp only [List.cons_append, List.nil_append, List.append_assoc, List.flatMap_cons, hesrName,
    helrName, hfarName, hhex _ hesr, hhex _ helr, hhex _ hfar]
  rw [readReport, readFields_cons (show (text "[SYNC] ESR=0x").length = 13 from rfl) hesr,
    readFields_cons (show (text " ELR=0x").length = 7 from rfl) helr,
    readFields_cons (show (text " FAR=0x").length = 7 from rfl) hfar]
  rfl

/-! ## On the console -/

variable {ι : Type} [DecidableEq ι] {depth : ℕ} {b b' : Board ι float}

/-- Wherever a process was interrupted in its own printing, the report of its fault is on the line
in one piece, and the three registers can be read off. -/
theorem report_readable {w₀ : Option ι} {es₀ : List (Console.Event ι float)}
    (hreach : (Board.start w₀ : Board ι float).run depth es₀ = some b) {i : ι}
    (hrun : b.line.running = some i) {es : List (Console.Event ι float)}
    (hes : ∀ e ∈ es, ∀ j, e ≠ .eret j) (hto : b.run depth (.irq :: es) = some b')
    {esr elr far : ℕ} (hesr : esr < u64) (helr : elr < u64) (hfar : far < u64)
    (hec : esrEc esr ≠ 0x15) {more : List (Call float)}
    (hcalls : b'.calls none = b.calls none ++ ((syncExceptionEntry esr elr far).1 ++ more))
    (hdone : b'.line.todo none = []) :
    ∃ cs, b'.line.out = b.line.out ++ cs.map (none, ·) ∧ readReport cs = [esr, elr, far] := by
  obtain ⟨b₀, hrun₀, -, hb⟩ := Board.run_spec (Board.start_inv w₀) es₀
  obtain rfl : b = b₀ := Option.some.inj (hreach.symm.trans hrun₀)
  obtain ⟨b₂, cs, hrun₂, hcalls₂, hout⟩ := hb.handler hrun hes
  obtain rfl : b' = b₂ := Option.some.inj (hto.symm.trans hrun₂)
  rw [hcalls] at hcalls₂
  obtain rfl := List.append_cancel_left hcalls₂
  refine ⟨_, ?_, readReport_entry hesr helr hfar hec more⟩
  rw [hdone] at hout
  simpa using hout

/-- A `brk` for a panic of the process, at `0x1000`. -/
theorem report_readable_userPanic : ∃ b, (Board.start (some 0)).run 16 amidText = some b ∧
    ∃ es b', b.run 16 (.irq :: es) = some b' ∧ ∃ cs,
      b'.line.out = b.line.out ++ cs.map (none, ·) ∧
      readReport cs = [0xF2000001, 0x1000, 0] := by
  obtain ⟨b, hreach, hrun⟩ : ∃ b, (Board.start (some 0)).run 16 amidText = some b ∧
    b.line.running = some 0 := ⟨_, rfl, rfl⟩
  obtain ⟨b₀, hrun₀, -, hb⟩ := Board.run_spec (Board.start_inv (some 0)) amidText
  obtain rfl : b = b₀ := Option.some.inj (hreach.symm.trans hrun₀)
  obtain ⟨b₁, hirq, hb₁, hnone, htodo, -, hcalls₁⟩ := hb.enter hrun
  obtain ⟨es, b', hrun₁, hes, hcalls, hdone⟩ := hb₁.prints (by decide) hnone htodo
    (syncExceptionEntry 0xF2000001 0x1000 0).1
  have hto : b.run 16 (.irq :: es) = some b' := by
    rw [Board.run, List.foldlM_cons, hirq]
    exact hrun₁
  rw [hcalls₁, ← List.append_nil (syncExceptionEntry _ _ _).1] at hcalls
  exact ⟨b, hreach, es, b', hto, report_readable hreach hrun hes hto (by decide) (by decide)
    (by decide) (by decide) hcalls hdone⟩

end

end JanusRT.SyncReport
