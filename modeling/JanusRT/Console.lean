import JanusRT.Uart
import JanusRT.Lib.SharedFifo
import Mathlib.Data.Nat.Bitwise

/-!
# The console under preemption

`uart_putc` reads the flag register until there is room in the transmit FIFO and then writes the
data register. Processes call it with interrupts enabled, so that one may be preempted between the
two, and the FIFO may be full when it goes on. What a handler prints comes out whole, since handlers
are not interrupted, and a process loses at most one character by an interrupt.
-/
namespace JanusRT.Console

open Outcome Snprintf Numeral Uart SharedFifo

section
variable {δ : Type}

/-! ## Calls -/

/-- A call of `printf` with arguments that fit its format. -/
structure Printf (float : Fmt → δ → List UInt8) where
  fmt : List UInt8
  ap : List (Arg δ)
  shown : List UInt8
  call : callText float fmt ap = .ok shown
  short : shown.length < u64

/-- The functions that print. -/
inductive Call (float : Fmt → δ → List UInt8)
  | putc (c : UInt8)
  | puts (s : List UInt8)
  | putu32 (v : UInt32)
  | putu64 (v : UInt64)
  | puthex (v : UInt64)
  | printf (p : Printf float)
  | printU32 (v : UInt32)
  | printHex64 (v : UInt64)

variable {float : Fmt → δ → List UInt8}

/-- The characters that the code hands to `uart_putc`, if no string runs out of its array. -/
def Call.chars (junk : ℕ → UInt8) : Call float → Option (List UInt8)
  | .putc c => some [c]
  | .puts s => some (s.takeWhile (· ≠ 0))
  | .putu32 v => uartPutu32 junk v.toNat
  | .putu64 v => uartPutu64 junk v.toNat
  | .puthex v => uartPuthex junk v.toNat
  | .printf p => (vprintf float junk p.fmt p.ap).toOption.bind (·.1)
  | .printU32 v => Uart.printU32 junk v.toNat
  | .printHex64 v => some (Uart.printHex64 v.toNat)

/-- What a call is to print. -/
def Call.text : Call float → List UInt8
  | .putc c => [c]
  | .puts s => s.takeWhile (· ≠ 0)
  | .putu32 v | .printU32 v => numeral (digs false) 10 v.toNat
  | .putu64 v => numeral (digs false) 10 v.toNat
  | .puthex v => numeral (digs true) 16 v.toNat
  | .printf p => (p.shown.take (printfMax - 1)).takeWhile (· ≠ 0)
  | .printHex64 v => padded (digs false) 16 16 v.toNat

theorem Call.chars_eq (c : Call float) (junk : ℕ → UInt8) : c.chars junk = some c.text := by
  cases c with
  | putc c => rfl
  | puts s => rfl
  | putu32 v => exact uartPutu64_eq junk (v.toNat_lt.trans (by decide))
  | putu64 v => exact uartPutu64_eq junk v.toNat_lt
  | puthex v => exact uartPuthex_eq junk v.toNat_lt
  | printf p =>
    obtain ⟨herror, -⟩ | ⟨cs, hcs, hrun⟩ := vprintf_text float junk p.fmt p.ap
    · rw [p.call] at herror
      cases herror
    · rw [p.call] at hcs
      obtain rfl : p.shown = cs := Except.ok.inj hcs
      rw [Call.chars, hrun p.short]
      rfl
  | printU32 v => exact printU32_eq junk v.toNat_lt
  | printHex64 v =>
    have hv : v.toNat < 16 ^ 16 := v.toNat_lt
    exact congrArg some ((printHex64_eq v.toNat_lt).trans
      (padded_eq (digs false) (by decide) (by decide) hv).symm)

/-! ## The device and its writers -/

variable {ι : Type} [DecidableEq ι] {depth : ℕ}

/-- `UART_FR_TXFF`. -/
def uartFrTxff : ℕ := 1 <<< 5

/-- The flag register, whose other bits may be anything. -/
def uartFr (depth bits : ℕ) (s : SharedFifo.State ι UInt8) : ℕ :=
  bits / 2 ^ 6 * 2 ^ 6 + (if s.queue.length < depth then 0 else uartFrTxff) + bits % 2 ^ 5

/-- The next access of `uart_putc`. -/
def uartPutc (depth bits : ℕ) (s : SharedFifo.State ι UInt8) : SharedFifo.State ι UInt8 :=
  match s.todo s.running with
  | [] => s
  | c :: rest =>
    if s.clear s.running then store depth s c rest
    else { s with
      clear := Function.update s.clear s.running (decide (uartFr depth bits s &&& uartFrTxff = 0)) }

omit [DecidableEq ι] in
theorem uartFr_txff (bits : ℕ) (s : SharedFifo.State ι UInt8) :
    uartFr depth bits s &&& uartFrTxff = 0 ↔ s.queue.length < depth := by
  rw [show uartFrTxff = 2 ^ 5 from rfl, Nat.and_two_pow]
  have hbit : (uartFr depth bits s).testBit 5 = !decide (s.queue.length < depth) := by
    rw [Nat.testBit_eq_decide_div_mod_eq, uartFr, show uartFrTxff = 32 from rfl]
    by_cases h : s.queue.length < depth
    · simp only [h, if_true, decide_true, Bool.not_true, decide_eq_false_iff_not]
      omega
    · simp only [h, if_false, decide_false, Bool.not_false, decide_eq_true_eq]
      omega
  rw [hbit]
  by_cases h : s.queue.length < depth <;> simp [h]

theorem uartPutc_eq (bits : ℕ) (s : SharedFifo.State ι UInt8) :
    uartPutc depth bits s = access depth s := by
  unfold uartPutc access look
  simp only [uartFr_txff]
  rcases s.todo s.running with _ | ⟨c, rest⟩ <;> rfl

/-- Every writer's calls are kept as a history. -/
structure Board (ι : Type) (float : Fmt → δ → List UInt8) where
  line : SharedFifo.State ι UInt8
  calls : Option ι → List (Call float)

/-- The running code calls a function, whose array holds `junk`, or makes the next access of its
call. `drain` is the device sending a character, `irq` is an exception that is taken, and `eret`
goes on with process `i`. -/
inductive Event (ι : Type) (float : Fmt → δ → List UInt8)
  | drain
  | access (bits : ℕ)
  | call (junk : ℕ → UInt8) (c : Call float)
  | irq
  | eret (i : ι)

def Board.step (depth : ℕ) (b : Board ι float) : Event ι float → Option (Board ι float)
  | .drain => some { b with line := drain b.line }
  | .access bits => some { b with line := uartPutc depth bits b.line }
  | .call junk c =>
    if b.line.todo b.line.running = [] then do
      let cs ← c.chars junk
      some { line := puts b.line cs
             calls := Function.update b.calls b.line.running (b.calls b.line.running ++ [c]) }
    else some b
  | .irq => some { b with line := interrupt b.line }
  | .eret i => some { b with line := resume b.line i }

def Board.run (depth : ℕ) (b : Board ι float) (es : List (Event ι float)) :
    Option (Board ι float) := es.foldlM (Board.step depth) b

/-- Nothing has been printed and `w` runs. -/
def Board.start (w : Option ι) : Board ι float := ⟨SharedFifo.start w, fun _ => []⟩

/-- All that a writer has called for. -/
def Board.text (b : Board ι float) (w : Option ι) : List UInt8 := (b.calls w).flatMap Call.text

def Event.onLine : Event ι float → SharedFifo.Event ι UInt8
  | .drain => .drain
  | .access _ => .access
  | .call _ c => .puts c.text
  | .irq => .interrupt
  | .eret i => .resume i

def Event.isIrq : Event ι float → Bool
  | .irq => true
  | _ => false

/-! ## Steps and runs -/

/-- The characters of the calls are what the device is asked for. -/
structure Board.Inv (depth : ℕ) (b : Board ι float) : Prop where
  line : SharedFifo.Inv depth b.line
  asked : ∀ w, b.line.asked w = b.text w

variable {b b' : Board ι float}

/-- A step of the board is one of the shared FIFO, and adds the text of a call. -/
theorem Board.step_spec (hb : b.Inv depth) (e : Event ι float) : ∃ b', b.step depth e = some b' ∧
    b'.line = SharedFifo.step depth b.line e.onLine ∧ ∀ w, b'.line.asked w = b'.text w := by
  have hcalls : ∀ e' : SharedFifo.Event ι UInt8, (∀ xs, e' ≠ .puts xs) →
      ∀ w, (SharedFifo.step depth b.line e').asked w = b.text w := by
    intro e' he' w
    exact (congrFun (asked_step he') w).trans (hb.asked w)
  cases e with
  | drain => exact ⟨_, rfl, rfl, hcalls .drain (by simp)⟩
  | access bits =>
    refine ⟨_, rfl, uartPutc_eq bits b.line, ?_⟩
    change ∀ w, (uartPutc depth bits b.line).asked w = b.text w
    rw [uartPutc_eq]
    exact hcalls .access (by simp)
  | call junk c =>
    simp only [Board.step]
    by_cases hidle : b.line.todo b.line.running = []
    · rw [if_pos hidle, c.chars_eq junk]
      refine ⟨_, rfl, rfl, ?_⟩
      intro w
      simp only [puts, if_pos hidle, Board.text]
      by_cases hw : w = b.line.running
      · subst hw
        rw [Function.update_self, Function.update_self, List.flatMap_append, hb.asked]
        simp [Board.text]
      · rw [Function.update_of_ne hw, Function.update_of_ne hw]
        exact hb.asked w
    · rw [if_neg hidle]
      exact ⟨b, rfl, (if_neg hidle).symm, hb.asked⟩
  | irq => exact ⟨_, rfl, rfl, hcalls .interrupt (by simp)⟩
  | eret i => exact ⟨_, rfl, rfl, hcalls (.resume i) (by simp)⟩

theorem Board.start_inv (w : Option ι) : (Board.start w : Board ι float).Inv depth :=
  ⟨SharedFifo.Inv.start depth w, fun _ => rfl⟩

theorem Board.Inv.step (hb : b.Inv depth) {e : Event ι float} (h : b.step depth e = some b') :
    b'.Inv depth ∧ b'.line = SharedFifo.step depth b.line e.onLine := by
  obtain ⟨b₁, hstep, hline, hasked⟩ := Board.step_spec hb e
  obtain rfl : b' = b₁ := Option.some.inj (h.symm.trans hstep)
  exact ⟨⟨hline ▸ hb.line.step e.onLine, hasked⟩, hline⟩

theorem Board.run_spec (hb : b.Inv depth) (es : List (Event ι float)) :
    ∃ b', b.run depth es = some b' ∧
    b'.line = SharedFifo.run depth b.line (es.map Event.onLine) ∧ b'.Inv depth := by
  induction es generalizing b with
  | nil => exact ⟨b, rfl, rfl, hb⟩
  | cons e es ih =>
    obtain ⟨b₁, hstep, -, -⟩ := Board.step_spec hb e
    obtain ⟨hb₁, hline⟩ := hb.step hstep
    obtain ⟨b₂, hrun, hline₂, hb₂⟩ := ih hb₁
    refine ⟨b₂, ?_, ?_, hb₂⟩
    · rw [Board.run, List.foldlM_cons, hstep]
      exact hrun
    · rw [hline₂, hline]
      rfl

omit [DecidableEq ι] in
theorem countP_onLine (es : List (Event ι float)) :
    (es.map Event.onLine).countP SharedFifo.Event.isInterrupt = es.countP Event.isIrq := by
  rw [List.countP_map]
  congr 1
  funext e
  cases e <;> rfl

/-- However the writers are interleaved, the characters of each come out in order, a process lacks
at most one of them for each interrupt, and a handler none. -/
theorem console_kept (w₀ : Option ι) (es : List (Event ι float)) :
    ∃ b, (Board.start w₀ : Board ι float).run depth es = some b ∧
      (∀ i, ∃ done, b.text (some i) = done ++ b.line.todo (some i) ∧
        (b.line.shown (some i)).Sublist done ∧
        done.length ≤ (b.line.shown (some i)).length + es.countP Event.isIrq) ∧
      b.text none = b.line.shown none ++ b.line.todo none := by
  obtain ⟨b, hrun, hline, hb⟩ := Board.run_spec (Board.start_inv w₀) es
  refine ⟨b, hrun, ?_, ?_⟩
  · intro i
    obtain ⟨done, hasked, hsub, hlen⟩ := hb.line.shown (some i)
    have hhits : b.line.hits (some i) ≤ es.countP Event.isIrq := by
      rw [hline, ← countP_onLine]
      exact (hits_run_le _ _).trans (Nat.zero_add _).le
    exact ⟨done, hb.asked (some i) ▸ hasked, hsub, by omega⟩
  · rw [← hb.asked none]
    exact hb.line.shown_none

/-- A process has found room and is interrupted. The handler fills the FIFO of one place, and the
character is lost. -/
example : ((Board.start (some 0) : Board ℕ fun _ (x : List UInt8) => x).run 1
    [.call (fun _ => 0) (.puts [97, 98]), .access 0, .irq, .call (fun _ => 0) (.putc 120),
      .access 0, .access 0, .eret 0, .access 0]).map (fun b => (b.line.out, b.line.todo (some 0))) =
    some ([(none, 120)], [98]) := rfl

/-! ## Handlers and waiting -/

theorem Board.calls_step {e : Event ι float} (h : b.step depth e = some b') (w : Option ι) :
    b.calls w <+: b'.calls w := by
  cases e with
  | call junk c =>
    simp only [Board.step] at h
    split_ifs at h
    · rw [c.chars_eq junk] at h
      obtain rfl := Option.some.inj h
      by_cases hw : w = b.line.running
      · subst hw
        simp
      · simp [Function.update_of_ne hw]
    · obtain rfl := Option.some.inj h
      exact List.prefix_rfl
  | drain | access | irq | eret =>
    obtain rfl := Option.some.inj h
    exact List.prefix_rfl

theorem Board.calls_run {es : List (Event ι float)} (h : b.run depth es = some b') (w : Option ι) :
    b.calls w <+: b'.calls w := by
  induction es generalizing b with
  | nil =>
    obtain rfl := Option.some.inj h
    exact List.prefix_rfl
  | cons e es ih =>
    rw [Board.run, List.foldlM_cons, Option.bind_eq_bind, Option.bind_eq_some_iff] at h
    obtain ⟨b₁, hstep, hrest⟩ := h
    exact (Board.calls_step hstep w).trans (ih hrest)

/-- Until another writer runs, all that comes out is what the running one calls for. -/
theorem Board.run_alone (hb : b.Inv depth) {w : Option ι} (hrun : b.line.running = w)
    (hsafe : b.line.clear w = true → b.line.queue.length < depth) {es : List (Event ι float)}
    (hes : ∀ e ∈ es, e.onLine.Stays w) : ∃ b' cs, b.run depth es = some b' ∧
      b'.line.running = w ∧ b'.calls w = b.calls w ++ cs ∧
      b'.line.out ++ (b'.line.todo w).map (w, ·) =
        b.line.out ++ (b.line.todo w ++ cs.flatMap Call.text).map (w, ·) := by
  obtain ⟨b', hrun', hline, hb'⟩ := Board.run_spec hb es
  obtain ⟨cs, hcs⟩ := Board.calls_run hrun' w
  have hstays : ∀ e ∈ es.map Event.onLine, e.Stays w := by
    simpa using hes
  have halone := alone_run hrun hsafe hstays
  rw [← hline] at halone
  obtain ⟨xs, hasked, hout⟩ := halone.piece
  rw [hb'.asked w, hb.asked w, Board.text, ← hcs, List.flatMap_append] at hasked
  obtain rfl : cs.flatMap Call.text = xs := List.append_cancel_left hasked
  exact ⟨b', cs, hrun', halone.running, hcs.symm, hout⟩

/-- When a process is interrupted, nothing of the handler's is left over. -/
theorem Board.Inv.enter (hb : b.Inv depth) {i : ι} (hrun : b.line.running = some i) :
    ∃ b₁, b.step depth .irq = some b₁ ∧ b₁.Inv depth ∧ b₁.line.running = none ∧
      b₁.line.todo none = [] ∧ b₁.line.out = b.line.out ∧ b₁.calls = b.calls := by
  have hirq : b.step depth .irq = some { b with line := interrupt b.line } := rfl
  obtain ⟨hb₁, -⟩ := hb.step hirq
  have hentered : interrupt b.line = { b.line with
      running := none
      hits := Function.update b.line.hits (some i)
        (b.line.hits (some i) + if b.line.clear (some i) then 1 else 0) } := by
    unfold interrupt
    rw [hrun]
  have htodo : b.line.todo none = [] := hb.line.handled (by rw [hrun]; exact Option.some_ne_none i)
  refine ⟨_, hirq, hb₁, ?_, ?_, ?_, rfl⟩ <;> simp only [hentered]
  · exact htodo
  · rfl

omit [DecidableEq ι] in
theorem Event.stays_of_not_eret {e : Event ι float} (he : ∀ j, e ≠ .eret j) :
    e.onLine.Stays none := by
  cases e with
  | eret j => exact absurd rfl (he j)
  | irq => rfl
  | drain | access | call => trivial

theorem Board.Inv.handler (hb : b.Inv depth) {i : ι} (hrun : b.line.running = some i)
    {es : List (Event ι float)} (hes : ∀ e ∈ es, ∀ j, e ≠ .eret j) :
    ∃ b' cs, b.run depth (.irq :: es) = some b' ∧ b'.calls none = b.calls none ++ cs ∧
      b'.line.out ++ (b'.line.todo none).map (none, ·) =
        b.line.out ++ (cs.flatMap Call.text).map (none, ·) := by
  obtain ⟨b₁, hirq, hb₁, hnone, htodo, hout₁, hcalls₁⟩ := hb.enter hrun
  have hstays : ∀ e ∈ es, e.onLine.Stays none := fun e he => Event.stays_of_not_eret (hes e he)
  obtain ⟨b', cs, hrun', -, hcalls, hout⟩ := Board.run_alone hb₁ hnone hb₁.line.room hstays
  refine ⟨b', cs, ?_, hcalls₁ ▸ hcalls, ?_⟩
  · rw [Board.run, List.foldlM_cons, hirq]
    exact hrun'
  · rw [htodo, List.nil_append, hout₁] at hout
    exact hout

/-- Whatever a process was about to print, the handler's characters follow on those before, complete
and in one piece. -/
theorem console_handler {w₀ : Option ι} {es₀ : List (Event ι float)}
    (hreach : (Board.start w₀ : Board ι float).run depth es₀ = some b) {i : ι}
    (hrun : b.line.running = some i) {es : List (Event ι float)}
    (hes : ∀ e ∈ es, ∀ j, e ≠ .eret j) :
    ∃ b' cs, b.run depth (.irq :: es) = some b' ∧ b'.calls none = b.calls none ++ cs ∧
      b'.line.out ++ (b'.line.todo none).map (none, ·) =
        b.line.out ++ (cs.flatMap Call.text).map (none, ·) := by
  obtain ⟨b₀, hrun₀, -, hb⟩ := Board.run_spec (Board.start_inv w₀) es₀
  obtain rfl : b = b₀ := Option.some.inj (hreach.symm.trans hrun₀)
  exact hb.handler hrun hes

/-- A process has found room for the first of its two characters. -/
def amidText : List (Event ℕ fun _ (x : List UInt8) => x) :=
  [.call (fun _ => 0) (.puts [97, 98]), .access 0]

theorem console_handler_amidText : ∃ b, (Board.start (some 0)).run 16 amidText = some b ∧
    ∃ b' cs, b.run 16 [.irq, .call (fun _ => 0) (.putu32 7), .access 0, .access 0] = some b' ∧
      b'.calls none = b.calls none ++ cs ∧
      b'.line.out ++ (b'.line.todo none).map (none, ·) =
        b.line.out ++ (cs.flatMap Call.text).map (none, ·) := by
  refine ⟨_, rfl, ?_⟩
  have hreach : (Board.start (some 0)).run 16 amidText = some _ := rfl
  exact console_handler hreach rfl (by simp)

/-- The device sends, or the running code is at `uart_putc`. -/
def Event.Waits (e : Event ι float) : Prop := e = .drain ∨ ∃ bits, e = .access bits

theorem Board.Inv.finishes (hb : b.Inv depth) (hdepth : 0 < depth) {f : ℕ → Event ι float}
    (hf : ∀ n, (f n).Waits) (hdrain : ∀ n, ∃ m ≥ n, f m = .drain)
    (hacc : ∀ n, ∃ m ≥ n, ∃ bits, f m = .access bits) :
    ∃ n b', b.run depth ((List.range n).map f) = some b' ∧ b'.line.todo b.line.running = [] ∧
      (¬ b.line.AtRisk depth b.line.running →
        b'.line.out = b.line.out ++ (b.line.todo b.line.running).map (b.line.running, ·)) := by
  have hwrites : ∀ n, (f n).onLine.Writes := by
    intro n
    obtain h | ⟨bits, h⟩ := hf n
    · rw [h]
      exact .inl rfl
    · rw [h]
      exact .inr rfl
  have hdrain' : ∀ n, ∃ m ≥ n, (f m).onLine = .drain := by
    intro n
    obtain ⟨m, hm, h⟩ := hdrain n
    exact ⟨m, hm, by rw [h]; rfl⟩
  have hacc' : ∀ n, ∃ m ≥ n, (f m).onLine = .access := by
    intro n
    obtain ⟨m, hm, bits, h⟩ := hacc n
    exact ⟨m, hm, by rw [h]; rfl⟩
  obtain ⟨n, hn⟩ := hb.line.finishes hdepth hwrites hdrain' hacc'
  obtain ⟨b', hrun, hline, hb'⟩ := Board.run_spec hb ((List.range n).map f)
  rw [List.map_map] at hline
  have hdone : b'.line.todo b.line.running = [] := by
    rw [hline]
    exact hn
  refine ⟨n, b', hrun, hdone, ?_⟩
  intro hsafe
  have hroom : b.line.clear b.line.running = true → b.line.queue.length < depth := by
    intro hclear
    by_contra hfull
    exact hsafe ⟨hclear, fun h => hfull h.2⟩
  have hall : ∀ e ∈ (List.range n).map (Event.onLine ∘ f), e.Writes := by
    simpa using fun m _ => hwrites m
  have hout := writes_run hroom hall
  rw [← hline, hdone, List.map_nil, List.append_nil] at hout
  exact hout

/-- A call that is not interrupted comes to its end if the device goes on sending, and prints all
that is left of it unless it has already been interrupted between its two accesses. -/
theorem console_finishes (hdepth : 0 < depth) {w₀ : Option ι} {es₀ : List (Event ι float)}
    (hreach : (Board.start w₀ : Board ι float).run depth es₀ = some b) {f : ℕ → Event ι float}
    (hf : ∀ n, (f n).Waits) (hdrain : ∀ n, ∃ m ≥ n, f m = .drain)
    (hacc : ∀ n, ∃ m ≥ n, ∃ bits, f m = .access bits) :
    ∃ n b', b.run depth ((List.range n).map f) = some b' ∧ b'.line.todo b.line.running = [] ∧
      (¬ b.line.AtRisk depth b.line.running →
        b'.line.out = b.line.out ++ (b.line.todo b.line.running).map (b.line.running, ·)) := by
  obtain ⟨b₀, hrun₀, -, hb⟩ := Board.run_spec (Board.start_inv w₀) es₀
  obtain rfl : b = b₀ := Option.some.inj (hreach.symm.trans hrun₀)
  exact hb.finishes hdepth hf hdrain hacc

/-- The device and the writer take turns. -/
def takeTurns (n : ℕ) : Event ι float := if n % 2 = 0 then .drain else .access 0

omit [DecidableEq ι] in
theorem takeTurns_waits (n : ℕ) : (takeTurns n : Event ι float).Waits := by
  unfold takeTurns
  split_ifs
  · exact .inl rfl
  · exact .inr ⟨0, rfl⟩

omit [DecidableEq ι] in
theorem takeTurns_drain (n : ℕ) : ∃ m ≥ n, (takeTurns m : Event ι float) = .drain :=
  ⟨2 * n, by omega, if_pos (by omega)⟩

omit [DecidableEq ι] in
theorem takeTurns_access (n : ℕ) :
    ∃ m ≥ n, ∃ bits, (takeTurns m : Event ι float) = .access bits :=
  ⟨2 * n + 1, by omega, 0, if_neg (by omega)⟩

theorem console_finishes_takeTurns : ∃ b, (Board.start (some 0)).run 16 amidText = some b ∧
    ∃ n b', b.run 16 ((List.range n).map takeTurns) = some b' ∧
      b'.line.todo b.line.running = [] ∧ (¬ b.line.AtRisk 16 b.line.running →
        b'.line.out = b.line.out ++ (b.line.todo b.line.running).map (b.line.running, ·)) := by
  refine ⟨_, rfl, ?_⟩
  have hreach : (Board.start (some 0)).run 16 amidText = some _ := rfl
  exact console_finishes (by decide) hreach takeTurns_waits takeTurns_drain takeTurns_access

theorem Board.run_waits {es : List (Event ι float)} (hes : ∀ e ∈ es, e.Waits)
    (h : b.run depth es = some b') : b'.line.running = b.line.running ∧ b'.calls = b.calls := by
  induction es generalizing b with
  | nil =>
    obtain rfl := Option.some.inj h
    exact ⟨rfl, rfl⟩
  | cons e es ih =>
    rw [Board.run, List.foldlM_cons, Option.bind_eq_bind, Option.bind_eq_some_iff] at h
    obtain ⟨b₁, hstep, hrest⟩ := h
    obtain ⟨hrunning, hcalls⟩ := ih (fun e' he' => hes e' (List.mem_cons_of_mem e he')) hrest
    rw [hrunning, hcalls]
    obtain rfl | ⟨bits, rfl⟩ := hes e List.mem_cons_self
    · obtain rfl := Option.some.inj hstep
      exact ⟨drain_writer.1, rfl⟩
    · obtain rfl := Option.some.inj hstep
      refine ⟨?_, rfl⟩
      change (uartPutc depth bits b.line).running = b.line.running
      unfold uartPutc store
      split
      · rfl
      · split_ifs <;> rfl

/-- A handler comes to the end of any calls if the device goes on sending. -/
theorem Board.Inv.prints (hb : b.Inv depth) (hdepth : 0 < depth) (hnone : b.line.running = none)
    (hidle : b.line.todo none = []) (cs : List (Call float)) :
    ∃ es b', b.run depth es = some b' ∧ (∀ e ∈ es, ∀ j, e ≠ .eret j) ∧
      b'.calls none = b.calls none ++ cs ∧ b'.line.todo none = [] := by
  induction cs generalizing b with
  | nil => exact ⟨[], b, rfl, by simp, (List.append_nil _).symm, hidle⟩
  | cons c cs ih =>
    have hcall : b.step depth (.call (fun _ => 0) c) = some
        ⟨SharedFifo.puts b.line c.text, Function.update b.calls none (b.calls none ++ [c])⟩ := by
      rw [Board.step, hnone, if_pos hidle, c.chars_eq]
      rfl
    obtain ⟨hb₁, -⟩ := hb.step hcall
    have hnone₁ : (SharedFifo.puts b.line c.text).running = none := by
      unfold SharedFifo.puts
      split_ifs <;> exact hnone
    obtain ⟨n, b₂, hrun₂, hdone₂, -⟩ :=
      hb₁.finishes hdepth takeTurns_waits takeTurns_drain takeTurns_access
    obtain ⟨b₀, hrun₀, -, hb₂⟩ := Board.run_spec hb₁ ((List.range n).map takeTurns)
    obtain rfl : b₂ = b₀ := Option.some.inj (hrun₂.symm.trans hrun₀)
    have hwaits : ∀ e ∈ (List.range n).map (takeTurns : ℕ → Event ι float), e.Waits := by
      simpa using fun m _ => takeTurns_waits m
    obtain ⟨hnone₂, hcalls₂⟩ := Board.run_waits hwaits hrun₂
    rw [hnone₁] at hdone₂ hnone₂
    obtain ⟨es, b₃, hrun₃, hes, hcalls₃, hdone₃⟩ := ih hb₂ hnone₂ hdone₂
    refine ⟨.call (fun _ => 0) c :: ((List.range n).map takeTurns ++ es), b₃, ?_, ?_, ?_, hdone₃⟩
    · rw [Board.run, List.foldlM_cons, hcall, Option.bind_eq_bind, Option.bind_some,
        List.foldlM_append]
      exact Option.bind_eq_some_iff.2 ⟨b₂, hrun₂, hrun₃⟩
    · rintro e he j rfl
      rw [List.mem_cons, List.mem_append] at he
      obtain he | he | he := he
      · cases he
      · obtain h | ⟨bits, h⟩ := hwaits _ he <;> cases h
      · exact hes _ he j rfl
    · rw [hcalls₃, hcalls₂]
      simp

end

end JanusRT.Console
