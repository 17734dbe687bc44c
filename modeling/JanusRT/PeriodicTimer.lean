import JanusRT.Timer

/-!
# The periodic timer

The periodic task of `timer.c`: the two static variables of the file, the programming of
the first deadline and the interrupt handler, which adds periods to the last deadline
until it lies after the counter. The function the handler calls is a parameter. It may
change the timer registers and everything outside the file, but it cannot reach the two
static variables.
-/
namespace JanusRT

variable {σ : Type}

/-! ## The code -/

/-- `g_next_cval`, `g_period_ticks`, the timer registers and the rest of the kernel. -/
structure Periodic (σ : Type) where
  nextCval : ℕ
  periodTicks : ℕ
  timer : Timer
  rest : σ
  deriving DecidableEq, Repr

/-- `start_periodic_task`; `now` is what the counter reads. -/
def startPeriodicTask (ticks now : ℕ) (p : Periodic σ) : Periodic σ :=
  { p with
    periodTicks := ticks
    nextCval := (now + ticks) % u64
    timer := { p.timer with cval := (now + ticks) % u64, enabled := true, setAt := now } }

/-- The period of a frequency. -/
def periodOf (frq hz : ℕ) : ℕ := frq / if hz = 0 then 1 else hz

/-- `start_periodic_task_freq`. -/
def startPeriodicTaskFreq (frq hz now : ℕ) (p : Periodic σ) : Periodic σ :=
  startPeriodicTask (periodOf frq hz) now p

/-- The loop that skips forward. A deadline is one of `u64` values and the next depends on
nothing else, so a loop of more rounds than that never ends. -/
def skipForward (period now : ℕ) : ℕ → ℕ → Except Halt ℕ
  | 0, _ => .error .hang
  | fuel + 1, next =>
    if next ≤ now then skipForward period now fuel ((next + period) % u64) else .ok next

/-- `timer_irq_handler`; `now` is what the counter reads after `g_timer_func` is done. -/
def timerIrqHandler (timerFunc : Timer × σ → Timer × σ) (p : Periodic σ) (now : ℕ) :
    Except Halt (Periodic σ) := do
  let next := p.nextCval
  let (timer, rest) := timerFunc (p.timer, p.rest)
  let next ← skipForward p.periodTicks now u64 next
  return { p with nextCval := next, timer := { timer with cval := next, setAt := now }, rest }

/-! ## The grid -/

/-- The deadlines of a task that was started at `start`. -/
def Grid (start period : ℕ) : Set ℕ := { t | ∃ k, 1 ≤ k ∧ t = start + k * period }

/-- The deadlines the handler may choose: those after the reading that are not before the
last one. -/
def Candidates (start period prev now : ℕ) : Set ℕ :=
  { t | t ∈ Grid start period ∧ now < t ∧ prev ≤ t }

/-- Every interrupt of the run is handled to its end, and each programs the first deadline
it may choose. -/
def KeepsGrid (timerFunc : Timer × σ → Timer × σ) (start period : ℕ) :
    Periodic σ → List ℕ → Prop
  | _, [] => True
  | p, now :: readings =>
    ∃ p', timerIrqHandler timerFunc p now = .ok p' ∧
      IsLeast (Candidates start period p.nextCval now) p'.nextCval ∧
      p'.timer.cval = p'.nextCval ∧ KeepsGrid timerFunc start period p' readings

theorem periodOf_pos {frq hz : ℕ} : 0 < periodOf frq hz ↔ max hz 1 ≤ frq := by
  unfold periodOf
  rw [Nat.div_pos_iff]
  split_ifs with h <;> omega

/-- Below the wrap the loop adds just as many periods as it takes. -/
theorem skipForward_spec {period now : ℕ} (hp : 0 < period) (hw : now + period < u64)
    (fuel next : ℕ) (hf : now < next + fuel) :
    ∃ m, skipForward period now (fuel + 1) next = .ok (next + m * period) ∧
      now < next + m * period ∧ ∀ j < m, next + j * period ≤ now := by
  induction fuel generalizing next with
  | zero => exact ⟨0, by simp [skipForward]; omega, by omega, by simp⟩
  | succ fuel ih =>
    rw [skipForward]
    split_ifs with h
    · rw [Nat.mod_eq_of_lt (by omega)]
      obtain ⟨m, he, hn, hm⟩ := ih (next + period) (by omega)
      have hs : ∀ j, next + (j + 1) * period = next + period + j * period := by
        intro j
        ring
      refine ⟨m + 1, ?_, ?_, ?_⟩
      · rw [he, hs]
      · rw [hs]
        exact hn
      · intro j hj
        cases j with
        | zero => simpa using h
        | succ j =>
          rw [hs]
          exact hm j (by omega)
    · exact ⟨0, by simp, by omega, by simp⟩

/-- Without a period the loop never passes a deadline the counter has reached. -/
theorem skipForward_zero {now next : ℕ} (h : next ≤ now) (hn : now < u64) (fuel : ℕ) :
    skipForward 0 now fuel next = .error .hang := by
  induction fuel with
  | zero => rfl
  | succ fuel ih =>
    rw [skipForward, if_pos h, Nat.add_zero, Nat.mod_eq_of_lt (by omega)]
    exact ih

/-- The first deadline of the grid that the loop leaves is the first that may be chosen. -/
theorem isLeast_candidates {start period now k m : ℕ} (hk : 1 ≤ k)
    (hn : now < start + k * period + m * period)
    (hm : ∀ j < m, start + k * period + j * period ≤ now) :
    IsLeast (Candidates start period (start + k * period) now)
      (start + k * period + m * period) := by
  constructor
  · exact ⟨⟨k + m, by omega, by ring⟩, hn, by omega⟩
  · intro t ht
    obtain ⟨⟨i, -, rfl⟩, hnow, hprev⟩ := ht
    by_contra hlt
    -- a smaller deadline is one of those the loop has passed
    have hik : i < k + m := by
      by_contra hi
      have := Nat.mul_le_mul_right period (not_lt.mp hi)
      rw [Nat.add_mul] at this
      omega
    by_cases hki : k ≤ i
    · have := hm (i - k) (by omega)
      rw [Nat.add_assoc, ← Nat.add_mul, Nat.add_sub_cancel' hki] at this
      omega
    · have hle : i * period ≤ k * period := Nat.mul_le_mul_right period (by omega)
      have hm0 : 0 < m := by
        apply Nat.pos_of_ne_zero
        rintro rfl
        omega
      have := hm 0 hm0
      omega

/-- The period is set and the deadline lies on the grid. -/
structure Ticking (start period : ℕ) (p : Periodic σ) : Prop where
  ticks : p.periodTicks = period
  grid : p.nextCval ∈ Grid start period

theorem ticking_start {ticks now : ℕ} (h : now + ticks < u64) (p : Periodic σ) :
    Ticking now ticks (startPeriodicTask ticks now p) := by
  refine ⟨rfl, 1, le_rfl, ?_⟩
  simp [startPeriodicTask, Nat.mod_eq_of_lt h]

theorem Ticking.timerIrqHandler {timerFunc : Timer × σ → Timer × σ} {start period now : ℕ}
    {p : Periodic σ} (hp : Ticking start period p) (hpos : 0 < period)
    (hw : now + period < u64) :
    ∃ p', timerIrqHandler timerFunc p now = .ok p' ∧ Ticking start period p' ∧
      IsLeast (Candidates start period p.nextCval now) p'.nextCval ∧
      p'.timer.cval = p'.nextCval := by
  obtain ⟨k, hk, hnext⟩ := hp.grid
  obtain ⟨m, he, hn, hm⟩ := skipForward_spec hpos hw (u64 - 1) p.nextCval (by omega)
  rw [Nat.sub_add_cancel (by norm_num [u64])] at he
  rw [hnext] at he hn hm ⊢
  have hleast := isLeast_candidates hk hn hm
  let timer := (timerFunc (p.timer, p.rest)).1
  let next := start + k * period + m * period
  refine ⟨{ p with
    nextCval := next
    timer := { timer with cval := next, setAt := now }
    rest := (timerFunc (p.timer, p.rest)).2 }, ?_, ⟨hp.ticks, hleast.1.1⟩, hleast, rfl⟩
  unfold JanusRT.timerIrqHandler
  dsimp only
  rw [hp.ticks, hnext, he]
  rfl

theorem Ticking.keepsGrid {timerFunc : Timer × σ → Timer × σ} {start period : ℕ}
    (hpos : 0 < period) {readings : List ℕ} (hw : ∀ now ∈ readings, now + period < u64)
    {p : Periodic σ} (hp : Ticking start period p) :
    KeepsGrid timerFunc start period p readings := by
  induction readings generalizing p with
  | nil => trivial
  | cons now readings ih =>
    obtain ⟨p', h, hp', hleast, hcval⟩ := hp.timerIrqHandler hpos (hw now List.mem_cons_self)
    exact ⟨p', h, hleast, hcval, ih (fun n hn => hw n (List.mem_cons_of_mem _ hn)) hp'⟩

/-- Without a period the first deadline is the start, which every reading has reached. -/
theorem not_keepsGrid {timerFunc : Timer × σ → Timer × σ} {start now : ℕ}
    {readings : List ℕ} (h : start ≤ now) (hn : now < u64) (p : Periodic σ) :
    ¬ KeepsGrid timerFunc start 0 (startPeriodicTask 0 start p) (now :: readings) := by
  intro hkeep
  obtain ⟨p', hp', -⟩ := hkeep
  have hstart : start % u64 = start := Nat.mod_eq_of_lt (by omega)
  simp [timerIrqHandler, startPeriodicTask, hstart, skipForward_zero h hn] at hp'

/-- The handler's loop ends, and its deadlines run through the grid without drift, just
when the frequency is not above the counter's own. -/
theorem periodic_keepsGrid_iff (timerFunc : Timer × σ → Timer × σ) (p : Periodic σ)
    (frq hz start : ℕ) (readings : List ℕ) (hne : readings ≠ [])
    (hlater : ∀ now ∈ readings, start ≤ now)
    (hwrap : ∀ now ∈ readings, now + periodOf frq hz < u64) :
    KeepsGrid timerFunc start (periodOf frq hz) (startPeriodicTaskFreq frq hz start p) readings ↔
      max hz 1 ≤ frq := by
  rw [← periodOf_pos]
  obtain ⟨now, rest, rfl⟩ := List.exists_cons_of_ne_nil hne
  have hnow := hlater now List.mem_cons_self
  have hnw := hwrap now List.mem_cons_self
  unfold startPeriodicTaskFreq
  constructor
  · intro h
    by_contra hpos
    rw [Nat.eq_zero_of_not_pos hpos] at h hnw
    exact not_keepsGrid hnow hnw p h
  · intro hpos
    exact (ticking_start (by omega) p).keepsGrid hpos hwrap

/-- A period of two counts; the second interrupt comes late. -/
theorem periodic_keepsGrid_five :
    KeepsGrid id 3 (periodOf 10 5) (startPeriodicTaskFreq 10 5 3 ⟨0, 0, ⟨false, 0, 0⟩, ()⟩)
      [5, 12] :=
  (periodic_keepsGrid_iff id ⟨0, 0, ⟨false, 0, 0⟩, ()⟩ 10 5 3 [5, 12] (by decide) (by decide)
    (by decide)).mpr (by decide)

/-- A frequency of 100 MHz at a counter of 62.5 MHz. -/
theorem periodic_above_counter :
    ¬ KeepsGrid id 3 (periodOf 62500000 100000000)
      (startPeriodicTaskFreq 62500000 100000000 3 ⟨0, 0, ⟨false, 0, 0⟩, ()⟩) [5] :=
  not_keepsGrid (by decide) (by decide) ⟨0, 0, ⟨false, 0, 0⟩, ()⟩

end JanusRT
