import JanusRT.Structs

/-!
# The EL1 physical timer

`CNTP_CTL` and `CNTP_CVAL` as an enable flag and a compare value. The counter is
read through `time_now_ticks`; a reading is an argument here, so that every
sequence of readings is covered.
-/
namespace JanusRT

/-- The timer registers. `setAt` is the counter value read when the compare value
was last programmed; the hardware has no such register and nothing branches on it. -/
structure Timer where
  enabled : Bool
  cval : ℕ
  setAt : ℕ
  deriving DecidableEq, Repr

/-- The compare value chosen for a deadline. The difference is taken in `u64` and
its sign is that of the `s64` with the same bits. -/
def compareValue (now deadlineTicks : ℕ) : ℕ :=
  if Int.bmod ((deadlineTicks : ℤ) - now) (2 ^ 64) ≤ 0 then (now + 1) % u64 else deadlineTicks

def timerScheduleAtTicks (now deadlineTicks : ℕ) (t : Timer) : ℕ × Timer :=
  let deadlineTicks := compareValue now deadlineTicks
  (deadlineTicks, { t with cval := deadlineTicks, enabled := true, setAt := now })

def timerCancel (t : Timer) : Timer := { t with enabled := false }

/-- Whatever the sign test decides, the timer fires no later than the deadline or
one tick after the reading. -/
theorem compareValue_le (now deadlineTicks : ℕ) :
    compareValue now deadlineTicks ≤ max deadlineTicks (now + 1) := by
  unfold compareValue
  split_ifs
  · exact (Nat.mod_le _ _).trans (le_max_right _ _)
  · exact le_max_left _ _

end JanusRT
