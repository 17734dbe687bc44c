import JanusRT.Structs

/-!
# Time conversions

The conversions of `timer.c` between counter ticks and fractions of a second. Each
divides into whole seconds and a remainder, so that no product needs more than 64
bits. The two truncations of the split are those of one exact quotient.
-/
namespace JanusRT

/-! ## The code -/

/-- `ticks_from_ns` and `ticks_from_us`, for an argument of which `unit` make a second. -/
def ticksFrom (unit half cntfrq x : ℕ) : ℕ :=
  let sec := x / unit
  let rem := x % unit
  let t := sec * cntfrq % u64
  let num := (rem * cntfrq % u64 + half) % u64
  (t + num / unit) % u64

/-- `ns_from_ticks` and `us_from_ticks`, for a result of which `unit` make a second. -/
def fromTicks (unit cntfrq t : ℕ) : ℕ :=
  let sec := t / cntfrq
  let rem := t % cntfrq
  let x := sec * unit % u64
  let num := rem * unit % u64
  (x + num / cntfrq) % u64

def ticksFromNs (cntfrq ns : ℕ) : ℕ := ticksFrom 1000000000 500000000 cntfrq ns

def ticksFromUs (cntfrq us : ℕ) : ℕ := ticksFrom 1000000 500000 cntfrq us

def nsFromTicks (cntfrq t : ℕ) : ℕ := fromTicks 1000000000 cntfrq t

def usFromTicks (cntfrq t : ℕ) : ℕ := fromTicks 1000000 cntfrq t

/-! ## Exact quotients -/

/-- The intermediate values of `ticksFrom` over the integers. -/
structure TicksFromFits (unit half f x : ℕ) : Prop where
  whole : x / unit * f < u64
  product : x % unit * f < u64
  rounded : x % unit * f + half < u64
  sum : x / unit * f + (x % unit * f + half) / unit < u64

/-- The intermediate values of `fromTicks` over the integers. -/
structure FromTicksFits (unit f t : ℕ) : Prop where
  whole : t / f * unit < u64
  product : t % f * unit < u64
  sum : t / f * unit + t % f * unit / f < u64

/-- One division of the whole is the division of the remainder after the whole part. -/
theorem split_quotient {d : ℕ} (hd : 0 < d) (x c half : ℕ) :
    (x * c + half) / d = x / d * c + (x % d * c + half) / d := by
  have hx : x * c + half = d * (x / d * c) + (x % d * c + half) := by
    calc x * c + half = (d * (x / d) + x % d) * c + half := by rw [Nat.div_add_mod]
      _ = d * (x / d * c) + (x % d * c + half) := by ring
  rw [hx, Nat.mul_add_div hd]

/-- A remainder and a factor below `2 ^ 32` have a product that leaves room to round. -/
theorem remainder_mul_lt {d c : ℕ} (hd : 0 < d) (hd32 : d < u32) (hc : c < u32) (x : ℕ) :
    x % d * c + u32 ≤ u64 := by
  have hrem : x % d + 1 ≤ u32 := (Nat.mod_lt x hd).trans hd32
  calc x % d * c + u32 ≤ x % d * u32 + u32 := by
        apply Nat.add_le_add_right
        exact Nat.mul_le_mul_left _ hc.le
    _ = (x % d + 1) * u32 := by ring
    _ ≤ u32 * u32 := Nat.mul_le_mul_right _ hrem
    _ = u64 := by decide

section
variable {unit half f x t : ℕ}

theorem ticksFrom_fits (hunit : 0 < unit) (hunit32 : unit < u32) (hhalf : half < u32) (hf : f < u32)
    (hfit : (x * f + half) / unit < u64) : TicksFromFits unit half f x := by
  have hroom := remainder_mul_lt hunit hunit32 hf x
  rw [split_quotient hunit] at hfit
  constructor
  · exact (Nat.le_add_right _ _).trans_lt hfit
  · omega
  · omega
  · exact hfit

theorem ticksFrom_eq (hunit : 0 < unit) (h : TicksFromFits unit half f x) :
    ticksFrom unit half f x = (x * f + half) / unit := by
  unfold ticksFrom
  simp only
  rw [Nat.mod_eq_of_lt h.whole, Nat.mod_eq_of_lt h.product, Nat.mod_eq_of_lt h.rounded,
    Nat.mod_eq_of_lt h.sum, ← split_quotient hunit]

theorem fromTicks_fits (hf : 0 < f) (hf32 : f < u32) (hunit : unit < u32)
    (hfit : t * unit / f < u64) : FromTicksFits unit f t := by
  have hsplit := split_quotient hf t unit 0
  have hroom := remainder_mul_lt hf hf32 hunit t
  have hpos : 0 < u32 := by decide
  simp only [add_zero] at hsplit
  rw [hsplit] at hfit
  constructor
  · exact (Nat.le_add_right _ _).trans_lt hfit
  · omega
  · exact hfit

theorem fromTicks_eq (hf : 0 < f) (h : FromTicksFits unit f t) :
    fromTicks unit f t = t * unit / f := by
  have hsplit := split_quotient hf t unit 0
  simp only [add_zero] at hsplit
  unfold fromTicks
  simp only
  rw [Nat.mod_eq_of_lt h.whole, Nat.mod_eq_of_lt h.product, Nat.mod_eq_of_lt h.sum, hsplit]

theorem ticksFrom_exact (hunit : 0 < unit) (hunit32 : unit < u32) (hhalf : half < u32)
    (hf : f < u32) (x : ℕ) (hfit : (x * f + half) / unit < u64) :
    TicksFromFits unit half f x ∧ ticksFrom unit half f x = (x * f + half) / unit := by
  have h := ticksFrom_fits hunit hunit32 hhalf hf hfit
  exact ⟨h, ticksFrom_eq hunit h⟩

theorem fromTicks_exact (hf : 0 < f) (hf32 : f < u32) (hunit : unit < u32) (t : ℕ)
    (hfit : t * unit / f < u64) : FromTicksFits unit f t ∧ fromTicks unit f t = t * unit / f := by
  have h := fromTicks_fits hf hf32 hunit hfit
  exact ⟨h, fromTicks_eq hf h⟩

theorem ticksFrom_mono (hunit : 0 < unit) (hunit32 : unit < u32) (hhalf : half < u32) (hf : f < u32)
    {x y : ℕ} (hxy : x ≤ y) (hfit : (y * f + half) / unit < u64) :
    ticksFrom unit half f x ≤ ticksFrom unit half f y := by
  have hle : (x * f + half) / unit ≤ (y * f + half) / unit := by
    apply Nat.div_le_div_right
    exact Nat.add_le_add_right (Nat.mul_le_mul_right f hxy) half
  have hx := ticksFrom_exact hunit hunit32 hhalf hf x (hle.trans_lt hfit)
  have hy := ticksFrom_exact hunit hunit32 hhalf hf y hfit
  rw [hx.2, hy.2]
  exact hle

theorem fromTicks_mono (hf : 0 < f) (hf32 : f < u32) (hunit : unit < u32) {s t : ℕ} (hst : s ≤ t)
    (hfit : t * unit / f < u64) : fromTicks unit f s ≤ fromTicks unit f t := by
  have hle : s * unit / f ≤ t * unit / f := by
    apply Nat.div_le_div_right
    exact Nat.mul_le_mul_right unit hst
  have hs := fromTicks_exact hf hf32 hunit s (hle.trans_lt hfit)
  have ht := fromTicks_exact hf hf32 hunit t hfit
  rw [hs.2, ht.2]
  exact hle

/-- Converting there and back does not gain a tick. -/
theorem ticks_roundtrip (hunit : 0 < unit) (hhalf : half < unit) :
    (t * unit / f * f + half) / unit ≤ t := by
  have hle : t * unit / f * f ≤ t * unit := Nat.div_mul_le_self _ _
  apply Nat.le_of_lt_succ
  apply (Nat.div_lt_iff_lt_mul hunit).mpr
  calc t * unit / f * f + half < t * unit + unit := by omega
    _ = (t + 1) * unit := by ring

/-- With at least `unit` ticks in a second, converting back and forth loses at most one. -/
theorem time_roundtrip (hunit : 0 < unit) (hf : unit ≤ f) (hhalf : 2 * half = unit) :
    (x * f + half) / unit * unit / f = x ∨ (x * f + half) / unit * unit / f + 1 = x := by
  have hpos : 0 < f := hunit.trans_le hf
  have hdiv := Nat.div_add_mod (x * f + half) unit
  have hmod := Nat.mod_lt (x * f + half) hunit
  rw [Nat.mul_comm unit] at hdiv
  have hlo : x * f ≤ (x * f + half) / unit * unit + f := by omega
  have hhi : (x * f + half) / unit * unit < (x + 1) * f := by
    rw [Nat.succ_mul]
    omega
  have hlt : (x * f + half) / unit * unit / f < x + 1 := (Nat.div_lt_iff_lt_mul hpos).mpr hhi
  have hge : x ≤ (x * f + half) / unit * unit / f + 1 := by
    rw [← Nat.add_div_right _ hpos]
    exact (Nat.le_div_iff_mul_le hpos).mpr hlo
  omega

end

/-- For every frequency below `2 ^ 32` and every argument whose exact result has 64 bits,
no intermediate value wraps and the result is the exact one, rounded down from ticks and
to the nearest into ticks. So the conversions are monotone and lose less than one unit. -/
theorem conversions_exact {f : ℕ} (hf : 1 ≤ f) (hf32 : f < 2 ^ 32) :
    (∀ t < 2 ^ 64, t * 10 ^ 9 / f < 2 ^ 64 →
      FromTicksFits 1000000000 f t ∧ nsFromTicks f t = t * 10 ^ 9 / f) ∧
    (∀ t < 2 ^ 64, t * 10 ^ 6 / f < 2 ^ 64 →
      FromTicksFits 1000000 f t ∧ usFromTicks f t = t * 10 ^ 6 / f) ∧
    (∀ x < 2 ^ 64, (x * f + 5 * 10 ^ 8) / 10 ^ 9 < 2 ^ 64 →
      TicksFromFits 1000000000 500000000 f x ∧
        ticksFromNs f x = (x * f + 5 * 10 ^ 8) / 10 ^ 9) ∧
    (∀ x < 2 ^ 64, (x * f + 5 * 10 ^ 5) / 10 ^ 6 < 2 ^ 64 →
      TicksFromFits 1000000 500000 f x ∧ ticksFromUs f x = (x * f + 5 * 10 ^ 5) / 10 ^ 6) ∧
    (∀ s t, s ≤ t → t < 2 ^ 64 → t * 10 ^ 9 / f < 2 ^ 64 → nsFromTicks f s ≤ nsFromTicks f t) ∧
    (∀ s t, s ≤ t → t < 2 ^ 64 → t * 10 ^ 6 / f < 2 ^ 64 → usFromTicks f s ≤ usFromTicks f t) ∧
    (∀ x y, x ≤ y → y < 2 ^ 64 → (y * f + 5 * 10 ^ 8) / 10 ^ 9 < 2 ^ 64 →
      ticksFromNs f x ≤ ticksFromNs f y) ∧
    (∀ x y, x ≤ y → y < 2 ^ 64 → (y * f + 5 * 10 ^ 5) / 10 ^ 6 < 2 ^ 64 →
      ticksFromUs f x ≤ ticksFromUs f y) ∧
    (∀ t < 2 ^ 64, t * 10 ^ 6 / f < 2 ^ 64 → ticksFromUs f (usFromTicks f t) ≤ t) ∧
    (10 ^ 6 ≤ f → ∀ x < 2 ^ 64, (x * f + 5 * 10 ^ 5) / 10 ^ 6 < 2 ^ 64 →
      usFromTicks f (ticksFromUs f x) = x ∨ usFromTicks f (ticksFromUs f x) + 1 = x) := by
  have hns : (10 : ℕ) ^ 9 = 1000000000 ∧ 5 * 10 ^ 8 = 500000000 := by norm_num
  have hus : (10 : ℕ) ^ 6 = 1000000 ∧ 5 * 10 ^ 5 = 500000 := by norm_num
  have h32 : (2 : ℕ) ^ 32 = u32 := rfl
  have h64 : (2 : ℕ) ^ 64 = u64 := rfl
  rw [hns.1, hns.2, hus.1, hus.2, h64]
  rw [h32] at hf32
  refine ⟨?_, ?_, ?_, ?_, ?_, ?_, ?_, ?_, ?_, ?_⟩
  · intro t _ hfit
    exact fromTicks_exact hf hf32 (by decide) t hfit
  · intro t _ hfit
    exact fromTicks_exact hf hf32 (by decide) t hfit
  · intro x _ hfit
    exact ticksFrom_exact (by decide) (by decide) (by decide) hf32 x hfit
  · intro x _ hfit
    exact ticksFrom_exact (by decide) (by decide) (by decide) hf32 x hfit
  · intro s t hst _ hfit
    exact fromTicks_mono hf hf32 (by decide) hst hfit
  · intro s t hst _ hfit
    exact fromTicks_mono hf hf32 (by decide) hst hfit
  · intro x y hxy _ hfit
    exact ticksFrom_mono (by decide) (by decide) (by decide) hf32 hxy hfit
  · intro x y hxy _ hfit
    exact ticksFrom_mono (by decide) (by decide) (by decide) hf32 hxy hfit
  · intro t ht hfit
    have hle : (t * 1000000 / f * f + 500000) / 1000000 ≤ t :=
      ticks_roundtrip (by decide) (by decide)
    have hback := ticksFrom_exact (by decide) (by decide) (by decide) hf32 _ (hle.trans_lt ht)
    rw [usFromTicks, (fromTicks_exact hf hf32 (by decide) t hfit).2, ticksFromUs, hback.2]
    exact hle
  · intro hslow x hx hfit
    have hnear : (x * f + 500000) / 1000000 * 1000000 / f = x ∨
        (x * f + 500000) / 1000000 * 1000000 / f + 1 = x :=
      time_roundtrip (by decide) hslow (by decide)
    have hfit' : (x * f + 500000) / 1000000 * 1000000 / f < u64 := by omega
    rw [ticksFromUs, (ticksFrom_exact (by decide) (by decide) (by decide) hf32 x hfit).2,
      usFromTicks, (fromTicks_exact hf hf32 (by decide) _ hfit').2]
    exact hnear

/-- A counter at 62.5 MHz. -/
theorem conversions_exact_at_62500000 :
    nsFromTicks 62500000 (2 ^ 59) = 2 ^ 59 * 10 ^ 9 / 62500000 ∧
      ticksFromUs 62500000 (usFromTicks 62500000 (2 ^ 59)) ≤ 2 ^ 59 ∧
      (usFromTicks 62500000 (ticksFromUs 62500000 3) = 3 ∨
        usFromTicks 62500000 (ticksFromUs 62500000 3) + 1 = 3) := by
  obtain ⟨hns, -, -, -, -, -, -, -, hback, hforth⟩ :=
    conversions_exact (show 1 ≤ 62500000 by decide) (by decide)
  exact ⟨(hns (2 ^ 59) (by decide) (by decide)).2, hback (2 ^ 59) (by decide) (by decide),
    hforth (by decide) 3 (by decide) (by decide)⟩

end JanusRT
