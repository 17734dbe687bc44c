import Mathlib.Data.Nat.Bitwise
import Mathlib.Tactic.NormNum

/-!
# Bit fields of natural numbers

Masks with one run of set bits are division and remainder by powers of two, and a
number that equals its own masked part has no bit outside the mask.
-/
namespace Masks

/-- The mask of the bits `lo ≤ i < hi`. -/
def field (lo hi : ℕ) : ℕ := (2 ^ (hi - lo) - 1) <<< lo

theorem testBit_field (lo hi i : ℕ) : (field lo hi).testBit i = (decide (lo ≤ i) && decide (i < hi)) := by
  rw [field, Nat.testBit_shiftLeft, Nat.testBit_two_pow_sub_one]
  by_cases h : lo ≤ i
  · have hiff : i - lo < hi - lo ↔ i < hi := by omega
    simp [h, hiff]
  · simp [h]

theorem and_field (x lo hi : ℕ) :
    x &&& field lo hi = x % 2 ^ hi / 2 ^ lo * 2 ^ lo := by
  apply Nat.eq_of_testBit_eq
  intro i
  rw [Nat.testBit_and, testBit_field, Nat.testBit_mul_two_pow, Nat.testBit_div_two_pow,
    Nat.testBit_mod_two_pow]
  by_cases hi' : lo ≤ i
  · have hcancel : i - lo + lo = i := Nat.sub_add_cancel hi'
    simp only [hi', decide_true, Bool.true_and, hcancel]
    exact Bool.and_comm _ _
  · simp [hi']

/-- Two fields of one word can be read back separately. -/
theorem and_or_of_disjoint {x y m : ℕ} (hx : x &&& m = x) (hy : y &&& m = 0) :
    (x ||| y) &&& m = x := by
  rw [Nat.and_or_distrib_right, hx, hy, Nat.or_zero]

/-- A masked number has nothing in common with a disjoint mask. -/
theorem and_eq_zero_of_and_eq {x m k : ℕ} (hx : x &&& m = x) (hmk : m &&& k = 0) :
    x &&& k = 0 := by
  rw [← hx, Nat.and_assoc, hmk, Nat.and_zero]

/-- The parts of a word that is put together from disjoint ones add up. -/
theorem or_eq_add {x y k : ℕ} (hx : 2 ^ k ∣ x) (hy : y < 2 ^ k) : x ||| y = x + y := by
  obtain ⟨a, rfl⟩ := hx
  exact (Nat.two_pow_add_eq_or_of_lt hy a).symm

theorem or_shiftLeft {x k : ℕ} (hx : x < 2 ^ k) (y : ℕ) : x ||| y <<< k = x + 2 ^ k * y := by
  rw [Nat.shiftLeft_eq, Nat.mul_comm y, Nat.or_comm, or_eq_add (Nat.dvd_mul_right _ _) hx,
    Nat.add_comm]

/-- The byte of `x` from bit `lo` on. -/
def byte (x lo : ℕ) : ℕ := x / 2 ^ lo % 2 ^ 8

theorem byte_lt (x lo : ℕ) : byte x lo < 2 ^ 8 := Nat.mod_lt _ (by decide)

theorem shiftRight_and (x lo : ℕ) : (x >>> lo) &&& 0xFF = byte x lo := by
  rw [Nat.shiftRight_eq_div_pow, byte]
  exact Nat.and_two_pow_sub_one_eq_mod _ 8

end Masks
