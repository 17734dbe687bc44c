import JanusRT.Lib.ByteStore

/-!
# Banks of one-bit registers

A bank spreads the bits of its users over 32-bit words, so that none of them can be written without
its neighbours. Reading a word, setting or clearing one bit of it and writing it back changes the
bit of one user, and nothing else in this bank or in another.
-/
namespace RegisterBank
open ByteStore

/-- Bit `i` of the bank at `a`. -/
def bitAt (m : Store) (a i : ℕ) : Bool := (rd32 m (a + 4 * (i / 32))).testBit (i % 32)

/-- A word is read, the bits of the mask are set, and it is written back. -/
def orWord (m : Store) (a mask : ℕ) : Store := wr32 m a (rd32 m a ||| mask)

/-- A word is read, the bits of the mask are cleared, and it is written back. -/
def andNotWord (m : Store) (a mask : ℕ) : Store := wr32 m a (rd32 m a &&& (2 ^ 32 - 1 - mask))

section Word
variable {m : Store} {a b x : ℕ}

theorem orWord_outside {mask : ℕ} (h : x < b ∨ b + 4 ≤ x) : orWord m b mask x = m x :=
  wr32_of_outside h

theorem andNotWord_outside {mask : ℕ} (h : x < b ∨ b + 4 ≤ x) : andNotWord m b mask x = m x :=
  wr32_of_outside h

/-- A bit is one of its word's four bytes. -/
theorem bitAt_congr {m' : Store} {j : ℕ}
    (h : ∀ x, a + 4 * (j / 32) ≤ x → x < a + 4 * (j / 32) + 4 → m' x = m x) :
    bitAt m' a j = bitAt m a j := by
  rw [bitAt, rd32_congr h, bitAt]

theorem bitAt_orWord_apart {mask j : ℕ} (h : b + 4 ≤ a + 4 * (j / 32) ∨ a + 4 * (j / 32) + 4 ≤ b) :
    bitAt (orWord m b mask) a j = bitAt m a j :=
  bitAt_congr fun _ _ _ => orWord_outside (by omega)

theorem bitAt_andNotWord_apart {mask j : ℕ}
    (h : b + 4 ≤ a + 4 * (j / 32) ∨ a + 4 * (j / 32) + 4 ≤ b) :
    bitAt (andNotWord m b mask) a j = bitAt m a j :=
  bitAt_congr fun _ _ _ => andNotWord_outside (by omega)

theorem bitAt_wr8_apart {v : UInt8} {j : ℕ}
    (h : b + 1 ≤ a + 4 * (j / 32) ∨ a + 4 * (j / 32) + 4 ≤ b) :
    bitAt (wr8 m b v) a j = bitAt m a j :=
  bitAt_congr fun _ _ _ => Function.update_of_ne (by omega) _ _

/-- The word of bit `i` is written. -/
theorem bitAt_wr32 (m : Store) (a i j v : ℕ) : bitAt (wr32 m (a + 4 * (i / 32)) v) a j =
    if j / 32 = i / 32 then v.testBit (j % 32) else bitAt m a j := by
  have hmod : j % 32 < 32 := Nat.mod_lt _ (by decide)
  split_ifs with hj
  · rw [bitAt, hj, rd32_wr32_same, Nat.testBit_mod_two_pow, decide_eq_true hmod, Bool.true_and]
  · rw [bitAt, rd32_wr32_apart (by omega), bitAt]

end Word

section Bit
variable (m : Store) (a i j : ℕ)

theorem testBit_one_shiftLeft (b k : ℕ) : (1 <<< b : ℕ).testBit k = decide (k = b) := by
  rw [Nat.one_shiftLeft, Nat.testBit_two_pow]
  exact decide_eq_decide.mpr eq_comm

theorem eq_iff_word_and_bit : j = i ↔ j / 32 = i / 32 ∧ j % 32 = i % 32 := by omega

theorem bitAt_orWord : bitAt (orWord m (a + 4 * (i / 32)) (1 <<< (i % 32))) a j =
    if j = i then true else bitAt m a j := by
  rw [orWord, bitAt_wr32]
  by_cases hword : j / 32 = i / 32
  · rw [if_pos hword, Nat.testBit_or, testBit_one_shiftLeft, ← hword]
    by_cases hbit : j % 32 = i % 32
    · rw [decide_eq_true hbit, Bool.or_true, if_pos ((eq_iff_word_and_bit i j).mpr ⟨hword, hbit⟩)]
    · rw [decide_eq_false hbit, Bool.or_false, if_neg (by omega)]
      rfl
  · rw [if_neg hword, if_neg (by omega)]

theorem bitAt_andNotWord : bitAt (andNotWord m (a + 4 * (i / 32)) (1 <<< (i % 32))) a j =
    if j = i then false else bitAt m a j := by
  have hmod : j % 32 < 32 := Nat.mod_lt _ (by decide)
  have hlt : 1 <<< (i % 32) < 2 ^ 32 := by
    rw [Nat.one_shiftLeft]
    exact Nat.pow_lt_pow_right (by decide) (Nat.mod_lt _ (by decide))
  have hmask : 2 ^ 32 - 1 - 1 <<< (i % 32) = 2 ^ 32 - (1 <<< (i % 32) + 1) := by omega
  rw [andNotWord, bitAt_wr32]
  by_cases hword : j / 32 = i / 32
  · rw [if_pos hword, Nat.testBit_and, hmask, Nat.testBit_two_pow_sub_succ hlt,
      testBit_one_shiftLeft, decide_eq_true hmod, Bool.true_and, ← hword]
    by_cases hbit : j % 32 = i % 32
    · rw [decide_eq_true hbit, Bool.not_true, Bool.and_false,
        if_pos ((eq_iff_word_and_bit i j).mpr ⟨hword, hbit⟩)]
    · rw [decide_eq_false hbit, Bool.not_false, Bool.and_true, if_neg (by omega)]
      rfl
  · rw [if_neg hword, if_neg (by omega)]

end Bit

end RegisterBank
