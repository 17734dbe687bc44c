import JanusRT.Lib.ByteStore

/-!
# `memcmp`

Bytes until the right pointer is aligned, then double words, then the bytes that are left.
The sign of the result is to be that of the first difference. Of two double words the code
takes the sign of the difference, in which the last byte weighs most.
-/
namespace JanusRT.Memcmp

open ByteStore

/-! ## The code -/

/-- The last loop. -/
def tailLoop (m : Store) (l r : ℕ) : ℕ → ℤ
  | 0 => 0
  | count + 1 =>
    let diff : ℤ := (m l).toNat - (m r).toNat
    if diff ≠ 0 then diff else tailLoop m (l + 1) (r + 1) count

/-- The double words; their difference is taken as an `s64`. -/
def wordLoop (m : Store) (l r count : ℕ) : ℤ :=
  if 8 ≤ count then
    let ldiff : ℤ := ((rd64 m l : ℤ) - rd64 m r).bmod (2 ^ 64)
    if ldiff ≠ 0 then (if ldiff < 0 then -1 else 1) else wordLoop m (l + 8) (r + 8) (count - 8)
  else tailLoop m l r count
termination_by count

/-- The first loop, until `r` is aligned. -/
def headLoop (m : Store) (l r : ℕ) : ℕ → ℤ
  | 0 => wordLoop m l r 0
  | count + 1 =>
    if r % 8 ≠ 0 then
      let diff : ℤ := (m l).toNat - (m r).toNat
      if diff ≠ 0 then diff else headLoop m (l + 1) (r + 1) count
    else wordLoop m l r (count + 1)

def memcmp (m : Store) (l r count : ℕ) : ℤ :=
  if count = 0 ∨ l = r then 0 else headLoop m l r count

/-! ## The order of byte regions -/

/-- The regions at `l` and `r` agree in their first `count` bytes. -/
def Agree (m : Store) (l r count : ℕ) : Prop := ∀ i < count, m (l + i) = m (r + i)

/-- They differ at `i` for the first time. -/
def FirstDiff (m : Store) (l r i : ℕ) : Prop := Agree m l r i ∧ m (l + i) ≠ m (r + i)

/-- What a comparison should return: zero for equal regions, else the sign of the first
difference. -/
structure Compares (m : Store) (l r count : ℕ) (v : ℤ) : Prop where
  eq : v = 0 ↔ Agree m l r count
  sign : ∀ i < count, FirstDiff m l r i →
    v.sign = ((m (l + i)).toNat - (m (r + i)).toNat : ℤ).sign

/-- The difference of the double words at `a` and `b` is negative as an `s64`. -/
def WordBelow (m : Store) (a b : ℕ) : Prop :=
  (rd64 m a < rd64 m b ∧ rd64 m b ≤ rd64 m a + 2 ^ 63) ∨ rd64 m b + 2 ^ 63 ≤ rd64 m a

/-- When the first difference lies in an aligned double word of the right region, the
difference of the double words has its sign. -/
def WordsOrdered (m : Store) (l r count : ℕ) : Prop :=
  ∀ i < count, FirstDiff m l r i →
    ∀ k, (r + k) % 8 = 0 → k ≤ i → i < k + 8 → k + 8 ≤ count →
      (WordBelow m (l + k) (r + k) ↔ m (l + i) < m (r + i))

section
variable {m : Store} {l r count n i : ℕ} {v : ℤ}

theorem exists_firstDiff (h : ¬ Agree m l r count) : ∃ i < count, FirstDiff m l r i := by
  classical
  have hex : ∃ i, i < count ∧ m (l + i) ≠ m (r + i) := by
    unfold Agree at h
    push Not at h
    exact h
  refine ⟨Nat.find hex, (Nat.find_spec hex).1, ?_, (Nat.find_spec hex).2⟩
  intro j hj
  have hmin := Nat.find_min hex hj
  push Not at hmin
  exact hmin (hj.trans (Nat.find_spec hex).1)

theorem FirstDiff.unique {j : ℕ} (hi : FirstDiff m l r i) (hj : FirstDiff m l r j) : i = j := by
  obtain ⟨hbefore, hdiff⟩ := hi
  obtain ⟨hbefore', hdiff'⟩ := hj
  by_contra hne
  obtain hlt | hlt := Nat.lt_or_gt_of_ne hne
  · exact hdiff (hbefore' i hlt)
  · exact hdiff' (hbefore j hlt)

theorem FirstDiff.not_agree (h : FirstDiff m l r i) (hi : i < count) : ¬ Agree m l r count :=
  fun hagree => h.2 (hagree i hi)

/-- Equal bytes in front do not matter. -/
theorem agree_add (h : Agree m l r n) :
    Agree m l r (n + count) ↔ Agree m (l + n) (r + n) count := by
  constructor
  · intro hall i hi
    rw [Nat.add_assoc, Nat.add_assoc]
    exact hall (n + i) (by omega)
  · intro hrest i hi
    by_cases hin : i < n
    · exact h i hin
    · have hget := hrest (i - n) (by omega)
      rw [Nat.add_assoc, Nat.add_assoc, Nat.add_sub_cancel' (by omega)] at hget
      exact hget

theorem firstDiff_add (h : Agree m l r n) :
    FirstDiff m l r (n + i) ↔ FirstDiff m (l + n) (r + n) i := by
  rw [FirstDiff, FirstDiff, agree_add h, Nat.add_assoc, Nat.add_assoc]

theorem FirstDiff.le (h : Agree m l r n) (hi : FirstDiff m l r i) : n ≤ i := by
  by_contra hlt
  exact hi.2 (h i (by omega))

theorem compares_add (h : Agree m l r n) :
    Compares m l r (n + count) v ↔ Compares m (l + n) (r + n) count v := by
  constructor
  · intro hc
    refine ⟨hc.eq.trans (agree_add h), ?_⟩
    intro i hi hdiff
    have hsign := hc.sign (n + i) (by omega) ((firstDiff_add h).mpr hdiff)
    rw [← Nat.add_assoc, ← Nat.add_assoc] at hsign
    exact hsign
  · intro hc
    refine ⟨hc.eq.trans (agree_add h).symm, ?_⟩
    intro i hi hdiff
    obtain ⟨j, rfl⟩ := Nat.exists_eq_add_of_le (hdiff.le h)
    have hsign := hc.sign j (by omega) ((firstDiff_add h).mp hdiff)
    rw [Nat.add_assoc, Nat.add_assoc] at hsign
    exact hsign

/-- Nor do they for the double words, if they do not end inside one. -/
theorem wordsOrdered_add (h : Agree m l r n) (hn : ∀ k < n, (r + k) % 8 = 0 → k + 8 ≤ n) :
    WordsOrdered m l r (n + count) ↔ WordsOrdered m (l + n) (r + n) count := by
  constructor
  · intro hw i hi hdiff k hk hki hik hkc
    have hword := hw (n + i) (by omega) ((firstDiff_add h).mpr hdiff) (n + k)
      (by rw [← Nat.add_assoc]; exact hk) (by omega) (by omega) (by omega)
    simp only [← Nat.add_assoc] at hword
    exact hword
  · intro hw i hi hdiff k hk hki hik hkc
    have hni := hdiff.le h
    have hnk : n ≤ k := by
      by_contra hlt
      have hend := hn k (by omega) hk
      omega
    obtain ⟨j, rfl⟩ := Nat.exists_eq_add_of_le hni
    obtain ⟨k', rfl⟩ := Nat.exists_eq_add_of_le hnk
    have hword := hw j (by omega) ((firstDiff_add h).mp hdiff) k'
      (by rw [Nat.add_assoc]; exact hk) (by omega) (by omega) (by omega)
    simp only [Nat.add_assoc] at hword
    exact hword

/-- A value for regions that differ. -/
theorem compares_of_firstDiff (hi : i < count) (h : FirstDiff m l r i) (hv : v ≠ 0) :
    Compares m l r count v ↔ v.sign = ((m (l + i)).toNat - (m (r + i)).toNat : ℤ).sign := by
  constructor
  · exact fun hc => hc.sign i hi h
  · intro hsign
    refine ⟨iff_of_false hv (h.not_agree hi), ?_⟩
    intro j hj hdiff
    rw [hdiff.unique h]
    exact hsign

theorem compares_zero (h : Agree m l r count) : Compares m l r count 0 :=
  ⟨iff_of_true rfl h, fun _ hi hdiff => absurd h (hdiff.not_agree hi)⟩

theorem byteDiff_eq_zero : ((m l).toNat - (m r).toNat : ℤ) = 0 ↔ m l = m r := by
  rw [sub_eq_zero, Nat.cast_inj, UInt8.toNat_inj]

theorem firstDiff_zero (h : m l ≠ m r) : FirstDiff m l r 0 := ⟨by simp [Agree], h⟩

theorem agree_one (h : m l = m r) : Agree m l r 1 := by
  intro i hi
  obtain rfl : i = 0 := by omega
  exact h

/-! ## The loops -/

theorem tailLoop_compares : Compares m l r count (tailLoop m l r count) := by
  induction count generalizing l r with
  | zero => exact compares_zero (by simp [Agree])
  | succ count ih =>
    rw [tailLoop]
    by_cases heq : m l = m r
    · rw [if_neg (not_not.mpr (byteDiff_eq_zero.mpr heq)), Nat.add_comm,
        compares_add (agree_one heq)]
      exact ih
    · have hdiff : ((m l).toNat - (m r).toNat : ℤ) ≠ 0 := fun h => heq (byteDiff_eq_zero.mp h)
      rw [if_pos hdiff, compares_of_firstDiff (Nat.succ_pos count) (firstDiff_zero heq) hdiff]
      rfl

theorem ldiff_eq_zero : ((rd64 m l : ℤ) - rd64 m r).bmod (2 ^ 64) = 0 ↔ Agree m l r 8 := by
  have hl := rd64_lt m l
  have hr := rd64_lt m r
  rw [Agree, ← rd64_eq_iff]
  constructor
  · intro h
    have hmod := Int.dvd_of_bmod_eq_zero h
    omega
  · intro h
    rw [h, sub_self]
    rfl

theorem ldiff_neg : ((rd64 m l : ℤ) - rd64 m r).bmod (2 ^ 64) < 0 ↔ WordBelow m l r := by
  have hl := rd64_lt m l
  have hr := rd64_lt m r
  unfold WordBelow
  rw [Int.bmod_def]
  split_ifs <;> omega

theorem sign_byteDiff (h : m l ≠ m r) :
    ((m l).toNat - (m r).toNat : ℤ).sign = if m l < m r then -1 else 1 := by
  have hne : (m l).toNat ≠ (m r).toNat := fun hn => h (UInt8.toNat_inj.mp hn)
  split_ifs with hlt
  · have := UInt8.lt_iff_toNat_lt.mp hlt
    exact Int.sign_eq_neg_one_of_neg (by omega)
  · have := mt UInt8.lt_iff_toNat_lt.mpr hlt
    exact Int.sign_eq_one_of_pos (by omega)

theorem wordLoop_compares (hr : r % 8 = 0 ∨ count = 0) :
    Compares m l r count (wordLoop m l r count) ↔ WordsOrdered m l r count := by
  induction count using Nat.strong_induction_on generalizing l r with
  | _ count ih =>
    rw [wordLoop]
    by_cases h8 : 8 ≤ count
    · have halign : r % 8 = 0 := hr.resolve_right (by omega)
      rw [if_pos h8]
      dsimp only
      obtain ⟨rest, rfl⟩ := Nat.exists_eq_add_of_le h8
      by_cases hagree : Agree m l r 8
      · rw [if_neg (not_not.mpr (ldiff_eq_zero.mpr hagree)), compares_add hagree,
          wordsOrdered_add hagree (by omega), Nat.add_sub_cancel_left]
        exact ih rest (by omega) (.inl (by omega))
      · obtain ⟨i, hi, hdiff⟩ := exists_firstDiff hagree
        rw [if_pos (mt ldiff_eq_zero.mp hagree)]
        have hv : (if ((rd64 m l : ℤ) - rd64 m r).bmod (2 ^ 64) < 0 then (-1 : ℤ) else 1) ≠ 0 := by
          split_ifs <;> decide
        rw [compares_of_firstDiff (by omega) hdiff hv, sign_byteDiff hdiff.2]
        -- the double word at the front is the one with the difference
        have hfront : WordsOrdered m l r (8 + rest) ↔
            (WordBelow m l r ↔ m (l + i) < m (r + i)) := by
          constructor
          · intro hw
            exact hw i (by omega) hdiff 0 halign (by omega) (by omega) (by omega)
          · intro hw j hj hdiff' k hk hkj hjk hkc
            obtain rfl := hdiff'.unique hdiff
            obtain rfl : k = 0 := by omega
            exact hw
        rw [hfront, ← ldiff_neg]
        generalize ((rd64 m l : ℤ) - rd64 m r).bmod (2 ^ 64) = ldiff
        split_ifs with hneg hlt hlt <;> simp [hneg, hlt]
    · rw [if_neg h8]
      apply iff_of_true tailLoop_compares
      intro i hi hdiff k hk hki hik hkc
      omega

theorem headLoop_compares :
    Compares m l r count (headLoop m l r count) ↔ WordsOrdered m l r count := by
  induction count generalizing l r with
  | zero => exact wordLoop_compares (.inr rfl)
  | succ count ih =>
    rw [headLoop]
    by_cases halign : r % 8 = 0
    · rw [if_neg (not_not.mpr halign)]
      exact wordLoop_compares (.inl halign)
    · rw [if_pos halign]
      dsimp only
      by_cases heq : m l = m r
      · rw [if_neg (not_not.mpr (byteDiff_eq_zero.mpr heq)), Nat.add_comm,
          compares_add (agree_one heq), wordsOrdered_add (agree_one heq)]
        · exact ih
        · intro k hk
          obtain rfl : k = 0 := by omega
          exact fun h => absurd h halign
      · have hdiff : ((m l).toNat - (m r).toNat : ℤ) ≠ 0 := fun h => heq (byteDiff_eq_zero.mp h)
        rw [if_pos hdiff, compares_of_firstDiff (Nat.succ_pos count) (firstDiff_zero heq) hdiff]
        apply iff_of_true rfl
        intro i hi hdiff' k hk hki
        obtain rfl := hdiff'.unique (firstDiff_zero heq)
        obtain rfl : k = 0 := by omega
        exact absurd hk halign

end

/-- `memcmp` compares bytes exactly when the difference of the two double words that hold the
first difference has its sign. -/
theorem memcmp_iff (m : Store) (l r count : ℕ) :
    Compares m l r count (memcmp m l r count) ↔ WordsOrdered m l r count := by
  unfold memcmp
  by_cases h : count = 0 ∨ l = r
  · have hagree : Agree m l r count := by
      intro i hi
      obtain rfl | rfl := h
      · exact absurd hi (Nat.not_lt_zero i)
      · rfl
    rw [if_pos h]
    exact iff_of_true (compares_zero hagree) fun i hi hdiff => absurd hagree (hdiff.not_agree hi)
  · rw [if_neg h]
    exact headLoop_compares

/-- At `rhs = 8`, aligned, the bytes 1, 0, 0, 0, 0, 0, 0, 0 stand against 0, 2, 0, 0, 0, 0, 0, 0. -/
def firstAbove : Store := fun a => if a = 16 then 1 else if a = 9 then 2 else 0

/-- The first byte is above, the result is negative. -/
theorem memcmp_firstAbove : memcmp firstAbove 16 8 8 = -1 ∧ firstAbove 8 < firstAbove 16 ∧
    ¬ Compares firstAbove 16 8 8 (memcmp firstAbove 16 8 8) := by
  have hrun : memcmp firstAbove 16 8 8 = -1 := by
    simp [memcmp, headLoop, wordLoop, firstAbove, rd64, rd32]
  refine ⟨hrun, by decide, ?_⟩
  intro h
  have hsign := h.sign 0 (by decide) (firstDiff_zero (by decide))
  rw [hrun] at hsign
  exact absurd hsign (by decide)

end JanusRT.Memcmp
