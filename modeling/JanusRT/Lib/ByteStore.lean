import Mathlib.Tactic

/-!
# Little-endian words in a byte memory

A memory is a function from addresses to bytes. A 32-bit word at any address, aligned
or not, is read and written through its four bytes, so that words that overlap see
each other's bytes and words that do not leave each other alone.
-/
namespace ByteStore

/-- A byte-addressed memory. -/
abbrev Store : Type := ℕ → UInt8

/-- The word at `a`. -/
def rd32 (m : Store) (a : ℕ) : ℕ :=
  (m a).toNat + 2 ^ 8 * (m (a + 1)).toNat + 2 ^ 16 * (m (a + 2)).toNat +
    2 ^ 24 * (m (a + 3)).toNat

/-- The double word at `a`. -/
def rd64 (m : Store) (a : ℕ) : ℕ := rd32 m a + 2 ^ 32 * rd32 m (a + 4)

def wr8 (m : Store) (a : ℕ) (b : UInt8) : Store := Function.update m a b

/-- Storing the low 32 bits of `v` at `a`. -/
def wr32 (m : Store) (a v : ℕ) : Store := fun x =>
  if a ≤ x ∧ x < a + 4 then UInt8.ofNat (v / 2 ^ (8 * (x - a))) else m x

/-- Storing the low 64 bits of `v` at `a`. -/
def wr64 (m : Store) (a v : ℕ) : Store := fun x =>
  if a ≤ x ∧ x < a + 8 then UInt8.ofNat (v / 2 ^ (8 * (x - a))) else m x

/-- The `n` bytes at `a` replaced by those of `f`. -/
def splice (m : Store) (a n : ℕ) (f : ℕ → UInt8) : Store := fun x =>
  if a ≤ x ∧ x < a + n then f (x - a) else m x

variable {m m' : Store} {a c v : ℕ}

theorem rd32_lt (m : Store) (a : ℕ) : rd32 m a < 2 ^ 32 := by
  have h₀ := (m a).toNat_lt
  have h₁ := (m (a + 1)).toNat_lt
  have h₂ := (m (a + 2)).toNat_lt
  have h₃ := (m (a + 3)).toNat_lt
  unfold rd32
  omega

theorem rd32_congr (h : ∀ x, a ≤ x → x < a + 4 → m' x = m x) : rd32 m' a = rd32 m a := by
  unfold rd32
  rw [h a le_rfl (by omega), h (a + 1) (by omega) (by omega), h (a + 2) (by omega) (by omega),
    h (a + 3) (by omega) (by omega)]

/-- Equal words have equal bytes. -/
theorem rd32_eq_iff {b : ℕ} : rd32 m a = rd32 m' b ↔ ∀ i < 4, m (a + i) = m' (b + i) := by
  have hlt : ∀ (n : Store) x, (n x).toNat < 2 ^ 8 := fun n x => (n x).toNat_lt
  constructor
  · intro h
    have h₀ := hlt m a
    have h₁ := hlt m (a + 1)
    have h₂ := hlt m (a + 2)
    have h₀' := hlt m' b
    have h₁' := hlt m' (b + 1)
    have h₂' := hlt m' (b + 2)
    have h₃ := hlt m (a + 3)
    have h₃' := hlt m' (b + 3)
    unfold rd32 at h
    intro i hi
    apply UInt8.toNat_inj.mp
    obtain rfl | rfl | rfl | rfl : i = 0 ∨ i = 1 ∨ i = 2 ∨ i = 3 := by omega
    · rw [Nat.add_zero, Nat.add_zero]
      omega
    · omega
    · omega
    · omega
  · intro h
    unfold rd32
    rw [h 1 (by omega), h 2 (by omega), h 3 (by omega), show m a = m' b from h 0 (by omega)]

theorem rd64_lt (m : Store) (a : ℕ) : rd64 m a < 2 ^ 64 := by
  have hlow := rd32_lt m a
  have hhigh := rd32_lt m (a + 4)
  unfold rd64
  omega

theorem rd64_eq_iff {b : ℕ} : rd64 m a = rd64 m' b ↔ ∀ i < 8, m (a + i) = m' (b + i) := by
  have hlow : rd32 m a = rd32 m' b ↔ ∀ i < 4, m (a + i) = m' (b + i) := rd32_eq_iff
  have hhigh : rd32 m (a + 4) = rd32 m' (b + 4) ↔ ∀ i < 4, m (a + 4 + i) = m' (b + 4 + i) :=
    rd32_eq_iff
  have hparts : rd64 m a = rd64 m' b ↔ rd32 m a = rd32 m' b ∧ rd32 m (a + 4) = rd32 m' (b + 4) := by
    have hlt := rd32_lt m a
    have hlt' := rd32_lt m' b
    unfold rd64
    omega
  rw [hparts, hlow, hhigh]
  constructor
  · intro h i hi
    by_cases hi4 : i < 4
    · exact h.1 i hi4
    · have hget := h.2 (i - 4) (by omega)
      rw [Nat.add_assoc, Nat.add_assoc, Nat.add_sub_cancel' (by omega)] at hget
      exact hget
  · intro h
    refine ⟨fun i hi => h i (by omega), ?_⟩
    intro i hi
    rw [Nat.add_assoc, Nat.add_assoc]
    exact h (4 + i) (by omega)

theorem wr32_byte {i : ℕ} (hi : i < 4) :
    (wr32 m a v (a + i)).toNat = v / 2 ^ (8 * i) % 2 ^ 8 := by
  rw [wr32, if_pos ⟨by omega, by omega⟩, Nat.add_sub_cancel_left]
  exact UInt8.toNat_ofNat'

theorem wr32_of_outside {x : ℕ} (h : x < a ∨ a + 4 ≤ x) : wr32 m a v x = m x :=
  if_neg (by omega)

@[simp] theorem rd32_wr32_same (m : Store) (a v : ℕ) : rd32 (wr32 m a v) a = v % 2 ^ 32 := by
  have h₀ := wr32_byte (m := m) (a := a) (v := v) (show 0 < 4 by decide)
  have h₁ := wr32_byte (m := m) (a := a) (v := v) (show 1 < 4 by decide)
  have h₂ := wr32_byte (m := m) (a := a) (v := v) (show 2 < 4 by decide)
  have h₃ := wr32_byte (m := m) (a := a) (v := v) (show 3 < 4 by decide)
  unfold rd32
  rw [h₁, h₂, h₃]
  rw [Nat.add_zero] at h₀
  rw [h₀]
  omega

theorem rd32_wr32_apart (h : a + 4 ≤ c ∨ c + 4 ≤ a) : rd32 (wr32 m a v) c = rd32 m c :=
  rd32_congr fun x hx hx' => wr32_of_outside (by omega)

/-- A word of zeros stays one when zeros are stored, wherever they go. -/
theorem rd32_wr32_zero (h : rd32 m a = 0) : rd32 (wr32 m c 0) a = 0 := by
  have hbyte : ∀ x, (m x).toNat = 0 → (wr32 m c 0 x).toNat = 0 := by
    intro x hx
    unfold wr32
    split_ifs
    · rw [Nat.zero_div]
      rfl
    · exact hx
  unfold rd32 at h ⊢
  rw [hbyte _ (by omega), hbyte _ (by omega), hbyte _ (by omega), hbyte _ (by omega)]
  rfl

/-! ## Regions -/

section
variable {n k : ℕ} {f g : ℕ → UInt8}

@[simp] theorem splice_zero (m : Store) (a : ℕ) (f : ℕ → UInt8) : splice m a 0 f = m := by
  funext x
  exact if_neg (by omega)

theorem splice_byte {i : ℕ} (hi : i < n) : splice m a n f (a + i) = f i := by
  rw [splice, if_pos (by omega), Nat.add_sub_cancel_left]

theorem splice_of_outside {x : ℕ} (h : x < a ∨ a + n ≤ x) : splice m a n f x = m x :=
  if_neg (by omega)

theorem splice_congr (h : ∀ i < n, f i = g i) : splice m a n f = splice m a n g := by
  funext x
  unfold splice
  split_ifs with hx
  · exact h _ (by omega)
  · rfl

/-- Bytes written behind one another are one region. -/
theorem splice_splice (m : Store) (a k n : ℕ) (f : ℕ → UInt8) :
    splice (splice m a k f) (a + k) n (fun i => f (k + i)) = splice m a (k + n) f := by
  funext x
  unfold splice
  by_cases hback : a + k ≤ x ∧ x < a + k + n
  · have hshift : k + (x - (a + k)) = x - a := by omega
    rw [if_pos hback, if_pos (by omega)]
    exact congrArg f hshift
  · rw [if_neg hback]
    by_cases hfront : a ≤ x ∧ x < a + k
    · rw [if_pos hfront, if_pos (by omega)]
    · rw [if_neg hfront, if_neg (by omega)]

theorem wr8_eq_splice (m : Store) (a : ℕ) (b : UInt8) : wr8 m a b = splice m a 1 (fun _ => b) := by
  funext x
  rw [wr8, Function.update_apply, splice]
  congr 1
  exact propext (by omega)

theorem wr64_eq_splice (m : Store) (a v : ℕ) :
    wr64 m a v = splice m a 8 (fun i => UInt8.ofNat (v / 2 ^ (8 * i))) := rfl

/-- The bytes of a double word are those it was read from. -/
theorem byte_rd64 {i : ℕ} (hi : i < 8) : UInt8.ofNat (rd64 m a / 2 ^ (8 * i)) = m (a + i) := by
  have h₀ := (m a).toNat_lt
  have h₁ := (m (a + 1)).toNat_lt
  have h₂ := (m (a + 2)).toNat_lt
  have h₃ := (m (a + 3)).toNat_lt
  have h₄ := (m (a + 4)).toNat_lt
  have h₅ := (m (a + 5)).toNat_lt
  have h₆ := (m (a + 6)).toNat_lt
  have h₇ := (m (a + 7)).toNat_lt
  apply UInt8.toNat_inj.mp
  rw [UInt8.toNat_ofNat']
  unfold rd64 rd32
  simp only [Nat.add_assoc, Nat.reduceAdd]
  interval_cases i
  · simp only [Nat.mul_zero, pow_zero, Nat.div_one, Nat.add_zero]
    omega
  all_goals omega

/-- The `n` bytes at `s` written to `d`. -/
def copy (m : Store) (d s n : ℕ) : Store := splice m d n (fun i => m (s + i))

theorem copy_byte {d s i : ℕ} (hi : i < n) : copy m d s n (d + i) = m (s + i) := splice_byte hi

theorem copy_of_outside {d s x : ℕ} (h : x < d ∨ d + n ≤ x) : copy m d s n x = m x :=
  splice_of_outside h

theorem copy_zero (m : Store) (d s : ℕ) : copy m d s 0 = m := splice_zero m d _

theorem copy_self (m : Store) (a n : ℕ) : copy m a a n = m := by
  funext x
  unfold copy splice
  split_ifs with hx
  · exact congrArg m (Nat.add_sub_cancel' hx.1)
  · rfl

theorem wr8_eq_copy (m : Store) (d s : ℕ) : wr8 m d (m s) = copy m d s 1 := by
  rw [wr8_eq_splice, copy]
  apply splice_congr
  intro i hi
  rw [Nat.lt_one_iff.mp hi, Nat.add_zero]

theorem wr64_eq_copy (m : Store) (d s : ℕ) : wr64 m d (rd64 m s) = copy m d s 8 := by
  rw [wr64_eq_splice, copy]
  apply splice_congr
  intro i hi
  exact byte_rd64 hi

/-- Copying upwards in two parts. What the first part writes is not read by the second one
when the destination is below the source or above all of it. -/
theorem copy_copy {d s : ℕ} (h : d ≤ s ∨ s + (k + n) ≤ d) :
    copy (copy m d s k) (d + k) (s + k) n = copy m d s (k + n) := by
  have hread : ∀ i < n, copy m d s k (s + k + i) = m (s + (k + i)) := by
    intro i hi
    rw [copy, splice_of_outside (by omega), Nat.add_assoc]
  rw [copy, splice_congr hread]
  exact splice_splice m d k n (fun i => m (s + i))

/-- The `n` bytes at `d` set to `b`. -/
def fill (m : Store) (d : ℕ) (b : UInt8) (n : ℕ) : Store := splice m d n (fun _ => b)

theorem fill_byte {d i : ℕ} {b : UInt8} (hi : i < n) : fill m d b n (d + i) = b := splice_byte hi

theorem fill_of_outside {d x : ℕ} {b : UInt8} (h : x < d ∨ d + n ≤ x) : fill m d b n x = m x :=
  splice_of_outside h

theorem fill_zero (m : Store) (d : ℕ) (b : UInt8) : fill m d b 0 = m := splice_zero m d _

theorem fill_fill (m : Store) (d : ℕ) (b : UInt8) (k n : ℕ) :
    fill (fill m d b k) (d + k) b n = fill m d b (k + n) :=
  splice_splice m d k n (fun _ => b)

theorem wr8_eq_fill (m : Store) (d : ℕ) (b : UInt8) : wr8 m d b = fill m d b 1 :=
  wr8_eq_splice m d b

end

end ByteStore
