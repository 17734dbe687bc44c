import JanusRT.Alloc
import JanusRT.Lib.Masks

/-!
# `memcpy` and `memset`

Bytes until the destination is aligned, then double words, then the bytes that are left.
The three loops share one count, so a loop hands over the place it has reached and the
bytes still to come. Each writes a region that continues the one in front of it.
-/
namespace JanusRT.MemCopy

open ByteStore

/-! ## The code -/

/-- The last loop of `memcpy`. -/
def copyTail (m : Store) (d s : ℕ) : ℕ → Store
  | 0 => m
  | count + 1 => copyTail (wr8 m d (m s)) (d + 1) (s + 1) count

/-- The double words. The source need not be aligned. -/
def copyWords (m : Store) (dd ss count : ℕ) : Store :=
  if 8 ≤ count then copyWords (wr64 m dd (rd64 m ss)) (dd + 8) (ss + 8) (count - 8)
  else copyTail m dd ss count
termination_by count

/-- The first loop, until `d` is aligned. -/
def copyHead (m : Store) (d s : ℕ) : ℕ → Store
  | 0 => copyWords m d s 0
  | count + 1 =>
    if d % 8 ≠ 0 then copyHead (wr8 m d (m s)) (d + 1) (s + 1) count
    else copyWords m d s (count + 1)

/-- The returned pointer and the memory. -/
def memcpy (m : Store) (dest src count : ℕ) : ℕ × Store :=
  if count = 0 ∨ dest = src then (dest, m) else (dest, copyHead m dest src count)

/-- The byte in all eight places, as `memset` puts it together. -/
def broadcast (c : UInt8) : UInt64 :=
  let lc := c.toUInt64
  let lc := lc ||| lc <<< 8
  let lc := lc ||| lc <<< 16
  lc ||| lc <<< 32

/-- The last loop of `memset`. -/
def fillTail (m : Store) (d : ℕ) (c : UInt8) : ℕ → Store
  | 0 => m
  | count + 1 => fillTail (wr8 m d c) (d + 1) c count

/-- The double words. The test in front of the loop is that of the loop. -/
def fillWords (m : Store) (ld : ℕ) (c : UInt8) (count : ℕ) : Store :=
  if 8 ≤ count then fillWords (wr64 m ld (broadcast c).toNat) (ld + 8) c (count - 8)
  else fillTail m ld c count
termination_by count

def fillHead (m : Store) (d : ℕ) (c : UInt8) : ℕ → Store
  | 0 => fillWords m d c 0
  | count + 1 =>
    if d % 8 ≠ 0 then fillHead (wr8 m d c) (d + 1) c count
    else fillWords m d c (count + 1)

def memset (m : Store) (dest : ℕ) (ch : ℤ) (count : ℕ) : ℕ × Store :=
  if count = 0 then (dest, m) else (dest, fillHead m dest (UInt8.ofInt ch) count)

/-! ## Copying -/

section
variable {m : Store} {d s count : ℕ}

theorem copyTail_eq (h : d ≤ s ∨ s + count ≤ d) : copyTail m d s count = copy m d s count := by
  induction count generalizing m d s with
  | zero => exact (copy_zero m d s).symm
  | succ count ih =>
    rw [copyTail, ih (by omega), wr8_eq_copy, copy_copy (by omega), Nat.add_comm]

theorem copyWords_eq (h : d ≤ s ∨ s + count ≤ d) : copyWords m d s count = copy m d s count := by
  induction count using Nat.strong_induction_on generalizing m d s with
  | _ count ih =>
    rw [copyWords]
    by_cases h8 : 8 ≤ count
    · rw [if_pos h8, ih (count - 8) (by omega) (by omega), wr64_eq_copy, copy_copy (by omega),
        Nat.add_sub_cancel' h8]
    · rw [if_neg h8]
      exact copyTail_eq h

theorem copyHead_eq (h : d ≤ s ∨ s + count ≤ d) : copyHead m d s count = copy m d s count := by
  induction count generalizing m d s with
  | zero => exact copyWords_eq h
  | succ count ih =>
    rw [copyHead]
    split_ifs with halign
    · rw [ih (by omega), wr8_eq_copy, copy_copy (by omega), Nat.add_comm]
    · exact copyWords_eq h

end

/-- The copy goes upwards, so the regions may overlap when the destination is below. -/
theorem memcpy_eq (m : Store) {dest src count : ℕ} (h : dest ≤ src ∨ src + count ≤ dest) :
    memcpy m dest src count = (dest, copy m dest src count) := by
  unfold memcpy
  split_ifs with hnone
  · obtain rfl | rfl := hnone
    · rw [copy_zero]
    · rw [copy_self]
  · rw [copyHead_eq h]

/-! ## Filling -/

/-- A number in the low `k` bits, repeated above them. -/
theorem toNat_or_shiftLeft {x k : UInt64} (hk : k.toNat ≤ 32) (hx : x.toNat < 2 ^ k.toNat) :
    (x ||| x <<< k).toNat = x.toNat * (2 ^ k.toNat + 1) := by
  have hfit : x.toNat <<< k.toNat < 2 ^ 64 :=
    calc x.toNat <<< k.toNat = x.toNat * 2 ^ k.toNat := Nat.shiftLeft_eq _ _
      _ < 2 ^ k.toNat * 2 ^ k.toNat := Nat.mul_lt_mul_of_pos_right hx (Nat.two_pow_pos _)
      _ = 2 ^ (k.toNat + k.toNat) := (pow_add 2 _ _).symm
      _ ≤ 2 ^ 64 := Nat.pow_le_pow_right (by decide) (by omega)
  rw [UInt64.toNat_or, UInt64.toNat_shiftLeft, Nat.mod_eq_of_lt (show k.toNat < 64 by omega),
    Nat.mod_eq_of_lt hfit, Masks.or_shiftLeft hx]
  ring

theorem toNat_broadcast (c : UInt8) : (broadcast c).toNat = c.toNat * 0x0101010101010101 := by
  have hc : c.toUInt64.toNat < 2 ^ 8 := c.toNat_lt
  have h₁ := toNat_or_shiftLeft (k := 8) (by decide) hc
  have h₂ := toNat_or_shiftLeft (x := c.toUInt64 ||| c.toUInt64 <<< 8) (k := 16) (by decide)
    (by rw [h₁]; change _ * 257 < 65536; omega)
  unfold broadcast
  rw [toNat_or_shiftLeft (by decide), h₂, h₁]
  · change c.toNat * 257 * 65537 * 4294967297 = _
    ring
  · rw [h₂, h₁]
    change _ * 257 * 65537 < 4294967296
    omega

theorem byte_broadcast (c : UInt8) {i : ℕ} (hi : i < 8) :
    UInt8.ofNat ((broadcast c).toNat / 2 ^ (8 * i)) = c := by
  have hread : (broadcast c).toNat = rd64 (fun _ => c) 0 := by
    rw [toNat_broadcast]
    unfold rd64 rd32
    ring
  rw [hread]
  exact byte_rd64 hi

section
variable {m : Store} {d count : ℕ} {c : UInt8}

theorem wr64_eq_fill (m : Store) (d : ℕ) (c : UInt8) :
    wr64 m d (broadcast c).toNat = fill m d c 8 := by
  rw [wr64_eq_splice, fill]
  apply splice_congr
  intro i hi
  exact byte_broadcast c hi

theorem fillTail_eq : fillTail m d c count = fill m d c count := by
  induction count generalizing m d with
  | zero => exact (fill_zero m d c).symm
  | succ count ih => rw [fillTail, ih, wr8_eq_fill, fill_fill, Nat.add_comm]

theorem fillWords_eq : fillWords m d c count = fill m d c count := by
  induction count using Nat.strong_induction_on generalizing m d with
  | _ count ih =>
    rw [fillWords]
    by_cases h8 : 8 ≤ count
    · rw [if_pos h8, ih (count - 8) (by omega), wr64_eq_fill, fill_fill, Nat.add_sub_cancel' h8]
    · rw [if_neg h8]
      exact fillTail_eq

theorem fillHead_eq : fillHead m d c count = fill m d c count := by
  induction count generalizing m d with
  | zero => exact fillWords_eq
  | succ count ih =>
    rw [fillHead]
    split_ifs with halign
    · rw [ih, wr8_eq_fill, fill_fill, Nat.add_comm]
    · exact fillWords_eq

end

theorem memset_eq (m : Store) (dest : ℕ) (ch : ℤ) (count : ℕ) :
    memset m dest ch count = (dest, fill m dest (UInt8.ofInt ch) count) := by
  unfold memset
  split_ifs with hnone
  · rw [hnone, fill_zero]
  · rw [fillHead_eq]

/-! ## The bytewise definitions -/

/-- The regions of `memcpy` do not overlap, or are the same. -/
def Apart (dest src count : ℕ) : Prop :=
  dest = src ∨ dest + count ≤ src ∨ src + count ≤ dest

theorem Apart.upwards {dest src count : ℕ} (h : Apart dest src count) :
    dest ≤ src ∨ src + count ≤ dest := by
  unfold Apart at h
  omega

/-- Between such regions `memcpy` is the function that the allocator is written with. -/
theorem memcpy_eq_alloc (m : Store) {dest src count : ℕ} (h : Apart dest src count) :
    (memcpy m dest src count).2 = Alloc.memcpy m dest src count := by
  rw [memcpy_eq m h.upwards]
  rfl

/-- Both return the destination. It holds the bytes of the source, or the low byte of `ch` all
along, and no other byte changes. -/
theorem memcpy_memset_bytewise (m : Store) (dest src count : ℕ) (ch : ℤ) :
    (Apart dest src count →
      (memcpy m dest src count).1 = dest ∧
      (∀ i < count, (memcpy m dest src count).2 (dest + i) = m (src + i)) ∧
      ∀ x, x < dest ∨ dest + count ≤ x → (memcpy m dest src count).2 x = m x) ∧
    (memset m dest ch count).1 = dest ∧
    (∀ i < count, (memset m dest ch count).2 (dest + i) = UInt8.ofNat (ch % 256).toNat) ∧
    ∀ x, x < dest ∨ dest + count ≤ x → (memset m dest ch count).2 x = m x := by
  refine ⟨?_, ?_⟩
  · intro h
    rw [memcpy_eq m h.upwards]
    exact ⟨rfl, fun _ hi => copy_byte hi, fun _ hx => copy_of_outside hx⟩
  · rw [memset_eq]
    exact ⟨rfl, fun _ hi => fill_byte hi, fun _ hx => fill_of_outside hx⟩

/-- Twenty bytes to an address that is not aligned. -/
theorem memcpy_unaligned : Apart 3 100 20 ∧
    (memcpy (fun x => UInt8.ofNat x) 3 100 20).2 (3 + 19) = 119 := by
  have hapart : Apart 3 100 20 := .inr (.inl (by decide))
  refine ⟨hapart, ?_⟩
  rw [((memcpy_memset_bytewise _ 3 100 20 0).1 hapart).2.1 19 (by decide)]
  rfl

end JanusRT.MemCopy
