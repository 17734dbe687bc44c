import JanusRT.Snprintf

/-!
# The output buffer

Everything that is put out goes through `out_putc`, one character after the other. What is
written of it and where it ends is a matter of the buffer alone.
-/
namespace JanusRT.Snprintf

/-- Characters one after the other. -/
def Out.putAll (o : Out) (cs : List UInt8) : Out := cs.foldl outPutc o

@[simp] theorem Out.putAll_nil (o : Out) : o.putAll [] = o := rfl

theorem Out.putAll_append (o : Out) (cs ds : List UInt8) :
    o.putAll (cs ++ ds) = (o.putAll cs).putAll ds :=
  List.foldl_append

/-- Nothing is written at or above the capacity. -/
theorem Out.putAll_above (o : Out) (cs : List UInt8) :
    (o.putAll cs).cap = o.cap ∧ ∀ i, o.cap ≤ i → (o.putAll cs).buf i = o.buf i := by
  induction cs generalizing o with
  | nil => exact ⟨rfl, fun _ _ => rfl⟩
  | cons c cs ih =>
    obtain ⟨hcap, hbuf⟩ := ih (outPutc o c)
    refine ⟨hcap, fun i hi => (hbuf i hi).trans ?_⟩
    change (if o.len < o.cap then Function.update o.buf o.len c else o.buf) i = o.buf i
    split_ifs with hlt
    · exact Function.update_of_ne (by omega) _ _
    · rfl

/-- Below the capacity stands what was put out, as long as the length does not wrap. -/
theorem Out.putAll_get (o : Out) {cs : List UInt8} (h : o.len + cs.length < u64) :
    (o.putAll cs).len = o.len + cs.length ∧ (∀ i < o.len, (o.putAll cs).buf i = o.buf i) ∧
      ∀ i (hi : i < cs.length), o.len + i < o.cap → (o.putAll cs).buf (o.len + i) = cs[i] := by
  induction cs generalizing o with
  | nil => exact ⟨rfl, fun _ _ => rfl, fun i hi => absurd hi (Nat.not_lt_zero i)⟩
  | cons c cs ih =>
    rw [List.length_cons] at h
    have hlen : (outPutc o c).len = o.len + 1 := Nat.mod_eq_of_lt (by omega)
    obtain ⟨hend, hkept, hput⟩ := ih (outPutc o c) (by rw [hlen]; omega)
    rw [hlen] at hend hkept hput
    change (o.putAll (c :: cs)).len = _ at hend
    refine ⟨by rw [hend, List.length_cons]; omega, ?_, ?_⟩
    · intro i hi
      refine (hkept i (by omega)).trans ?_
      change (if o.len < o.cap then Function.update o.buf o.len c else o.buf) i = o.buf i
      split_ifs
      · exact Function.update_of_ne hi.ne _ _
      · rfl
    · intro i hi hcap
      cases i with
      | zero =>
        refine (hkept o.len (by omega)).trans ?_
        change (if o.len < o.cap then Function.update o.buf o.len c else o.buf) o.len = c
        rw [if_pos (show o.len < o.cap by omega), Function.update_self]
      | succ i =>
        have hlt : i < cs.length := by
          rw [List.length_cons] at hi
          omega
        rw [show o.len + (i + 1) = o.len + 1 + i by omega]
        exact hput i hlt (show o.len + 1 + i < o.cap by omega)

/-- The length never exceeds what a `size_t` holds. -/
theorem i32_le (n : ℕ) : i32 n ≤ n := by
  rw [i32, Int.bmod_def]
  split_ifs <;> omega

theorem outTerminate_len (o : Out) : (outTerminate o).len = o.len := by
  unfold outTerminate
  split_ifs <;> rfl

theorem outInit_cap (dst : ℕ → UInt8) (n : ℕ) : (outInit dst n).cap = n - 1 := by
  change (if n ≠ 0 then n - 1 else 0) = n - 1
  split_ifs <;> omega

/-- No byte at or above the size of the buffer is written. -/
theorem written_below (dst : ℕ → UInt8) (n : ℕ) (cs : List UInt8) {i : ℕ} (hi : n ≤ i) :
    (outTerminate ((outInit dst n).putAll cs)).buf i = dst i := by
  obtain ⟨hcap, hbuf⟩ := (outInit dst n).putAll_above cs
  rw [outInit_cap] at hcap hbuf
  unfold outTerminate
  split_ifs with hpos hlen
  · exact (Function.update_of_ne (by omega) _ _).trans (hbuf i (by omega))
  · exact (Function.update_of_ne (by omega) _ _).trans (hbuf i (by omega))
  · exact hbuf i (by omega)

/-- The terminating zero comes after the characters that were kept. -/
theorem terminate_below (o : Out) {i : ℕ} (hi : i < o.len) (hic : i < o.cap) :
    (outTerminate o).buf i = o.buf i := by
  unfold outTerminate
  split_ifs with hpos hlen
  · exact Function.update_of_ne hi.ne _ _
  · exact Function.update_of_ne hic.ne _ _
  · rfl

end JanusRT.Snprintf
