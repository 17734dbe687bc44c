import JanusRT.Rendering

/-!
# The terminating zero

What a caller that prints the buffer relies on: after a call there is a zero at the
returned length, or at the end of the buffer if the text did not fit. A buffer of one
byte has a capacity of zero, which `out_terminate` takes for no buffer at all. A length
that is no `int` is returned as another one.
-/
namespace JanusRT.Snprintf

theorem Out.putAll_len {o : Out} (h : o.len < u64) (cs : List UInt8) :
    (o.putAll cs).len = (o.len + cs.length) % u64 := by
  induction cs generalizing o with
  | nil => exact (Nat.mod_eq_of_lt h).symm
  | cons c cs ih =>
    have hlen : (outPutc o c).len = (o.len + 1) % u64 := rfl
    have hlt : (outPutc o c).len < u64 := Nat.mod_lt _ (by decide)
    change ((outPutc o c).putAll cs).len = _
    rw [ih hlt, hlen, Nat.mod_add_mod, List.length_cons]
    congr 1
    omega

/-- As long as the length does not wrap, the buffer holds the text. -/
theorem Out.putAll_buf {o : Out} (h : o.len = 0) {cs : List UInt8} (hcs : cs.length ≤ u64)
    {i : ℕ} (hi : i < cs.length) (hcap : i < o.cap) :
    (o.putAll cs).buf i = cs.getD i 0 := by
  induction cs using List.reverseRecOn with
  | nil => simp at hi
  | append_singleton cs c ih =>
    rw [List.length_append, List.length_singleton] at hi hcs
    have hlen : (o.putAll cs).len = cs.length := by
      rw [Out.putAll_len (by rw [h]; decide), h, Nat.zero_add, Nat.mod_eq_of_lt (by omega)]
    have hcap' : (o.putAll cs).cap = o.cap := (o.putAll_above cs).1
    rw [Out.putAll_append]
    change (if (o.putAll cs).len < (o.putAll cs).cap
      then Function.update (o.putAll cs).buf (o.putAll cs).len c else (o.putAll cs).buf) i = _
    rw [hlen, hcap']
    rcases Nat.lt_or_eq_of_le (Nat.le_of_lt_succ hi) with hlt | rfl
    · have hkeep : (if cs.length < o.cap then Function.update (o.putAll cs).buf cs.length c
          else (o.putAll cs).buf) i = (o.putAll cs).buf i := by
        split_ifs
        · exact Function.update_of_ne hlt.ne _ _
        · rfl
      rw [hkeep, ih (by omega) hlt]
      simp [List.getD_eq_getElem?_getD, List.getElem?_append_left hlt]
    · rw [if_pos hcap, Function.update_self]
      simp

/-- A text of any length: of the characters that were stored at one place the last is kept. -/
theorem Out.putAll_buf_mod {o : Out} (h : o.len = 0) (cs : List UInt8) {i : ℕ}
    (hi : i < cs.length % u64) (hcap : i < o.cap) :
    (o.putAll cs).buf i = cs.getD (cs.length - cs.length % u64 + i) 0 := by
  have hle : cs.length % u64 ≤ cs.length := Nat.mod_le _ _
  have hmod : cs.length % u64 < u64 := Nat.mod_lt _ (by decide)
  have hfirst : (o.putAll (cs.take (cs.length - cs.length % u64))).len = 0 := by
    rw [Out.putAll_len (by rw [h]; decide), h, Nat.zero_add, List.length_take,
      Nat.min_eq_left (Nat.sub_le _ _)]
    exact Nat.sub_mod_eq_zero_of_mod_eq (Nat.mod_mod _ _).symm
  have hcap' := (o.putAll_above (cs.take (cs.length - cs.length % u64))).1
  have hdrop : (cs.drop (cs.length - cs.length % u64)).length = cs.length % u64 := by
    rw [List.length_drop]
    omega
  conv_lhs => rw [← List.take_append_drop (cs.length - cs.length % u64) cs]
  rw [Out.putAll_append, Out.putAll_buf hfirst (by omega) (by omega) (by omega)]
  simp [List.getD_eq_getElem?_getD]

/-- The zero that a caller looks for. -/
def Printed.Terminated (n : ℕ) (r : Printed) : Prop :=
  0 ≤ r.ret ∧ r.buf (min r.ret.toNat (n - 1)) = 0

/-- When there is one: the length is an `int` that is not below zero, and either the text
has its length in the buffer, or the character found instead happens to be zero. -/
def Terminates (dst : ℕ → UInt8) (n : ℕ) (cs : List UInt8) : Prop :=
  let len := cs.length % u64
  0 ≤ i32 len ∧
    if n = 1 then dst 0 = 0
    else len < 2 ^ 31 ∨ n - 1 ≤ (i32 len).toNat ∨
      cs.getD (cs.length - len + (i32 len).toNat) 0 = 0

theorem outTerminate_at {o : Out} (h : 0 < o.cap) : (outTerminate o).buf (min o.len o.cap) = 0 := by
  rw [outTerminate, if_pos h]
  split_ifs with hlt
  · rw [Nat.min_eq_left hlt.le]
    exact Function.update_self _ _ _
  · rw [Nat.min_eq_right (not_lt.mp hlt)]
    exact Function.update_self _ _ _

/-- The buffer and the returned length of a call that produces `cs`. -/
theorem terminated_iff (dst : ℕ → UInt8) {n : ℕ} (hn : 1 ≤ n) (cs : List UInt8)
    (st : List CountStore) :
    Printed.Terminated n ⟨i32 ((outInit dst n).putAll cs).len,
      (outTerminate ((outInit dst n).putAll cs)).buf, st⟩ ↔ Terminates dst n cs := by
  have hlen : ((outInit dst n).putAll cs).len = cs.length % u64 := by
    rw [Out.putAll_len (show (outInit dst n).len < u64 by change 0 < u64; decide)]
    exact congrArg (· % u64) (Nat.zero_add _)
  obtain ⟨hcap, habove⟩ := (outInit dst n).putAll_above cs
  rw [outInit_cap] at hcap habove
  have hbuf : ∀ i, i < cs.length % u64 → i < n - 1 → ((outInit dst n).putAll cs).buf i =
      cs.getD (cs.length - cs.length % u64 + i) 0 := by
    intro i hi hi'
    exact Out.putAll_buf_mod rfl cs hi (by rw [outInit_cap]; exact hi')
  generalize (outInit dst n).putAll cs = o at *
  unfold Printed.Terminated Terminates
  dsimp only
  rw [hlen]
  generalize cs.length % u64 = len at *
  have hret : i32 (len : ℤ) ≤ len := i32_le len
  apply and_congr_right
  intro hpos
  by_cases hone : n = 1
  · subst hone
    rw [if_pos rfl, outTerminate, if_neg (by omega), Nat.min_eq_right (by omega)]
    exact iff_of_eq (congrArg (· = 0) (habove 0 le_rfl))
  · rw [if_neg hone]
    have hat := outTerminate_at (show 0 < o.cap by omega)
    rw [hlen, hcap] at hat
    by_cases hshort : len < 2 ^ 31
    · rw [i32_of_lt (by omega) (by omega), Int.toNat_natCast]
      exact iff_of_true hat (.inl hshort)
    by_cases hfull : n - 1 ≤ (i32 len).toNat
    · rw [Nat.min_eq_right hfull]
      rw [Nat.min_eq_right (by omega)] at hat
      exact iff_of_true hat (.inr (.inl hfull))
    · have hlt : i32 (len : ℤ) < 2 ^ 31 := by
        rw [i32]
        exact Int.bmod_lt (by decide)
      rw [Nat.min_eq_left (by omega), terminate_below o (by omega) (by omega),
        hbuf _ (by omega) (by omega)]
      simp only [hshort, hfull, false_or]

section
variable {δ : Type}

/-- A call leaves a terminated buffer behind, unless the buffer has one byte, which is left
as it was, or the text is longer than an `int` can say. -/
theorem vsnprintf_terminated_iff (float : Fmt → δ → List UInt8) (dst : ℕ → UInt8) {n : ℕ}
    (hn : 1 ≤ n) (fmt : List UInt8) (ap : List (Arg δ)) :
    (callText float fmt ap = .error .argument ∧ vsnprintf float dst n fmt ap = .error .argument) ∨
      ∃ cs r, callText float fmt ap = .ok cs ∧ vsnprintf float dst n fmt ap = .ok r ∧
        (r.Terminated n ↔ Terminates dst n cs) ∧
        (cs.length < 2 ^ 31 → (Terminates dst n cs ↔ 2 ≤ n ∨ dst 0 = 0)) := by
  obtain herr | ⟨cs, st, htext, hrun⟩ := vsnprintf_renders float dst n fmt ap
  · exact .inl herr
  · refine .inr ⟨cs, _, htext, hrun, terminated_iff dst hn cs st, ?_⟩
    intro hlt
    have hmod : cs.length % u64 = cs.length := Nat.mod_eq_of_lt (by unfold u64; omega)
    unfold Terminates
    dsimp only
    rw [hmod, i32_of_lt (by omega) (by omega)]
    split_ifs with hone
    · simp [hone]
    · exact iff_of_true ⟨by omega, .inl hlt⟩ (.inl (by omega))

/-- A buffer of four bytes for one character. -/
theorem vsnprintf_terminated_four :
    (callText (fun _ (_ : Unit) => []) [ch 'a'] [] = .error .argument ∧
      vsnprintf (fun _ (_ : Unit) => []) (fun _ => ch 'x') 4 [ch 'a'] [] = .error .argument) ∨
      ∃ cs r, callText (fun _ (_ : Unit) => []) [ch 'a'] [] = .ok cs ∧
        vsnprintf (fun _ (_ : Unit) => []) (fun _ => ch 'x') 4 [ch 'a'] [] = .ok r ∧
        (r.Terminated 4 ↔ Terminates (fun _ => ch 'x') 4 cs) ∧
        (cs.length < 2 ^ 31 → (Terminates (fun _ => ch 'x') 4 cs ↔ 2 ≤ 4 ∨ ch 'x' = 0)) :=
  vsnprintf_terminated_iff (fun _ (_ : Unit) => []) (fun _ => ch 'x') (by decide) [ch 'a'] []

/-- A buffer of one byte keeps what was in it. -/
theorem vsnprintf_one_byte : ∃ r,
    vsnprintf (fun _ (_ : Unit) => []) (fun _ => ch 'x') 1 [ch 'a'] [] = .ok r ∧ r.ret = 1 ∧
      r.buf (min r.ret.toNat (1 - 1)) = ch 'x' ∧ ¬ r.Terminated 1 := by
  have hret : i32 ((outInit (fun _ => ch 'x') 1).putAll [ch 'a']).len = 1 := by decide +kernel
  obtain ⟨herr, -⟩ | ⟨cs, st, htext, hrun⟩ :=
    vsnprintf_renders (fun _ (_ : Unit) => []) (fun _ => ch 'x') 1 [ch 'a'] []
  · cases herr
  · obtain rfl : [ch 'a'] = cs := Except.ok.inj htext
    have hkept : (outTerminate ((outInit (fun _ => ch 'x') 1).putAll [ch 'a'])).buf 0 = ch 'x' :=
      rfl
    refine ⟨_, hrun, ?_, ?_, ?_⟩
    · dsimp only
      exact hret
    · rw [Nat.sub_self, Nat.min_zero]
      exact hkept
    · intro h
      have hzero := h.2
      rw [Nat.sub_self, Nat.min_zero] at hzero
      exact absurd (hkept.symm.trans hzero) (by decide)

end

end JanusRT.Snprintf
