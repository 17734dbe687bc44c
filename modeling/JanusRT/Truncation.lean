import JanusRT.Rendering

/-!
# Truncated output

Every conversion puts out characters that do not depend on the buffer. So two calls with the
same format and arguments differ in where their buffers end, and in nothing else.
-/
namespace JanusRT.Snprintf

open Outcome

section
variable {δ : Type}

/-- The arguments a conversion takes, if the next ones are of its kind. `%n`, which writes
through its argument, is left out. -/
def takes (f : Fmt) (ap : List (Arg δ)) : Option (List (Arg δ)) :=
  match convOf f.type, ap with
  | .percent, ap | .unknown, ap => some ap
  | .str, .str _ :: ap => some ap
  | .float, .real _ :: ap => some ap
  | .char, .word _ :: ap | .signed, .word _ :: ap | .unsigned _ _, .word _ :: ap
  | .pointer, .word _ :: ap => some ap
  | _, _ => none

/-- The arguments are of the kinds that the conversions from the cursor on ask for. -/
def matching : ℕ → Cursor → List (Arg δ) → Bool
  | 0, _, _ => true
  | fuel + 1, c, ap =>
    if c.peek = 0 then true
    else if c.peek ≠ ch '%' then matching fuel c.next ap
    else
      match parseSpec c.next ap with
      | .error _ => false
      | .ok (f, c, ap) =>
        if f.type = 0 then true
        else
          match takes f ap with
          | none => false
          | some ap => matching fuel c ap

/-- The argument list matches the format, which has no `%n`. -/
def Matching (fmt : List UInt8) (ap : List (Arg δ)) : Prop :=
  matching (fmt.length + 1) ⟨0, fmt⟩ ap = true

/-- One conversion. -/
theorem convText_of_takes (float : Fmt → δ → List UInt8) {f : Fmt} {ap ap' : List (Arg δ)}
    (h : takes f ap = some ap') : ∃ cs, convText float f ap = .ok (cs, ap') := by
  unfold takes at h
  unfold convText
  cases hconv : convOf f.type with
  | percent =>
    rw [hconv] at h
    obtain rfl : ap = ap' := by simpa using h
    exact ⟨_, rfl⟩
  | unknown =>
    rw [hconv] at h
    obtain rfl : ap = ap' := by simpa using h
    exact ⟨_, rfl⟩
  | count => simp [hconv] at h
  | str =>
    rcases ap with _ | ⟨_ | s | _, ap⟩
    all_goals simp [hconv] at h
    subst h
    exact ⟨_, rfl⟩
  | float =>
    rcases ap with _ | ⟨_ | _ | x, ap⟩
    all_goals simp [hconv] at h
    subst h
    exact ⟨_, rfl⟩
  | char =>
    rcases ap with _ | ⟨v | _ | _, ap⟩
    all_goals simp [hconv] at h
    subst h
    exact ⟨_, rfl⟩
  | signed =>
    rcases ap with _ | ⟨v | _ | _, ap⟩
    all_goals simp [hconv] at h
    subst h
    exact ⟨_, rfl⟩
  | unsigned base upper =>
    rcases ap with _ | ⟨v | _ | _, ap⟩
    all_goals simp [hconv] at h
    subst h
    exact ⟨_, rfl⟩
  | pointer =>
    rcases ap with _ | ⟨v | _ | _, ap⟩
    all_goals simp [hconv] at h
    subst h
    exact ⟨_, rfl⟩

/-- The whole format: it has a text. -/
theorem formatText_of_matching (float : Fmt → δ → List UInt8) {fuel : ℕ} {c : Cursor}
    {ap : List (Arg δ)} (hfuel : c.rest.length < fuel) (hmatch : matching fuel c ap = true) :
    ∃ cs ap', formatText float fuel c ap = .ok (cs, ap') := by
  induction fuel generalizing c ap with
  | zero => omega
  | succ fuel ih =>
    unfold matching at hmatch
    unfold formatText
    by_cases hend : c.peek = 0
    · rw [if_pos hend]
      exact ⟨[], ap, rfl⟩
    rw [if_neg hend] at hmatch ⊢
    have hlt := Cursor.next_rest_lt hend
    by_cases hlit : c.peek ≠ ch '%'
    · rw [if_pos hlit] at hmatch ⊢
      obtain ⟨cs, ap', htext⟩ := ih (by omega) hmatch
      rw [htext]
      exact ⟨c.peek :: cs, ap', rfl⟩
    rw [if_neg hlit] at hmatch ⊢
    have hrest := parseSpec_reaches c.next ap
    cases hspec : parseSpec c.next ap with
    | error e => simp [hspec] at hmatch
    | ok r =>
      obtain ⟨f, c', ap₁⟩ := r
      rw [hspec] at hmatch hrest
      simp only [ok_bind]
      have hrest : c'.rest.length ≤ c.next.rest.length := hrest.1.length_le
      by_cases htype : f.type = 0
      · rw [if_pos htype]
        exact ⟨[], ap₁, rfl⟩
      simp only [if_neg htype] at hmatch ⊢
      cases htakes : takes f ap₁ with
      | none => simp [htakes] at hmatch
      | some ap₂ =>
        rw [htakes] at hmatch
        obtain ⟨cs, hconv⟩ := convText_of_takes float htakes
        obtain ⟨ds, ap', htext⟩ := ih (by omega) hmatch
        rw [hconv, ok_bind]
        dsimp only
        rw [htext]
        exact ⟨cs ++ ds, ap', rfl⟩

/-- A call is the output of characters that the buffer has no part in. -/
theorem vsnprintf_emits (float : Fmt → δ → List UInt8) {fmt : List UInt8} {ap : List (Arg δ)}
    (h : Matching fmt ap) : ∃ cs, callText float fmt ap = .ok cs ∧ ∀ dst n, ∃ st,
      vsnprintf float dst n fmt ap = .ok ⟨i32 ((outInit dst n).putAll cs).len,
        (outTerminate ((outInit dst n).putAll cs)).buf, st⟩ := by
  obtain ⟨cs, ap', htext⟩ := formatText_of_matching float (Nat.lt_succ_self fmt.length) h
  have hcall : callText float fmt ap = .ok cs := by
    rw [callText, htext]
    rfl
  refine ⟨cs, hcall, ?_⟩
  intro dst n
  obtain ⟨herror, -⟩ | ⟨ds, st, hds, hrun⟩ := vsnprintf_renders float dst n fmt ap
  · rw [hcall] at herror
    cases herror
  · rw [hcall] at hds
    obtain rfl := Except.ok.inj hds
    exact ⟨st, hrun⟩

end

/-- Two outputs at the same length that agree as far as the smaller one reaches. -/
structure Agree (o₁ o₂ : Out) : Prop where
  cap : o₁.cap ≤ o₂.cap
  len : o₁.len = o₂.len
  buf : ∀ i < o₁.len, i < o₁.cap → o₁.buf i = o₂.buf i

theorem Agree.putc {o₁ o₂ : Out} (h : Agree o₁ o₂) (c : UInt8) :
    Agree (outPutc o₁ c) (outPutc o₂ c) := by
  have hcap := h.cap
  refine ⟨hcap, congrArg (fun n => (n + 1) % u64) h.len, ?_⟩
  intro i hi hic
  have hi : i < (o₁.len + 1) % u64 := hi
  have hic : i < o₁.cap := hic
  have hle : i ≤ o₁.len := by
    have := Nat.mod_le (o₁.len + 1) u64
    omega
  change (if o₁.len < o₁.cap then Function.update o₁.buf o₁.len c else o₁.buf) i =
    (if o₂.len < o₂.cap then Function.update o₂.buf o₂.len c else o₂.buf) i
  rw [← h.len]
  rcases Nat.eq_or_lt_of_le hle with rfl | hlt
  · rw [if_pos hic, if_pos (hic.trans_le hcap), Function.update_self, Function.update_self]
  · have hkeep : ∀ (b : ℕ → UInt8) (p : Prop) [Decidable p],
        (if p then Function.update b o₁.len c else b) i = b i := by
      intro b p _
      split_ifs
      · exact Function.update_of_ne hlt.ne _ _
      · rfl
    rw [hkeep, hkeep]
    exact h.buf i hlt hic

theorem Agree.putAll {o₁ o₂ : Out} (h : Agree o₁ o₂) (cs : List UInt8) :
    Agree (o₁.putAll cs) (o₂.putAll cs) := by
  induction cs generalizing o₁ o₂ with
  | nil => exact h
  | cons c cs ih => exact ih (h.putc c)

section
variable {δ : Type}

/-- The length of `cs` is returned, and what fits of it stands in the buffer of size `n`. -/
structure Shows (cs : List UInt8) (n : ℕ) (r : Printed) : Prop where
  ret : r.ret = cs.length
  bytes : ∀ i (hi : i < cs.length), i + 1 < n → r.buf i = cs[i]

theorem shows_putAll {cs : List UInt8} (hlen : cs.length < 2 ^ 31) (dst : ℕ → UInt8) (n : ℕ)
    (st : List CountStore) : Shows cs n ⟨i32 ((outInit dst n).putAll cs).len,
      (outTerminate ((outInit dst n).putAll cs)).buf, st⟩ := by
  have hu : (2 : ℕ) ^ 31 < u64 := by decide
  obtain ⟨hend, -, hput⟩ := (outInit dst n).putAll_get (show 0 + cs.length < u64 by omega)
  obtain ⟨hcap, -⟩ := (outInit dst n).putAll_above cs
  rw [outInit_cap] at hcap hput
  rw [show (outInit dst n).len = 0 from rfl, Nat.zero_add] at hend
  constructor
  · dsimp only
    rw [hend, i32_of_lt (by omega) (by omega)]
  · intro i hi hin
    have hbyte := hput i hi (show 0 + i < n - 1 by omega)
    dsimp only
    rw [terminate_below _ (by omega) (by omega), ← hbyte]
    exact congrArg _ (Nat.zero_add i).symm

/-- Truncation is exact: the size of the buffer changes neither the returned length nor the
characters that fit, which are those of the call's text. -/
theorem vsnprintf_truncates (float : Fmt → δ → List UInt8) {fmt : List UInt8}
    {ap : List (Arg δ)} (hmatch : Matching fmt ap) {n₁ n₂ : ℕ} (hn : n₁ ≤ n₂)
    (dst₁ dst₂ : ℕ → UInt8) :
    ∃ r₁ r₂, vsnprintf float dst₁ n₁ fmt ap = .ok r₁ ∧ vsnprintf float dst₂ n₂ fmt ap = .ok r₂ ∧
      r₁.ret = r₂.ret ∧ (∀ i, n₁ ≤ i → r₁.buf i = dst₁ i) ∧ (∀ i, n₂ ≤ i → r₂.buf i = dst₂ i) ∧
      (∀ i : ℕ, (i : ℤ) < min r₁.ret ((max n₁ 1 : ℕ) - 1) → r₁.buf i = r₂.buf i) ∧
      ∃ cs, callText float fmt ap = .ok cs ∧
        (cs.length < 2 ^ 31 → Shows cs n₁ r₁ ∧ Shows cs n₂ r₂) := by
  obtain ⟨cs, hcall, hrun⟩ := vsnprintf_emits float hmatch
  obtain ⟨st₁, hrun₁⟩ := hrun dst₁ n₁
  obtain ⟨st₂, hrun₂⟩ := hrun dst₂ n₂
  have hcap₁ := outInit_cap dst₁ n₁
  have hcap₂ := outInit_cap dst₂ n₂
  have hstart : Agree (outInit dst₁ n₁) (outInit dst₂ n₂) :=
    ⟨by omega, rfl, fun i hi => absurd hi (Nat.not_lt_zero i)⟩
  have hend := hstart.putAll cs
  refine ⟨_, _, hrun₁, hrun₂, by rw [hend.len], fun i => written_below dst₁ n₁ cs,
    fun i => written_below dst₂ n₂ cs, ?_, cs, hcall,
    fun hlen => ⟨shows_putAll hlen dst₁ n₁ st₁, shows_putAll hlen dst₂ n₂ st₂⟩⟩
  intro i hi
  obtain ⟨hilen, hicap⟩ := lt_min_iff.mp hi
  simp only at hilen ⊢
  have hlen : i < ((outInit dst₁ n₁).putAll cs).len := by
    have := i32_le ((outInit dst₁ n₁).putAll cs).len
    omega
  have hcap : i < ((outInit dst₁ n₁).putAll cs).cap := by
    rw [((outInit dst₁ n₁).putAll_above cs).1]
    omega
  rw [terminate_below _ hlen hcap, terminate_below _ (hend.len ▸ hlen) (hcap.trans_le hend.cap)]
  exact hend.buf i hlen hcap

/-- `%-4s|%05d` with a string and a number. -/
def sampleFormat : List UInt8 := "%-4s|%05d".toList.map ch

theorem sampleFormat_truncates : ∃ r₁ r₂,
    vsnprintf (fun _ (x : List UInt8) => x) (fun _ => 1) 3 sampleFormat
        [.str (some [ch 'a', ch 'b']), .word 42] = .ok r₁ ∧
      vsnprintf (fun _ (x : List UInt8) => x) (fun _ => 2) 8 sampleFormat
        [.str (some [ch 'a', ch 'b']), .word 42] = .ok r₂ ∧
      r₁.ret = r₂.ret ∧ (∀ i, 3 ≤ i → r₁.buf i = 1) ∧ (∀ i, 8 ≤ i → r₂.buf i = 2) ∧
      (∀ i : ℕ, (i : ℤ) < min r₁.ret ((max 3 1 : ℕ) - 1) → r₁.buf i = r₂.buf i) ∧
      ∃ cs, callText (fun _ (x : List UInt8) => x) sampleFormat
          [.str (some [ch 'a', ch 'b']), .word 42] = .ok cs ∧
        (cs.length < 2 ^ 31 → Shows cs 3 r₁ ∧ Shows cs 8 r₂) :=
  vsnprintf_truncates (fun _ (x : List UInt8) => x) (by unfold Matching; decide +kernel)
    (by decide) (fun _ => 1) (fun _ => 2)

example : (vsnprintf (fun _ (x : List UInt8) => x) (fun _ => 0) 3 ("%-4s|%05d".toList.map ch)
    [.str (some [ch 'a', ch 'b']), .word 42]).toOption.map Printed.ret = some 10 := by
  decide +kernel

end

end JanusRT.Snprintf
