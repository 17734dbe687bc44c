import JanusRT.Directives

/-!
# Formats as text

The characters a call of `vsnprintf` produces, as a function of the format and the
arguments alone. The loop with its output buffer refines it: it puts exactly these
characters out, whatever the buffer. What is in the buffer after the call is then a
matter of `out_putc` and `out_terminate`.
-/
namespace JanusRT.Snprintf

open Outcome Numeral

/-! ## Texts -/

/-- A text with `gap` spaces on one side. -/
def fieldText (left : Bool) (gap : ℕ) (s : List UInt8) : List UInt8 :=
  if left then s ++ List.replicate gap (ch ' ') else List.replicate gap (ch ' ') ++ s

theorem emitField_eq (o : Out) (f : Fmt) (padLen : ℤ) {s : List UInt8} {n : ℕ}
    (h : n ≤ s.length) :
    emitField o f padLen s n = o.putAll (fieldText f.flags.left padLen.toNat (s.take n)) := by
  simp only [emitField, pad_eq, outWriteN_eq _ h]
  cases f.flags.left <;> simp [fieldText, Out.putAll_append]

/-- The characters of a string that `%s` shows. -/
def shownText (f : Fmt) (s : Option (List UInt8)) : List UInt8 :=
  let s := s.getD nullText
  let sl := cstrLen s
  s.take (if 0 ≤ f.prec ∧ f.prec < sl then f.prec.toNat else sl)

section
variable {δ : Type}

/-- The text of one conversion, and the arguments that are left. -/
def convText (float : Fmt → δ → List UInt8) (f : Fmt) (ap : List (Arg δ)) :
    Except Fault (List UInt8 × List (Arg δ)) :=
  match convOf f.type with
  | .percent => return ([ch '%'], ap)
  | .char => do
    let (v, ap) ← vaWord ap
    return (fieldText f.flags.left (if 1 < f.width then f.width - 1 else 0).toNat [v.toUInt8], ap)
  | .str => do
    let (s, ap) ← vaStr ap
    let s := shownText f s
    return (fieldText f.flags.left (room f.width s.length).toNat s, ap)
  | .signed => do
    let (v, ap) ← getIntArg ap f.len
    return ((intParts f.dropZero v.natAbs (v < 0) 10 false).text, ap)
  | .unsigned base upper => do
    let (u, ap) ← getUintArg ap f.len
    return ((intParts f.dropZero u false base upper).text, ap)
  | .pointer => do
    let (pt, ap) ← vaWord ap
    let g := { f with flags := { f.flags with alt := true, sign := false, sp := false }, prec := 16 }
    return ((intParts g (pt % u64) false 16 false).text, ap)
  | .count => do
    let (_, ap) ← vaWord ap
    return ([], ap)
  | .float => do
    let (x, ap) ← vaReal ap
    return (float f x, ap)
  | .unknown => return ([ch '%', f.type], ap)

/-- The run `x` from the output `o` does what the text `y` says: it stops with it, or puts
its characters out. -/
def Renders (o : Out) (st : List CountStore) (counts : Bool) (x : Except Fault (Run δ)) :
    Except Fault (List UInt8 × List (Arg δ)) → Prop
  | .error e => x = .error e
  | .ok (cs, ap) => ∃ st', x = .ok ⟨o.putAll cs, ap, st'⟩ ∧ (counts = false → st' = st)

theorem shownText_length (f : Fmt) (s : Option (List UInt8)) :
    shownText f s = (s.getD nullText).take (shownText f s).length ∧
      (shownText f s).length = (if 0 ≤ f.prec ∧ f.prec < cstrLen (s.getD nullText)
        then f.prec.toNat else cstrLen (s.getD nullText)) := by
  have hle : cstrLen (s.getD nullText) ≤ (s.getD nullText).length :=
    (List.takeWhile_prefix _).length_le
  have hlen : (shownText f s).length = (if 0 ≤ f.prec ∧ f.prec < cstrLen (s.getD nullText)
      then f.prec.toNat else cstrLen (s.getD nullText)) := by
    rw [shownText, List.length_take]
    split_ifs <;> omega
  exact ⟨by rw [hlen]; rfl, hlen⟩

/-- The unsigned conversions have one of the three bases. -/
def Conv.HasBase : Conv → Prop
  | .unsigned base _ => IsBase base
  | _ => True

theorem Conv.HasBase.ite {p : Prop} [Decidable p] {a b : Conv} (ha : a.HasBase) (hb : b.HasBase) :
    (if p then a else b).HasBase := by
  split_ifs
  · exact ha
  · exact hb

theorem convOf_hasBase (type : UInt8) : (convOf type).HasBase := by
  unfold convOf
  repeat' apply Conv.HasBase.ite
  all_goals simp [Conv.HasBase, IsBase]

/-- The magnitude of a signed argument. -/
theorem magnitude_eq {v : ℤ} (h : -2 ^ 63 ≤ v) (h' : v < 2 ^ 63) :
    (if v < 0 then (-v).toNat % u64 else v.toNat) = v.natAbs ∧ v.natAbs < u64 := by
  unfold u64
  split_ifs <;> omega

/-- How many bits a length modifier leaves of an integer argument. -/
def LenCode.bits : LenCode → ℕ
  | .hh => 8
  | .h => 16
  | .l | .ll | .j | .z | .t => 64
  | .none | .L => 32

theorem getIntArg_eq (ap : List (Arg δ)) (len : LenCode) : getIntArg ap len = (do
    let (v, ap) ← vaWord ap
    return ((v : ℤ).bmod (2 ^ len.bits), ap)) := by
  cases len <;> rfl

theorem getUintArg_eq (ap : List (Arg δ)) (len : LenCode) : getUintArg ap len = (do
    let (v, ap) ← vaWord ap
    return (v % 2 ^ len.bits, ap)) := by
  cases len <;> rfl

theorem LenCode.bits_le (len : LenCode) : 2 ^ len.bits ≤ u64 := by
  cases len <;> decide

theorem signed_bounds (v : ℕ) (len : LenCode) :
    -2 ^ 63 ≤ (v : ℤ).bmod (2 ^ len.bits) ∧ (v : ℤ).bmod (2 ^ len.bits) < 2 ^ 63 := by
  rw [Int.bmod_def]
  cases len <;> simp only [LenCode.bits] <;> split_ifs <;> omega

/-- One conversion puts its text out. -/
theorem convert_renders (float : Fmt → δ → List UInt8) (f : Fmt) (r : Run δ) :
    Renders r.out r.stores (convOf f.type = .count) (convert float f r)
      (convText float f r.ap) := by
  unfold convert convText
  cases hconv : convOf f.type with
  | percent => exact ⟨r.stores, rfl, fun _ => rfl⟩
  | unknown => exact ⟨r.stores, rfl, fun _ => rfl⟩
  | char =>
    cases hap : vaWord r.ap with
    | error e => rfl
    | ok a =>
      refine ⟨r.stores, ?_, fun _ => rfl⟩
      simp only [ok_bind]
      rw [emitField_eq _ _ _ (show 1 ≤ [a.1.toUInt8].length from le_rfl)]
      rfl
  | str =>
    cases hap : vaStr r.ap with
    | error e => rfl
    | ok a =>
      obtain ⟨htake, hlen⟩ := shownText_length f a.1
      have hle : (shownText f a.1).length ≤ (a.1.getD nullText).length := by
        rw [htake, List.length_take]
        omega
      refine ⟨r.stores, ?_, fun _ => rfl⟩
      simp only [ok_bind]
      rw [← hlen, emitField_eq _ _ _ hle, ← htake]
      rfl
  | signed =>
    rw [getIntArg_eq]
    cases hap : vaWord r.ap with
    | error e => rfl
    | ok a =>
      obtain ⟨hlo, hhi⟩ := signed_bounds a.1 f.len
      obtain ⟨hmag, hlt⟩ := magnitude_eq hlo hhi
      refine ⟨r.stores, ?_, fun _ => rfl⟩
      simp only [ok_bind, pure_bind, hmag]
      rw [emitInt_eq _ _ hlt _ (.inr (.inl rfl))]
      rfl
  | unsigned base upper =>
    have hbase := convOf_hasBase f.type
    rw [hconv] at hbase
    rw [getUintArg_eq]
    cases hap : vaWord r.ap with
    | error e => rfl
    | ok a =>
      have hlt : a.1 % 2 ^ f.len.bits < u64 :=
        (Nat.mod_lt _ (Nat.two_pow_pos _)).trans_le f.len.bits_le
      refine ⟨r.stores, ?_, fun _ => rfl⟩
      simp only [ok_bind, pure_bind]
      rw [emitInt_eq _ _ hlt _ hbase]
      rfl
  | pointer =>
    cases hap : vaWord r.ap with
    | error e => rfl
    | ok a =>
      have hlt : a.1 % u64 < u64 := Nat.mod_lt _ (by decide)
      refine ⟨r.stores, ?_, fun _ => rfl⟩
      simp only [ok_bind]
      rw [emitInt_eq _ _ hlt _ (.inr (.inr rfl))]
      rfl
  | count =>
    cases hap : vaWord r.ap with
    | error e => rfl
    | ok a => exact ⟨_, rfl, by simp⟩
  | float =>
    cases hap : vaReal r.ap with
    | error e => rfl
    | ok a =>
      refine ⟨r.stores, ?_, fun _ => rfl⟩
      simp only [ok_bind]
      rw [outWriteN_eq _ le_rfl, List.take_length]
      rfl

/-- The text from the pointer on, for at most `fuel` rounds. -/
def formatText (float : Fmt → δ → List UInt8) :
    ℕ → Cursor → List (Arg δ) → Except Fault (List UInt8 × List (Arg δ))
  | 0, _, _ => .error .hang
  | fuel + 1, c, ap =>
    if c.peek = 0 then .ok ([], ap)
    else if c.peek ≠ ch '%' then do
      let (cs, ap) ← formatText float fuel c.next ap
      return (c.peek :: cs, ap)
    else do
      let (f, c, ap) ← parseSpec c.next ap
      if f.type = 0 then return ([], ap)
      let (cs, ap) ← convText float f ap
      let (ds, ap) ← formatText float fuel c ap
      return (cs ++ ds, ap)

/-- The characters of a call. -/
def callText (float : Fmt → δ → List UInt8) (fmt : List UInt8) (ap : List (Arg δ)) :
    Except Fault (List UInt8) := do
  let (cs, _) ← formatText float (fmt.length + 1) ⟨0, fmt⟩ ap
  return cs

/-- Rendering one part after another. -/
theorem Renders.append {o : Out} {st st' : List CountStore} {counts : Bool}
    {x : Except Fault (Run δ)} {y : Except Fault (List UInt8 × List (Arg δ))} (cs : List UInt8)
    (h : Renders (o.putAll cs) st counts x y) :
    Renders o st' true x (do
      let (ds, ap) ← y
      return (cs ++ ds, ap)) := by
  cases y with
  | error e => exact h
  | ok a =>
    obtain ⟨st'', hx, -⟩ := h
    refine ⟨st'', ?_, by simp⟩
    rw [hx, Out.putAll_append]

/-- The loop puts the text of the format out. -/
theorem formatLoop_renders (float : Fmt → δ → List UInt8) (fuel : ℕ) (c : Cursor) (r : Run δ) :
    Renders r.out r.stores true (formatLoop float fuel c r) (formatText float fuel c r.ap) := by
  induction fuel generalizing c r with
  | zero => rfl
  | succ fuel ih =>
    unfold formatLoop formatText
    by_cases hend : c.peek = 0
    · rw [if_pos hend, if_pos hend]
      exact ⟨r.stores, rfl, by simp⟩
    rw [if_neg hend, if_neg hend]
    by_cases hlit : c.peek ≠ ch '%'
    · rw [if_pos hlit, if_pos hlit]
      exact Renders.append [c.peek] (ih c.next { r with out := outPutc r.out c.peek })
    rw [if_neg hlit, if_neg hlit]
    cases parseSpec c.next r.ap with
    | error e => rfl
    | ok a =>
      obtain ⟨f, c', ap⟩ := a
      simp only [ok_bind]
      by_cases htype : f.type = 0
      · rw [if_pos htype, if_pos htype]
        exact ⟨r.stores, rfl, by simp⟩
      rw [if_neg htype, if_neg htype]
      have hconv := convert_renders float f { r with ap }
      cases htext : convText float f ap with
      | error e =>
        rw [htext] at hconv
        rw [show convert float f { r with ap } = .error e from hconv]
        rfl
      | ok b =>
        rw [htext] at hconv
        obtain ⟨st', hrun, -⟩ := hconv
        rw [hrun]
        exact Renders.append b.1 (ih c' ⟨r.out.putAll b.1, b.2, st'⟩)

/-- A call puts the text of its format out and ends it. -/
theorem vsnprintf_renders (float : Fmt → δ → List UInt8) (dst : ℕ → UInt8) (n : ℕ)
    (fmt : List UInt8) (ap : List (Arg δ)) :
    (callText float fmt ap = .error .argument ∧ vsnprintf float dst n fmt ap = .error .argument) ∨
      ∃ cs st, callText float fmt ap = .ok cs ∧ vsnprintf float dst n fmt ap =
        .ok ⟨i32 ((outInit dst n).putAll cs).len,
          (outTerminate ((outInit dst n).putAll cs)).buf, st⟩ := by
  have hloop := formatLoop_renders float (fmt.length + 1) ⟨0, fmt⟩ ⟨outInit dst n, ap, []⟩
  unfold callText vsnprintf
  cases htext : formatText float (fmt.length + 1) ⟨0, fmt⟩ ap with
  | error e =>
    left
    rw [htext] at hloop
    have hrun : formatLoop float (fmt.length + 1) ⟨0, fmt⟩ ⟨outInit dst n, ap, []⟩ = .error e := hloop
    have hends := formatLoop_holds float (c := ⟨0, fmt⟩) (Nat.lt_succ_self fmt.length)
      ⟨outInit dst n, ap, []⟩
    rw [hrun] at hends
    obtain rfl : e = .argument := hends
    rw [hrun]
    exact ⟨rfl, rfl⟩
  | ok a =>
    right
    rw [htext] at hloop
    obtain ⟨st, hrun, -⟩ := hloop
    refine ⟨a.1, st, rfl, ?_⟩
    rw [hrun, ok_bind, ← outTerminate_len]
    rfl

end

end JanusRT.Snprintf
