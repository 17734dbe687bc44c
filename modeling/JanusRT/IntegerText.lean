import JanusRT.Output
import JanusRT.Scanning
import JanusRT.Lib.Numeral

/-!
# The text of an integer

What `emit_int` puts out, as a list of characters in six parts: spaces, sign, prefix,
zeros, digits and spaces. The lengths are computed in `int`, so that the parts describe
the code for every width and precision; below the limits of `int` they are the exact
ones.
-/
namespace JanusRT.Snprintf

open Numeral

/-! ## Output functions as text -/

theorem putRange_eq (o : Out) (c : ℕ → UInt8) (n : ℕ) :
    (List.range n).foldl (fun o i => outPutc o (c i)) o = o.putAll ((List.range n).map c) := by
  rw [Out.putAll, List.foldl_map]

theorem pad_eq (o : Out) (c : UInt8) (count : ℤ) :
    pad o c count = o.putAll (List.replicate count.toNat c) := by
  rw [pad, putRange_eq, List.map_const', List.length_range]

theorem outWriteN_eq (o : Out) {s : List UInt8} {n : ℕ} (h : n ≤ s.length) :
    outWriteN o s n = o.putAll (s.take n) := by
  rw [outWriteN, putRange_eq]
  congr 1
  apply List.ext_getElem
  · simp [h]
  · intro i hi hi'
    have hlt : i < s.length := by
      rw [List.length_map, List.length_range] at hi
      omega
    simp [hlt]

/-- The digits come out of `tmp` from the end. -/
theorem putReversed_eq (o : Out) {tmp : List UInt8} {n : ℕ} (h : n ≤ tmp.length) :
    (List.range n).foldl (fun o i => outPutc o (tmp.getD (n - 1 - i) 0)) o =
      o.putAll (tmp.take n).reverse := by
  rw [putRange_eq]
  congr 1
  apply List.ext_getElem
  · simp [h]
  · intro i hi hi'
    have hlt : n - 1 - i < tmp.length := by
      rw [List.length_map, List.length_range] at hi
      omega
    simp [h, hlt]

/-! ## Digits -/

/-- The value of a digit character. -/
def digitVal (c : UInt8) : ℕ :=
  if c ≤ ch '9' then c.toNat - (ch '0').toNat
  else if c ≤ ch 'F' then c.toNat - (ch 'A').toNat + 10
  else c.toNat - (ch 'a').toNat + 10

theorem digitVal_digs (upper : Bool) {d : ℕ} (h : d < 16) : digitVal (digs upper d) = d := by
  revert upper d
  decide

theorem utoaLoop_eq (base : ℕ) (upper : Bool) (fuel v : ℕ) :
    utoaLoop base upper fuel v = digitLoop (digs upper) base fuel v := by
  induction fuel generalizing v with
  | zero => rfl
  | succ fuel ih => simp only [utoaLoop, digitLoop, ih]

/-- The three bases. -/
def IsBase (base : ℕ) : Prop := base = 8 ∨ base = 10 ∨ base = 16

theorem IsBase.bounds {base : ℕ} (h : IsBase base) : 8 ≤ base ∧ base ≤ 16 := by
  unfold IsBase at h
  omega

theorem IsBase.lt_pow {base v : ℕ} (h : IsBase base) (hv : v < u64) : v < base ^ 22 := by
  have hle : 8 ^ 22 ≤ base ^ 22 := Nat.pow_le_pow_left h.bounds.1 22
  have hu : u64 ≤ 8 ^ 22 := by norm_num [u64]
  omega

/-- The loop of `utoa_rev` ends with the numeral, which is well within `tmp`. -/
theorem utoaRev_eq {base v : ℕ} (hb : IsBase base) (hv : v < u64) (upper : Bool) :
    utoaRev v base upper = (numeral (digs upper) base v).reverse ∧
      (utoaRev v base upper).length ≤ 22 := by
  have hb1 : 1 < base := by
    have := hb.bounds
    omega
  have hrev : utoaRev v base upper = (numeral (digs upper) base v).reverse := by
    unfold utoaRev numeral
    split_ifs with h0
    · rfl
    · have hpow : base ^ 22 ≤ base ^ 64 := Nat.pow_le_pow_right (by omega) (by omega)
      have hlt := hb.lt_pow hv
      rw [utoaLoop_eq, digitLoop_eq (digs upper) hb1 (by omega), List.reverse_reverse]
  refine ⟨hrev, ?_⟩
  rw [hrev, List.length_reverse]
  exact length_numeral_le _ hb1 (by omega) (hb.lt_pow hv)

/-! ## The parts -/

/-- The part of a field that `len` characters leave free, in `int` arithmetic. -/
def room (width : ℤ) (len : ℕ) : ℤ := if i32 len < width then i32 (width - i32 len) else 0

/-- The sign, if there is one. -/
def signText (f : Fmt) (neg : Bool) : List UInt8 := if signCh f neg ≠ 0 then [signCh f neg] else []

/-- What `#` puts before the digits. -/
def prefixText (f : Fmt) (uval base : ℕ) (upper : Bool) : List UInt8 :=
  if f.flags.alt ∧ uval ≠ 0 then
    if base = 8 then [ch '0']
    else if base = 16 then [ch '0', if upper then ch 'X' else ch 'x']
    else []
  else []

/-- The digits; with precision zero, zero has none. -/
def digitText (f : Fmt) (uval base : ℕ) (upper : Bool) : List UInt8 :=
  if f.prec = 0 ∧ uval = 0 then [] else numeral (digs upper) base uval

/-- How many zeros stand before the digits. -/
def zeroCount (f : Fmt) (ndig fixed : ℕ) : ℕ :=
  if 0 ≤ f.prec then (f.prec - ndig).toNat
  else if f.flags.zero ∧ ¬ f.flags.left then (f.width - fixed).toNat
  else 0

/-- The output of an integer conversion. -/
structure IntParts where
  left : List UInt8
  sign : List UInt8
  pre : List UInt8
  zeros : List UInt8
  digits : List UInt8
  right : List UInt8

def IntParts.text (p : IntParts) : List UInt8 :=
  p.left ++ p.sign ++ p.pre ++ p.zeros ++ p.digits ++ p.right

/-- The length of sign, prefix and digits. -/
def fixedLen (f : Fmt) (uval : ℕ) (neg : Bool) (base : ℕ) (upper : Bool) : ℕ :=
  (digitText f uval base upper).length + (prefixText f uval base upper).length +
    (signText f neg).length

def intParts (f : Fmt) (uval : ℕ) (neg : Bool) (base : ℕ) (upper : Bool) : IntParts :=
  let digits := digitText f uval base upper
  let fixed := fixedLen f uval neg base upper
  let zeros := zeroCount f digits.length fixed
  let gap := List.replicate (room f.width (fixed + zeros)).toNat (ch ' ')
  ⟨if f.flags.left then [] else gap, signText f neg, prefixText f uval base upper,
    List.replicate zeros (ch '0'), digits, if f.flags.left then gap else []⟩

/-- The zeros of `emit_int`, whose count is never below zero. -/
theorem zeroCount_eq (f : Fmt) (ndig fixed : ℕ) :
    ((zeroCount f ndig fixed : ℕ) : ℤ) =
      if 0 ≤ f.prec then
        if (ndig : ℤ) < f.prec then f.prec - ndig else 0
      else if f.flags.zero ∧ ¬ f.flags.left ∧ 0 < f.width then
        if (fixed : ℤ) < f.width then f.width - fixed else 0
      else 0 := by
  unfold zeroCount
  by_cases hprec : 0 ≤ f.prec
  · simp only [if_pos hprec]
    split_ifs <;> omega
  · simp only [if_neg hprec]
    by_cases hfill : f.flags.zero ∧ ¬ f.flags.left
    · rw [if_pos hfill]
      split_ifs with hw hlt
      · omega
      · omega
      · have hwidth : ¬ 0 < f.width := fun h => hw ⟨hfill.1, hfill.2, h⟩
        omega
    · rw [if_neg hfill, if_neg fun h => hfill ⟨h.1, h.2.1⟩]
      rfl

/-- `emit_int` puts out its parts. -/
theorem emitInt_eq (o : Out) (f : Fmt) {uval : ℕ} (hv : uval < u64) (neg : Bool) {base : ℕ}
    (hb : IsBase base) (upper : Bool) :
    emitInt o f uval neg base upper = o.putAll (intParts f uval neg base upper).text := by
  obtain ⟨htmp, -⟩ := utoaRev_eq hb hv upper
  unfold emitInt
  extract_lets tmp ndig sign pre fixed zeros totalLen padLen o₁ o₂ o₃ o₄ o₅
  have htake : (tmp.take ndig).reverse = digitText f uval base upper := by
    unfold digitText
    dsimp only [ndig, tmp]
    split_ifs with h0
    · simp
    · rw [List.take_length, htmp, List.reverse_reverse]
  have hle : ndig ≤ tmp.length := by
    dsimp only [ndig]
    split_ifs <;> omega
  have hndig : ndig = (digitText f uval base upper).length := by
    rw [← htake, List.length_reverse, List.length_take, Nat.min_eq_left hle]
  have hsign : (signText f neg).length = if sign ≠ 0 then 1 else 0 := by
    unfold signText
    split_ifs <;> rfl
  have hfixed : fixed = fixedLen f uval neg base upper := by
    unfold fixedLen
    dsimp only [fixed]
    rw [hndig, hsign]
    push_cast
    rfl
  have hzeros : zeros = zeroCount f (digitText f uval base upper).length
      (fixedLen f uval neg base upper) := by
    rw [zeroCount_eq, ← hfixed, ← hndig]
  have htotal : totalLen = i32 (fixedLen f uval neg base upper + zeroCount f
      (digitText f uval base upper).length (fixedLen f uval neg base upper) : ℕ) := by
    dsimp only [totalLen]
    rw [hfixed, hzeros]
    push_cast
    rfl
  have hpad : padLen = room f.width (fixedLen f uval neg base upper + zeroCount f
      (digitText f uval base upper).length (fixedLen f uval neg base upper)) := by
    unfold room
    rw [← htotal]
  have hput : ∀ o, (if sign ≠ 0 then outPutc o sign else o) = o.putAll (signText f neg) := by
    intro o
    unfold signText
    split_ifs <;> rfl
  have hpre : ∀ o, outWriteN o pre pre.length = o.putAll (prefixText f uval base upper) := by
    intro o
    rw [outWriteN_eq o le_rfl, List.take_length]
    rfl
  simp only [o₁, o₂, o₃, o₄, o₅, hput, hpre, pad_eq, putReversed_eq _ hle, htake]
  rw [hpad, hzeros, Int.toNat_natCast]
  unfold IntParts.text intParts
  cases f.flags.left <;> simp [Out.putAll_append]

/-! ## Exact lengths -/

theorem i32_of_lt {x : ℤ} (h : -2 ^ 31 ≤ x) (h' : x < 2 ^ 31) : i32 x = x := by
  rw [i32, Int.bmod_def]
  split_ifs <;> omega

theorem room_toNat {width : ℤ} {len : ℕ} (hw : width < 2 ^ 31) (hl : len < 2 ^ 31) :
    (room width len).toNat = (width - len).toNat := by
  unfold room
  rw [i32_of_lt (by omega) (by omega)]
  split_ifs
  · rw [i32_of_lt (by omega) (by omega)]
  · omega

/-- A width or precision that `emit_int` can be called with: none, or a number that leaves
space in an `int` for the other parts. -/
def IsExtent (x : ℤ) : Prop := x = -1 ∨ 0 ≤ x ∧ x ≤ 2 ^ 31 - 80

/-- What the parts of an integer's output are. -/
structure IntParts.Exact (f : Fmt) (uval : ℕ) (neg : Bool) (base : ℕ) (upper : Bool)
    (p : IntParts) : Prop where
  sign : p.sign = signText f neg
  pre : p.pre = prefixText f uval base upper
  zeros : ∀ c ∈ p.zeros, c = ch '0'
  spaces : ∀ c ∈ p.left ++ p.right, c = ch ' '
  no_digits : p.digits = [] ↔ uval = 0 ∧ f.prec = 0
  numeral : p.digits ≠ [] → p.digits = Numeral.numeral (digs upper) base uval
  value : value digitVal base p.digits = uval
  no_leading_zero : uval ≠ 0 → p.digits.head? ≠ some (ch '0')
  precision : 0 ≤ f.prec → ((p.zeros ++ p.digits).length : ℤ) = max f.prec p.digits.length
  total : (p.text.length : ℤ) =
    max f.width (p.sign.length + p.pre.length + max f.prec p.digits.length)
  left : ¬ f.flags.left → p.right = []
  right : f.flags.left → p.left = []
  filled : f.flags.zero ∧ ¬ f.flags.left ∧ f.prec < 0 → p.left = [] ∧ p.right = []
  unfilled : ¬ (f.flags.zero ∧ ¬ f.flags.left ∧ f.prec < 0) →
    ((p.zeros ++ p.digits).length : ℤ) = max f.prec p.digits.length

section
variable {f : Fmt} {uval base : ℕ} {neg upper : Bool}

theorem length_digitText_le (f : Fmt) (hb : IsBase base) (hv : uval < u64) (upper : Bool) :
    (digitText f uval base upper).length ≤ 22 := by
  have hb1 : 1 < base := by
    have := hb.bounds
    omega
  unfold digitText
  split_ifs
  · simp
  · exact length_numeral_le _ hb1 (by omega) (hb.lt_pow hv)

theorem length_signText_le (f : Fmt) (neg : Bool) : (signText f neg).length ≤ 1 := by
  unfold signText
  split_ifs <;> simp

theorem length_prefixText_le (f : Fmt) (uval base : ℕ) (upper : Bool) :
    (prefixText f uval base upper).length ≤ 2 := by
  unfold prefixText
  split_ifs <;> simp

theorem fixedLen_le (f : Fmt) (hb : IsBase base) (hv : uval < u64) (neg upper : Bool) :
    fixedLen f uval neg base upper ≤ 25 := by
  have h₁ := length_digitText_le f hb hv upper
  have h₂ := length_prefixText_le f uval base upper
  have h₃ := length_signText_le f neg
  unfold fixedLen
  omega

theorem digitText_eq_nil : digitText f uval base upper = [] ↔ uval = 0 ∧ f.prec = 0 := by
  unfold digitText
  split_ifs with h
  · simp [h]
  · simp only [numeral_ne_nil, false_iff]
    exact fun h' => h h'.symm

theorem value_digitText (f : Fmt) (hb : IsBase base) (uval : ℕ) (upper : Bool) :
    value digitVal base (digitText f uval base upper) = uval := by
  have hbounds := hb.bounds
  unfold digitText
  split_ifs with h
  · exact h.2.symm
  · exact value_numeral (by omega) (fun d hd => digitVal_digs upper (by omega)) uval

theorem digitText_head (f : Fmt) (hb : IsBase base) (hne : uval ≠ 0) (upper : Bool) :
    (digitText f uval base upper).head? ≠ some (ch '0') := by
  have hbounds := hb.bounds
  unfold digitText
  rw [if_neg fun h => hne h.2]
  obtain ⟨d, hd, hhead, hmem⟩ := numeral_head (digs upper) base hne
  rw [hhead]
  intro h
  have hlt : d < base := Nat.digits_lt_base (by omega) hmem
  have hval := digitVal_digs upper (show d < 16 by omega)
  rw [Option.some.inj h] at hval
  exact hd hval.symm

/-- Zeros stand for a precision, or fill the field. -/
theorem zeroCount_spec (f : Fmt) (ndig fixed : ℕ) :
    (f.flags.zero ∧ ¬ f.flags.left ∧ f.prec < 0 ∧ zeroCount f ndig fixed = (f.width - fixed).toNat) ∨
      (¬ (f.flags.zero ∧ ¬ f.flags.left ∧ f.prec < 0) ∧
        (zeroCount f ndig fixed + ndig : ℤ) = max f.prec ndig) := by
  unfold zeroCount
  split_ifs with hprec hfill
  · exact .inr ⟨fun h => by omega, by omega⟩
  · exact .inl ⟨hfill.1, hfill.2, by omega, rfl⟩
  · exact .inr ⟨fun h => hfill ⟨h.1, h.2.1⟩, by omega⟩

theorem intParts_gap (hb : IsBase base) (hv : uval < u64) (hwidth : IsExtent f.width)
    (hprec : IsExtent f.prec) (neg upper : Bool) :
    (intParts f uval neg base upper).left ++ (intParts f uval neg base upper).right =
      List.replicate (f.width - (fixedLen f uval neg base upper + zeroCount f
        (digitText f uval base upper).length (fixedLen f uval neg base upper) : ℕ)).toNat (ch ' ') := by
  have hfixed := fixedLen_le f hb hv neg upper
  have hw : f.width ≤ 2 ^ 31 - 80 := by
    unfold IsExtent at hwidth
    omega
  have hp : f.prec ≤ 2 ^ 31 - 80 := by
    unfold IsExtent at hprec
    omega
  have hsum : fixedLen f uval neg base upper + zeroCount f
      (digitText f uval base upper).length (fixedLen f uval neg base upper) < 2 ^ 31 := by
    unfold zeroCount
    split_ifs <;> omega
  rw [← room_toNat (by omega) hsum]
  unfold intParts
  cases f.flags.left <;> simp

theorem IntParts.length_text (p : IntParts) : p.text.length =
    (p.left ++ p.right).length + p.sign.length + p.pre.length + (p.zeros ++ p.digits).length := by
  simp only [IntParts.text, List.length_append]
  omega

theorem intParts_exact (hb : IsBase base) (hv : uval < u64) (hwidth : IsExtent f.width)
    (hprec : IsExtent f.prec) :
    (intParts f uval neg base upper).Exact f uval neg base upper := by
  have hgap := intParts_gap hb hv hwidth hprec neg upper
  have hspec := zeroCount_spec f (digitText f uval base upper).length
    (fixedLen f uval neg base upper)
  have hzeros : ((intParts f uval neg base upper).zeros ++
      (intParts f uval neg base upper).digits).length =
      zeroCount f (digitText f uval base upper).length (fixedLen f uval neg base upper) +
        (digitText f uval base upper).length := by
    simp [intParts]
  have hfixed : fixedLen f uval neg base upper = (digitText f uval base upper).length +
      (prefixText f uval base upper).length + (signText f neg).length := rfl
  constructor
  case sign => rfl
  case pre => rfl
  case zeros => exact fun c hc => List.eq_of_mem_replicate hc
  case spaces =>
    rw [hgap]
    exact fun c hc => List.eq_of_mem_replicate hc
  case no_digits => exact digitText_eq_nil
  case numeral =>
    intro hne
    change digitText f uval base upper ≠ [] at hne
    change digitText f uval base upper = _
    rw [Ne, digitText_eq_nil] at hne
    exact if_neg fun h => hne h.symm
  case value => exact value_digitText f hb uval upper
  case no_leading_zero => exact fun hne => digitText_head f hb hne upper
  case precision =>
    intro hpos
    obtain ⟨-, -, hneg, -⟩ | ⟨-, hmax⟩ := hspec
    · omega
    · rw [hzeros]
      exact_mod_cast hmax
  case total =>
    have hsign : (intParts f uval neg base upper).sign = signText f neg := rfl
    have hpre : (intParts f uval neg base upper).pre = prefixText f uval base upper := rfl
    have hdigits : (intParts f uval neg base upper).digits = digitText f uval base upper := rfl
    rw [IntParts.length_text, hgap, hzeros, List.length_replicate, hsign, hpre, hdigits]
    unfold IsExtent at hwidth hprec
    omega
  case left =>
    intro hl
    simp [intParts, hl]
  case right =>
    intro hl
    simp [intParts, hl]
  case filled =>
    intro hfill
    obtain ⟨-, -, -, hcount⟩ | ⟨hno, -⟩ := hspec
    · have hnil : (f.width - (fixedLen f uval neg base upper + zeroCount f
        (digitText f uval base upper).length (fixedLen f uval neg base upper) : ℕ)).toNat = 0 := by
        omega
      rw [hnil] at hgap
      exact List.append_eq_nil_iff.mp hgap
    · exact absurd hfill hno
  case unfilled =>
    intro hno
    obtain ⟨hz, hl, hneg, -⟩ | ⟨-, hmax⟩ := hspec
    · exact absurd ⟨hz, hl, hneg⟩ hno
    · rw [hzeros]
      exact_mod_cast hmax

/-- Every integer is put out exactly, and its digits fit the buffer. -/
theorem emitInt_exact (f : Fmt) {uval : ℕ} (hv : uval < u64) (neg : Bool) {base : ℕ}
    (hb : IsBase base) (upper : Bool) (hwidth : IsExtent f.width) (hprec : IsExtent f.prec) :
    (utoaRev uval base upper = (numeral (digs upper) base uval).reverse ∧
      (utoaRev uval base upper).length ≤ 64) ∧
      ∃ p : IntParts, p.Exact f uval neg base upper ∧
        ∀ o, emitInt o f uval neg base upper = o.putAll p.text := by
  obtain ⟨hrev, hlen⟩ := utoaRev_eq hb hv upper
  exact ⟨⟨hrev, by omega⟩, intParts f uval neg base upper, intParts_exact hb hv hwidth hprec,
    fun o => emitInt_eq o f hv neg hb upper⟩

/-- `%#08x` of 255. -/
theorem emitInt_exact_ff :
    (utoaRev 255 16 false = (numeral (digs false) 16 255).reverse ∧
      (utoaRev 255 16 false).length ≤ 64) ∧
      ∃ p : IntParts, p.Exact { flags := { zero := true, alt := true }, width := 8 } 255 false 16 false ∧
        ∀ o, emitInt o { flags := { zero := true, alt := true }, width := 8 } 255 false 16 false =
          o.putAll p.text :=
  emitInt_exact { flags := { zero := true, alt := true }, width := 8 } (by decide) false
    (.inr (.inr rfl)) false (.inr (by decide)) (.inl rfl)

end

end JanusRT.Snprintf
