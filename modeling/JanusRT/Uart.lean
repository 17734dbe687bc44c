import JanusRT.Truncation

/-!
# What the console functions print

The characters that `uart_puts` gets to see: the numbers that `uart.c` and `sync.c` write into
arrays on the stack, from the last digit to the first, and what `printf` leaves in its buffer. What
the arrays hold at first is left open, and a string that does not end in its array is `none`.
-/
namespace JanusRT.Uart

open Outcome Snprintf Numeral

/-! ## Strings in arrays -/

/-- The characters from `i` on up to the zero, which must come within `n` characters. -/
def cString (buf : ℕ → UInt8) : ℕ → ℕ → Option (List UInt8)
  | 0, _ => none
  | n + 1, i => if buf i = 0 then some [] else (cString buf n (i + 1)).map (buf i :: ·)

/-- What stands in front of the string is not read. -/
theorem cString_congr {buf buf' : ℕ → UInt8} {n i : ℕ} (h : ∀ j ≥ i, buf j = buf' j) :
    cString buf n i = cString buf' n i := by
  induction n generalizing i with
  | zero => rfl
  | succ n ih => rw [cString, cString, h i le_rfl, ih fun j hj => h j (by omega)]

theorem cString_eq {buf : ℕ → UInt8} {n i : ℕ} {cs : List UInt8}
    (hbuf : ∀ k (hk : k < cs.length), buf (i + k) = cs[k]) (hend : buf (i + cs.length) = 0)
    (hn : cs.length < n) : cString buf n i = some (cs.takeWhile (· ≠ 0)) := by
  induction cs generalizing n i with
  | nil =>
    obtain ⟨m, rfl⟩ := Nat.exists_eq_succ_of_ne_zero (show n ≠ 0 by omega)
    exact if_pos hend
  | cons c cs ih =>
    rw [List.length_cons] at hn hend
    obtain ⟨m, rfl⟩ := Nat.exists_eq_succ_of_ne_zero (show n ≠ 0 by omega)
    have hc : buf i = c := hbuf 0 (Nat.succ_pos _)
    have htail : cString buf m (i + 1) = some (cs.takeWhile (· ≠ 0)) := by
      apply ih _ (by rw [← hend]; congr 1; omega) (by omega)
      intro k hk
      rw [show i + 1 + k = i + (k + 1) by omega]
      exact hbuf (k + 1) (Nat.succ_lt_succ hk)
    rw [cString, htail, hc, List.takeWhile_cons]
    by_cases hz : c = 0 <;> simp [hz]

/-! ## Digits in arrays -/

/-- `while (v && i >= 0)`, where the first argument is `i + 1`: the array and `i + 1` at the end. -/
def digitStores (enc : ℕ → UInt8) (base : ℕ) : ℕ → (ℕ → UInt8) → ℕ → (ℕ → UInt8) × ℕ
  | 0, buf, _ => (buf, 0)
  | i + 1, buf, v =>
    if v = 0 then (buf, i + 1)
    else digitStores enc base i (Function.update buf i (enc (v % base))) (v / base)

/-- What `uart_putu64` and `uart_puthex` print by way of an array of `size` characters. -/
def putNumber (enc : ℕ → UInt8) (base size : ℕ) (junk : ℕ → UInt8) (v : ℕ) : Option (List UInt8) :=
  if v = 0 then some [ch '0']
  else
    let r := digitStores enc base (size - 1) (Function.update junk (size - 1) 0) v
    cString r.1 (size - r.2) r.2

/-- `'0' + d`. -/
def decimal (d : ℕ) : UInt8 := ch '0' + d.toUInt8

/-- `tohex`. -/
def tohex (i : ℕ) : UInt8 := if i < 10 then ch '0' + i.toUInt8 else ch 'A' + (i - 10).toUInt8

/-- `uart_putu64`. -/
def uartPutu64 (junk : ℕ → UInt8) (v : ℕ) : Option (List UInt8) := putNumber decimal 10 21 junk v

/-- `uart_putu32`. -/
def uartPutu32 (junk : ℕ → UInt8) (v : ℕ) : Option (List UInt8) := uartPutu64 junk v

/-- `uart_puthex`. -/
def uartPuthex (junk : ℕ → UInt8) (v : ℕ) : Option (List UInt8) := putNumber tohex 16 17 junk v

/-- `print_u32`, which clears its array and stores a first digit in any case. -/
def printU32 (junk : ℕ → UInt8) (v : ℕ) : Option (List UInt8) :=
  let buf := fun i => if i < 11 then 0 else junk i
  let r := digitStores decimal 10 9 (Function.update buf 9 (decimal (v % 10))) (v / 10)
  cString r.1 (11 - r.2) r.2

/-- `print_hex64`, from the highest four bits to the lowest. -/
def printHex64 (v : ℕ) : List UInt8 :=
  (List.range 16).map fun k =>
    let nib := v / 2 ^ (60 - 4 * k) % 2 ^ 4
    if nib < 10 then ch '0' + nib.toUInt8 else ch 'a' + (nib - 10).toUInt8

/-- The loop puts the digits in front of the string that is there. -/
theorem digitStores_string {enc : ℕ → UInt8} {base : ℕ} (hb : 1 < base)
    (henc : ∀ d < base, enc d ≠ 0) {p n v : ℕ} {buf : ℕ → UInt8} {cs : List UInt8}
    (hv : v < base ^ p) (hcs : cString buf n p = some cs) :
    (digitStores enc base p buf v).2 ≤ p ∧
      cString (digitStores enc base p buf v).1 (n + (p - (digitStores enc base p buf v).2))
        (digitStores enc base p buf v).2 = some (((Nat.digits base v).map enc).reverse ++ cs) := by
  induction p generalizing n v buf cs with
  | zero =>
    obtain rfl : v = 0 := by simpa using hv
    exact ⟨le_rfl, by simpa [digitStores] using hcs⟩
  | succ p ih =>
    unfold digitStores
    split_ifs with hz
    · exact ⟨le_rfl, by simpa [hz] using hcs⟩
    · have hdiv : v / base < base ^ p := by
        rw [Nat.div_lt_iff_lt_mul (by omega), ← pow_succ]
        exact hv
      have hne := henc (v % base) (Nat.mod_lt _ (by omega))
      have hstored : cString (Function.update buf p (enc (v % base))) (n + 1) p =
          some (enc (v % base) :: cs) := by
        have htail : cString (Function.update buf p (enc (v % base))) n (p + 1) =
            cString buf n (p + 1) :=
          cString_congr fun j hj => Function.update_of_ne (show j ≠ p by omega) _ _
        rw [cString, Function.update_self, if_neg hne, htail, hcs]
        rfl
      obtain ⟨hle, hstring⟩ := ih hdiv hstored
      refine ⟨by omega, ?_⟩
      rw [Nat.digits_def' hb (by omega), List.map_cons, List.reverse_cons, List.append_assoc,
        List.singleton_append, ← hstring]
      congr 1
      omega

theorem putNumber_eq {enc : ℕ → UInt8} {base size : ℕ} (hb : 1 < base)
    (henc : ∀ d < base, enc d ≠ 0) (hzero : enc 0 = ch '0') (junk : ℕ → UInt8) {v : ℕ}
    (hsize : 0 < size) (hv : v < base ^ (size - 1)) :
    putNumber enc base size junk v = some (numeral enc base v) := by
  unfold putNumber numeral
  split_ifs with hz
  · rw [hzero]
  · have hempty : cString (Function.update junk (size - 1) 0) 1 (size - 1) = some [] :=
      if_pos (Function.update_self ..)
    obtain ⟨hle, hstring⟩ := digitStores_string hb henc hv hempty
    rw [List.append_nil] at hstring
    rw [← hstring]
    simp only
    congr 1
    omega

/-! ## The same numbers by `printf` -/

theorem decimal_eq {d : ℕ} (h : d < 10) : decimal d = digs false d := by
  revert d
  decide

theorem tohex_eq {d : ℕ} (h : d < 16) : tohex d = digs true d := by
  revert d
  decide

theorem digs_ne_zero (upper : Bool) {d : ℕ} (h : d < 16) : digs upper d ≠ 0 := by
  revert upper d
  decide

theorem numeral_congr {enc enc' : ℕ → UInt8} {base : ℕ} (hb : 1 < base)
    (h : ∀ d < base, enc d = enc' d) (v : ℕ) : numeral enc base v = numeral enc' base v := by
  unfold numeral
  split_ifs
  · rw [h 0 (by omega)]
  · congr 1
    apply List.map_congr_left
    intro d hd
    exact h d (Nat.digits_lt_base hb hd)

theorem uartPutu64_eq (junk : ℕ → UInt8) {v : ℕ} (hv : v < u64) :
    uartPutu64 junk v = some (numeral (digs false) 10 v) := by
  have hu : u64 ≤ 10 ^ (21 - 1) := by norm_num [u64]
  rw [uartPutu64, putNumber_eq (by omega) _ rfl junk (by omega) (hv.trans_le hu),
    numeral_congr (by omega) fun d hd => decimal_eq hd]
  intro d hd
  rw [decimal_eq hd]
  exact digs_ne_zero false (by omega)

theorem uartPuthex_eq (junk : ℕ → UInt8) {v : ℕ} (hv : v < u64) :
    uartPuthex junk v = some (numeral (digs true) 16 v) := by
  have hu : u64 ≤ 16 ^ (17 - 1) := by norm_num [u64]
  rw [uartPuthex, putNumber_eq (by omega) _ rfl junk (by omega) (hv.trans_le hu),
    numeral_congr (by omega) fun d hd => tohex_eq hd]
  intro d hd
  rw [tohex_eq hd]
  exact digs_ne_zero true hd

theorem printU32_eq (junk : ℕ → UInt8) {v : ℕ} (hv : v < 2 ^ 32) :
    printU32 junk v = some (numeral (digs false) 10 v) := by
  have hdec : ∀ d < 10, decimal d ≠ 0 := by
    intro d hd
    rw [decimal_eq hd]
    exact digs_ne_zero false (by omega)
  have hdiv : v / 10 < 10 ^ 9 := by omega
  have hmod : v % 10 < 10 := Nat.mod_lt _ (by omega)
  have hfirst : cString (Function.update (fun i => if i < 11 then 0 else junk i) 9
      (decimal (v % 10))) 2 9 = some [decimal (v % 10)] := by
    simp [cString, hdec _ hmod, Function.update]
  obtain ⟨hle, hstring⟩ := digitStores_string (show 1 < 10 by omega) hdec hdiv hfirst
  have hnum : ((Nat.digits 10 (v / 10)).map decimal).reverse ++ [decimal (v % 10)] =
      numeral decimal 10 v := by
    rcases Nat.lt_or_ge v 10 with hlt | hge
    · rw [numeral_of_lt decimal hlt, Nat.div_eq_of_lt hlt, Nat.mod_eq_of_lt hlt]
      rfl
    · rw [numeral_of_le decimal (by omega) hge, numeral, if_neg (by omega)]
  rw [← numeral_congr (by omega) fun d hd => decimal_eq hd, ← hnum, ← hstring, printU32]
  congr 1
  omega

theorem printHex64_eq {v : ℕ} (hv : v < u64) : printHex64 v =
    List.replicate (16 - (numeral (digs false) 16 v).length) (ch '0') ++
      numeral (digs false) 16 v := by
  have hpad := padded_eq (digs false) (show 1 < 16 by omega) (show 0 < 16 by omega)
    (show v < 16 ^ 16 by exact hv)
  refine Eq.trans ?_ hpad
  unfold printHex64 padded
  apply List.map_congr_left
  intro k hk
  rw [List.mem_range] at hk
  have hpow : 2 ^ (60 - 4 * k) = 16 ^ (16 - 1 - k) := by
    rw [show 60 - 4 * k = 4 * (16 - 1 - k) by omega, pow_mul]
    norm_num
  rw [hpow]
  rfl

section Printf
variable {δ : Type}

/-- The characters of a C string. -/
def text (s : String) : List UInt8 := s.toList.map ch

/-- An unsigned number with zeros up to the width, or without a width. -/
theorem intParts_unsigned {f : Fmt} {base v : ℕ} (hb : IsBase base) (hv : v < u64) (upper : Bool)
    (hwidth : IsExtent f.width) (hprec : f.prec = -1) (hleft : f.flags.left = false)
    (hsign : signCh f false = 0) (halt : f.flags.alt = false)
    (hzero : f.flags.zero = false → f.width = -1) : (intParts f v false base upper).text =
      List.replicate (f.width - (numeral (digs upper) base v).length).toNat (ch '0') ++
        numeral (digs upper) base v := by
  have hdigits : digitText f v base upper = numeral (digs upper) base v :=
    if_neg fun h => by omega
  have hnosign : signText f false = [] := if_neg fun h => h hsign
  have hnopre : prefixText f v base upper = [] := if_neg fun h => by simp [halt] at h
  have hfixed : fixedLen f v false base upper = (numeral (digs upper) base v).length := by
    rw [fixedLen, hdigits, hnosign, hnopre]
    rfl
  have hcount : zeroCount f (numeral (digs upper) base v).length
      (numeral (digs upper) base v).length =
        (f.width - (numeral (digs upper) base v).length).toNat := by
    rw [zeroCount, if_neg (by omega)]
    cases hz : f.flags.zero with
    | false =>
      rw [if_neg (by simp), hzero hz]
      omega
    | true => rw [if_pos (by simp [hleft])]
  have hgap := intParts_gap hb hv hwidth (.inl hprec) false upper
  rw [hfixed, hdigits, hcount, show (f.width - ((numeral (digs upper) base v).length +
    (f.width - (numeral (digs upper) base v).length).toNat : ℕ)).toNat = 0 by omega,
    List.replicate_zero, List.append_eq_nil_iff] at hgap
  obtain ⟨hnoleft, hnoright⟩ := hgap
  have hzeros : (intParts f v false base upper).zeros =
      List.replicate (f.width - (numeral (digs upper) base v).length).toNat (ch '0') := by
    rw [← hcount]
    simp only [intParts, hdigits, hfixed]
  rw [IntParts.text, hnoleft, hnoright, hzeros,
    show (intParts f v false base upper).sign = [] from hnosign,
    show (intParts f v false base upper).pre = [] from hnopre,
    show (intParts f v false base upper).digits = _ from hdigits, List.append_nil]
  rfl

theorem value_numeral_digs {base : ℕ} (hb : IsBase base) (upper : Bool) (v : ℕ) :
    value digitVal base (numeral (digs upper) base v) = v := by
  have hbounds := hb.bounds
  exact value_numeral (by omega) (fun d hd => digitVal_digs upper (by omega)) v

/-- Every number printer puts out what `printf` does for the same number, which is the number
itself, whatever its array has held before. -/
theorem printers_agree (float : Fmt → δ → List UInt8) (junk : ℕ → UInt8) {v : ℕ} (hv : v < u64) :
    (∃ cs, uartPutu64 junk v = some cs ∧ callText float (text "%llu") [.word v] = .ok cs ∧
      value digitVal 10 cs = v) ∧
    (∃ cs, uartPuthex junk v = some cs ∧ callText float (text "%llX") [.word v] = .ok cs ∧
      value digitVal 16 cs = v) ∧
    (callText float (text "%016llx") [.word v] = .ok (printHex64 v) ∧
      (printHex64 v).length = 16 ∧ value digitVal 16 (printHex64 v) = v) ∧
    (v < 2 ^ 32 → ∃ cs, printU32 junk v = some cs ∧
      callText float (text "%u") [.word v] = .ok cs ∧ value digitVal 10 cs = v) := by
  have hb10 : IsBase 10 := .inr (.inl rfl)
  have hb16 : IsBase 16 := .inr (.inr rfl)
  refine ⟨⟨_, uartPutu64_eq junk hv, ?_, value_numeral_digs hb10 false v⟩,
    ⟨_, uartPuthex_eq junk hv, ?_, value_numeral_digs hb16 true v⟩, ⟨?_, ?_, ?_⟩, ?_⟩
  · have hcall : callText float (text "%llu") [.word v] =
        .ok ((intParts ⟨{}, -1, -1, .ll, ch 'u'⟩ (v % 2 ^ 64) false 10 false).text ++ []) := rfl
    rw [hcall, List.append_nil, Nat.mod_eq_of_lt (show v < 2 ^ 64 from hv),
      intParts_unsigned hb10 hv false (.inl rfl) rfl rfl rfl rfl fun _ => rfl]
    simp
  · have hcall : callText float (text "%llX") [.word v] =
        .ok ((intParts ⟨{}, -1, -1, .ll, ch 'X'⟩ (v % 2 ^ 64) false 16 true).text ++ []) := rfl
    rw [hcall, List.append_nil, Nat.mod_eq_of_lt (show v < 2 ^ 64 from hv),
      intParts_unsigned hb16 hv true (.inl rfl) rfl rfl rfl rfl fun _ => rfl]
    simp
  · have hcall : callText float (text "%016llx") [.word v] = .ok ((intParts
        ⟨{ zero := true }, 16, -1, .ll, ch 'x'⟩ (v % 2 ^ 64) false 16 false).text ++ []) := rfl
    rw [hcall, List.append_nil, Nat.mod_eq_of_lt (show v < 2 ^ 64 from hv),
      intParts_unsigned hb16 hv false (.inr ⟨by decide, by decide⟩) rfl rfl rfl rfl
        (fun h => by cases h), printHex64_eq hv]
    congr 3
    change ((16 : ℤ) - _).toNat = 16 - _
    omega
  · simp [printHex64]
  · have hzero : digitVal (ch '0') = 0 := rfl
    rw [printHex64_eq hv, value_zeros hzero, value_numeral_digs hb16]
  · intro hv32
    refine ⟨_, printU32_eq junk hv32, ?_, value_numeral_digs hb10 false v⟩
    have hcall : callText float (text "%u") [.word v] =
        .ok ((intParts ⟨{}, -1, -1, .none, ch 'u'⟩ (v % 2 ^ 32) false 10 false).text ++ []) := rfl
    rw [hcall, List.append_nil, Nat.mod_eq_of_lt hv32,
      intParts_unsigned hb10 hv false (.inl rfl) rfl rfl rfl rfl fun _ => rfl]
    simp

/-- 255 in decimal. -/
theorem printers_agree_byte : ∃ cs, uartPutu64 (fun _ => 1) 255 = some cs ∧
    callText (fun _ (x : List UInt8) => x) (text "%llu") [.word 255] = .ok cs ∧
      value digitVal 10 cs = 255 :=
  (printers_agree (fun _ (x : List UInt8) => x) (fun _ => 1) (by decide)).1

/-! ## `printf` -/

/-- `PRINTF_MAX`. -/
def printfMax : ℕ := 4096

/-- `vprintf`: what it puts out and what it returns. -/
def vprintf (float : Fmt → δ → List UInt8) (junk : ℕ → UInt8) (fmt : List UInt8)
    (ap : List (Arg δ)) : Except Fault (Option (List UInt8) × ℤ) := do
  let p ← vsnprintf float junk printfMax fmt ap
  return (cString p.buf printfMax 0, p.ret)

/-- The string that is left in a buffer. -/
theorem cString_terminated (junk : ℕ → UInt8) {n : ℕ} (hn : 1 < n) {cs : List UInt8}
    (hlen : cs.length < u64) : cString (outTerminate ((outInit junk n).putAll cs)).buf n 0 =
      some ((cs.take (n - 1)).takeWhile (· ≠ 0)) := by
  have hcap₀ := outInit_cap junk n
  obtain ⟨hend, -, hput⟩ := (outInit junk n).putAll_get (show 0 + cs.length < u64 by omega)
  obtain ⟨hcap, -⟩ := (outInit junk n).putAll_above cs
  rw [hcap₀] at hcap hput
  have hstart : (outInit junk n).len = 0 := rfl
  simp only [hstart, Nat.zero_add] at hend hput
  apply cString_eq
  · intro k hk
    rw [List.length_take] at hk
    rw [Nat.zero_add, terminate_below _ (by omega) (by omega), hput k (by omega) (by omega)]
    exact List.getElem_take.symm
  · rw [outTerminate, if_pos (by omega), List.length_take, hend, hcap, Nat.zero_add]
    have hmin : (if cs.length < n - 1 then cs.length else n - 1) = min (n - 1) cs.length := by
      split_ifs <;> omega
    rw [hmin]
    exact Function.update_self ..
  · rw [List.length_take]
    omega

/-- `printf` prints the characters of its format up to a zero or the size of its buffer, and
nothing that was in the buffer before. -/
theorem vprintf_text (float : Fmt → δ → List UInt8) (junk : ℕ → UInt8) (fmt : List UInt8)
    (ap : List (Arg δ)) :
    (callText float fmt ap = .error .argument ∧ vprintf float junk fmt ap = .error .argument) ∨
      ∃ cs, callText float fmt ap = .ok cs ∧ (cs.length < u64 → vprintf float junk fmt ap =
        .ok (some ((cs.take (printfMax - 1)).takeWhile (· ≠ 0)), i32 cs.length)) := by
  obtain ⟨herror, hrun⟩ | ⟨cs, st, hcs, hrun⟩ := vsnprintf_renders float junk printfMax fmt ap
  · exact .inl ⟨herror, by rw [vprintf, hrun]; rfl⟩
  · refine .inr ⟨cs, hcs, ?_⟩
    intro hlen
    have hend := ((outInit junk printfMax).putAll_get (show 0 + cs.length < u64 by omega)).1
    have hstring := cString_terminated junk (show 1 < printfMax by decide) hlen
    rw [vprintf, hrun, ok_bind, hstring, hend, show (outInit junk printfMax).len = 0 from rfl,
      Nat.zero_add]
    simp only [pure, Except.pure]

end Printf

end JanusRT.Uart
