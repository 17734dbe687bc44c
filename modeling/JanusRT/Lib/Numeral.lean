import Mathlib.Data.Nat.Digits.Lemmas
import Mathlib.Tactic

/-!
# Positional numerals

A numeral is the list of a number's digits, most significant first, written with an
alphabet of its own. Zero has one digit. `value` reads a numeral back by Horner's rule,
and `digitLoop` is the usual program that produces the digits from the least
significant one on.
-/
namespace Numeral

variable {α : Type*}

/-- The numeral of `n` in base `b`, with `enc` for the digits. -/
def numeral (enc : ℕ → α) (b n : ℕ) : List α :=
  if n = 0 then [enc 0] else ((Nat.digits b n).map enc).reverse

/-- Horner's rule. -/
def value (dec : α → ℕ) (b : ℕ) (cs : List α) : ℕ := cs.foldl (fun acc c => acc * b + dec c) 0

/-- Divide and keep the remainders, for at most `fuel` digits. -/
def digitLoop (enc : ℕ → α) (b : ℕ) : ℕ → ℕ → List α
  | 0, _ => []
  | fuel + 1, n => if n = 0 then [] else enc (n % b) :: digitLoop enc b fuel (n / b)

theorem digitLoop_eq (enc : ℕ → α) {b : ℕ} (hb : 1 < b) {fuel n : ℕ} (h : n < b ^ fuel) :
    digitLoop enc b fuel n = (Nat.digits b n).map enc := by
  induction fuel generalizing n with
  | zero =>
    obtain rfl : n = 0 := by simpa using h
    simp [digitLoop]
  | succ fuel ih =>
    unfold digitLoop
    split_ifs with hn
    · simp [hn]
    · have hdiv : n / b < b ^ fuel := by
        rw [Nat.div_lt_iff_lt_mul (by omega), ← pow_succ]
        exact h
      rw [Nat.digits_def' hb (Nat.pos_of_ne_zero hn), List.map_cons, ih hdiv]

theorem numeral_ne_nil (enc : ℕ → α) (b n : ℕ) : numeral enc b n ≠ [] := by
  unfold numeral
  split_ifs with h
  · simp
  · simpa using Nat.digits_ne_nil_iff_ne_zero.mpr h

/-- Every character of a numeral is a digit. -/
theorem mem_numeral {enc : ℕ → α} {b n : ℕ} (hb : 1 < b) {c : α} (hc : c ∈ numeral enc b n) :
    ∃ d < b, c = enc d := by
  unfold numeral at hc
  split_ifs at hc
  · exact ⟨0, by omega, by simpa using hc⟩
  · rw [List.mem_reverse, List.mem_map] at hc
    obtain ⟨d, hd, rfl⟩ := hc
    exact ⟨d, Nat.digits_lt_base hb hd, rfl⟩

/-- There is no leading zero. -/
theorem numeral_head (enc : ℕ → α) (b : ℕ) {n : ℕ} (hn : n ≠ 0) :
    ∃ d, d ≠ 0 ∧ (numeral enc b n).head? = some (enc d) ∧ d ∈ Nat.digits b n := by
  have hne : Nat.digits b n ≠ [] := Nat.digits_ne_nil_iff_ne_zero.mpr hn
  refine ⟨(Nat.digits b n).getLast hne, Nat.getLast_digit_ne_zero b hn, ?_, List.getLast_mem hne⟩
  rw [numeral, if_neg hn, List.head?_reverse, List.getLast?_map, List.getLast?_eq_getLast_of_ne_nil hne]
  rfl

theorem length_numeral_le (enc : ℕ → α) {b k n : ℕ} (hb : 1 < b) (hk : 0 < k) (h : n < b ^ k) :
    (numeral enc b n).length ≤ k := by
  unfold numeral
  split_ifs with hn
  · exact hk
  · rw [List.length_reverse, List.length_map, Nat.digits_length_le_iff hb]
    exact h

@[simp] theorem value_nil (dec : α → ℕ) (b : ℕ) : value dec b [] = 0 := rfl

theorem value_append_singleton (dec : α → ℕ) (b : ℕ) (cs : List α) (c : α) :
    value dec b (cs ++ [c]) = value dec b cs * b + dec c := by
  simp [value]

theorem value_reverse_map {enc : ℕ → α} {dec : α → ℕ} {b : ℕ} {ds : List ℕ}
    (h : ∀ d ∈ ds, dec (enc d) = d) :
    value dec b (ds.map enc).reverse = Nat.ofDigits b ds := by
  induction ds with
  | nil => rfl
  | cons d ds ih =>
    rw [List.map_cons, List.reverse_cons, value_append_singleton, Nat.ofDigits_cons,
      ih fun e he => h e (List.mem_cons_of_mem _ he), h d List.mem_cons_self]
    ring

/-- Reading a numeral back gives the number. -/
theorem value_numeral {enc : ℕ → α} {dec : α → ℕ} {b : ℕ} (hb : 1 < b)
    (h : ∀ d < b, dec (enc d) = d) (n : ℕ) : value dec b (numeral enc b n) = n := by
  unfold numeral
  split_ifs with hn
  · rw [hn]
    simpa [value] using h 0 (by omega)
  · rw [value_reverse_map fun d hd => h d (Nat.digits_lt_base hb hd), Nat.ofDigits_digits]

/-- Zeros in front do not count. -/
theorem value_zeros {dec : α → ℕ} {b : ℕ} {c : α} (hc : dec c = 0) (k : ℕ) (cs : List α) :
    value dec b (List.replicate k c ++ cs) = value dec b cs := by
  induction k with
  | zero => rfl
  | succ k ih =>
    rw [List.replicate_succ, List.cons_append, value, List.foldl_cons, hc, Nat.zero_mul]
    exact ih

/-! ## A fixed number of digits -/

/-- The lowest `k` digits, most significant first. -/
def padded (enc : ℕ → α) (b k n : ℕ) : List α :=
  (List.range k).map fun i => enc (n / b ^ (k - 1 - i) % b)

theorem padded_succ (enc : ℕ → α) (b k n : ℕ) :
    padded enc b (k + 1) n = padded enc b k (n / b) ++ [enc (n % b)] := by
  unfold padded
  rw [List.range_succ, List.map_append]
  congr 1
  · apply List.map_congr_left
    intro i hi
    rw [List.mem_range] at hi
    rw [Nat.div_div_eq_div_mul, ← pow_succ']
    congr 4
    omega
  · simp

theorem numeral_of_lt (enc : ℕ → α) {b n : ℕ} (h : n < b) : numeral enc b n = [enc n] := by
  unfold numeral
  split_ifs with hn
  · rw [hn]
  · rw [Nat.digits_of_lt b n hn h]
    rfl

theorem numeral_of_le (enc : ℕ → α) {b n : ℕ} (hb : 1 < b) (h : b ≤ n) :
    numeral enc b n = numeral enc b (n / b) ++ [enc (n % b)] := by
  have hdiv : n / b ≠ 0 := (Nat.div_pos h (by omega)).ne'
  rw [numeral, numeral, if_neg (by omega), if_neg hdiv, Nat.digits_def' hb (by omega)]
  simp

/-- The digits in front of the numeral are zeros. -/
theorem padded_eq (enc : ℕ → α) {b k n : ℕ} (hb : 1 < b) (hk : 0 < k) (h : n < b ^ k) :
    padded enc b k n = List.replicate (k - (numeral enc b n).length) (enc 0) ++ numeral enc b n := by
  induction k generalizing n with
  | zero => omega
  | succ k ih =>
    rw [padded_succ]
    rcases Nat.eq_zero_or_pos k with rfl | hpos
    · rw [zero_add, pow_one] at h
      rw [numeral_of_lt enc h, Nat.mod_eq_of_lt h]
      rfl
    · have hdiv : n / b < b ^ k := by
        rw [Nat.div_lt_iff_lt_mul (by omega), ← pow_succ]
        exact h
      rw [ih hpos hdiv]
      rcases Nat.lt_or_ge n b with hlt | hge
      · rw [Nat.div_eq_of_lt hlt, Nat.mod_eq_of_lt hlt, numeral_of_lt enc hlt,
          numeral_of_lt enc (show 0 < b by omega), List.length_singleton, List.length_singleton,
          ← List.replicate_succ', Nat.sub_add_cancel hpos, Nat.add_sub_cancel]
      · rw [numeral_of_le enc hb hge, List.length_append, List.length_singleton, ← List.append_assoc,
          Nat.add_sub_add_right]

end Numeral
