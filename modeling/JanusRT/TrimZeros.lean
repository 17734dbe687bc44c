import JanusRT.IntegerText
import Mathlib.Data.List.DropRight

/-!
# Trimming `%g`

`trim_trailing_zeros` cuts the zeros off the end of what `emit_float_f` or `emit_float_e`
has printed. It does not look where they stand: with an exponent or spaces behind the
fraction the end of the text is not the end of the fraction. What a text means is given
by a reader of decimal numbers.
-/
namespace JanusRT.Snprintf

open Numeral

/-! ## The code -/

/-- The first loop: where the dot is. -/
def dotIndex (buf : List UInt8) (n : ℕ) : Option ℕ :=
  (List.range n).find? fun k => buf.getD k 0 = ch '.'

/-- The second loop, from the end back. -/
def trimLoop (buf : List UInt8) (dot : ℕ) : ℕ → ℕ
  | 0 => 0
  | j + 1 => if dot + 1 < j + 1 ∧ buf.getD j 0 = ch '0' then trimLoop buf dot j else j + 1

/-- `trim_trailing_zeros`: the new length. -/
def trimTrailingZeros (buf : List UInt8) (n : ℕ) : ℕ :=
  match dotIndex buf n with
  | none => n
  | some dot =>
    let j := trimLoop buf dot n
    if dot + 1 < j ∧ buf.getD (j - 1) 0 = ch '.' then j - 1 else j

/-- What is left of a text. -/
def trimmed (s : List UInt8) : List UInt8 := s.take (trimTrailingZeros s s.length)

/-! ## What the loops find -/

/-- The text without the zeros at its end. -/
def dropZeros (s : List UInt8) : List UInt8 := s.rdropWhile (· = ch '0')

theorem dotIndex_none {s : List UInt8} (h : ch '.' ∉ s) : dotIndex s s.length = none := by
  rw [dotIndex, List.find?_eq_none]
  intro k hk hdot
  have hlt := List.mem_range.mp hk
  have hget : s[k] = ch '.' := by simpa [hlt] using hdot
  exact h (hget ▸ List.getElem_mem hlt)

theorem dotIndex_some {head tail : List UInt8} (h : ch '.' ∉ head) :
    dotIndex (head ++ ch '.' :: tail) (head ++ ch '.' :: tail).length = some head.length := by
  rw [dotIndex, List.find?_range_eq_some]
  refine ⟨by simp, by simp, ?_⟩
  intro j hj
  have hget : (head ++ ch '.' :: tail).getD j 0 = head[j] := by
    simp [List.getElem?_append_left hj, hj]
  have hne : head[j] ≠ ch '.' := by
    intro hdot
    exact h (hdot ▸ List.getElem_mem hj)
  rw [hget]
  simpa using hne

theorem getD_behind_dot (head tail : List UInt8) (i : ℕ) :
    (head ++ ch '.' :: tail).getD (head.length + 1 + i) 0 = tail.getD i 0 := by
  have hle : head.length ≤ head.length + 1 + i := by omega
  have hidx : head.length + 1 + i - head.length = i + 1 := by omega
  rw [List.getD_eq_getElem?_getD, List.getElem?_append_right hle, hidx, List.getElem?_cons_succ,
    ← List.getD_eq_getElem?_getD]

theorem trimLoop_eq (head tail : List UInt8) {k : ℕ} (hk : k ≤ tail.length) :
    trimLoop (head ++ ch '.' :: tail) head.length (head.length + 1 + k) =
      head.length + 1 + (dropZeros (tail.take k)).length := by
  induction k with
  | zero => simp [trimLoop, dropZeros]
  | succ k ih =>
    have hget : (head ++ ch '.' :: tail).getD (head.length + 1 + k) 0 = tail[k] := by
      rw [getD_behind_dot]
      simp [Nat.lt_of_succ_le hk]
    have htake : tail.take (k + 1) = tail.take k ++ [tail[k]] := by simp
    rw [← Nat.add_assoc, trimLoop, hget, htake, dropZeros]
    by_cases hz : tail[k] = ch '0'
    · rw [if_pos ⟨by omega, hz⟩, List.rdropWhile_concat_pos _ _ _ (by simpa using hz)]
      exact ih (by omega)
    · rw [if_neg fun h => hz h.2, List.rdropWhile_concat_neg _ _ _ (by simpa using hz)]
      simp
      omega

theorem trimmed_of_no_dot {s : List UInt8} (h : ch '.' ∉ s) : trimmed s = s := by
  rw [trimmed, trimTrailingZeros, dotIndex_none h, List.take_length]

/-- Behind the dot the zeros at the end are cut off, whatever they belong to. -/
theorem trimmed_eq {head tail : List UInt8} (hhead : ch '.' ∉ head) (htail : ch '.' ∉ tail) :
    trimmed (head ++ ch '.' :: tail) = head ++ ch '.' :: dropZeros tail := by
  have hpre : dropZeros tail <+: tail := List.rdropWhile_prefix _ _
  have hloop := trimLoop_eq head tail le_rfl
  have hlen : (head ++ ch '.' :: tail).length = head.length + 1 + tail.length := by
    simp
    omega
  rw [List.take_length, ← hlen] at hloop
  have hlast : ¬ (head.length + 1 < head.length + 1 + (dropZeros tail).length ∧
      (head ++ ch '.' :: tail).getD (head.length + 1 + (dropZeros tail).length - 1) 0 = ch '.') := by
    intro h
    have hm : (dropZeros tail).length - 1 < tail.length := by
      have := hpre.length_le
      omega
    obtain ⟨hpos, hdot⟩ := h
    rw [show head.length + 1 + (dropZeros tail).length - 1 =
      head.length + 1 + ((dropZeros tail).length - 1) by omega, getD_behind_dot] at hdot
    have hmem : tail[(dropZeros tail).length - 1] = ch '.' := by simpa [hm] using hdot
    exact htail (hmem ▸ List.getElem_mem hm)
  rw [trimmed, trimTrailingZeros, dotIndex_some hhead]
  dsimp only
  rw [hloop, if_neg hlast, Nat.add_assoc, List.take_length_add_append, Nat.add_comm 1,
    List.take_succ_cons, ← List.prefix_iff_eq_take.mp hpre]

/-! ## Decimal numbers -/

/-- The number after a mantissa: nothing, or a mark, a sign and digits. -/
def readExponent : List UInt8 → Option ℤ
  | [] => some 0
  | mark :: sign :: ds =>
    if (mark = ch 'e' ∨ mark = ch 'E') ∧ (sign = ch '+' ∨ sign = ch '-') ∧ ds ≠ [] ∧
        ds.all isDigit then
      some (if sign = ch '-' then -(value digitVal 10 ds : ℤ) else value digitVal 10 ds)
    else none
  | _ => none

/-- The digits after a dot, and what follows. -/
def readFraction : List UInt8 → List UInt8 × List UInt8
  | [] => ([], [])
  | c :: cs => if c = ch '.' then (cs.takeWhile isDigit, cs.dropWhile isDigit) else ([], c :: cs)

/-- The sign, in front of which there may be zeros: a field is filled before the sign. -/
def readSign (s : List UInt8) : Bool × List UInt8 :=
  match s.dropWhile (· = ch '0') with
  | [] => (false, s)
  | c :: cs =>
    if c = ch '-' then (true, cs) else if c = ch '+' ∨ c = ch ' ' then (false, cs) else (false, s)

/-- The rational number of digits before and after the dot and an exponent. -/
def decimalValue (neg : Bool) (whole frac : List UInt8) (e : ℤ) : ℚ :=
  (if neg then -1 else 1) * (value digitVal 10 (whole ++ frac) / 10 ^ frac.length) * 10 ^ e

/-- The number that a text in a field denotes, if it is one. -/
def readNumber (s : List UInt8) : Option ℚ :=
  let (neg, s) := readSign ((s.dropWhile (· = ch ' ')).rdropWhile (· = ch ' '))
  let whole := s.takeWhile isDigit
  let (frac, s) := readFraction (s.dropWhile isDigit)
  if whole = [] then none
  else
    match readExponent s with
    | none => none
    | some e => some (decimalValue neg whole frac e)

/-- An exponent as it is printed. -/
structure Exponent where
  mark : UInt8
  sign : UInt8
  digits : List UInt8
  deriving DecidableEq, Repr

/-- A number as `emit_float_f` and `emit_float_e` print it, from left to right. -/
structure FloatParts where
  pad : List UInt8
  sign : List UInt8
  whole : List UInt8
  frac : Option (List UInt8)
  exp : Option Exponent
  right : ℕ
  deriving DecidableEq, Repr

def fracText : Option (List UInt8) → List UInt8
  | none => []
  | some ds => ch '.' :: ds

def expText : Option Exponent → List UInt8
  | none => []
  | some e => e.mark :: e.sign :: e.digits

/-- The number without its sign and field. -/
def FloatParts.body (t : FloatParts) : List UInt8 := t.whole ++ (fracText t.frac ++ expText t.exp)

def FloatParts.text (t : FloatParts) : List UInt8 :=
  t.pad ++ (t.sign ++ (t.body ++ List.replicate t.right (ch ' ')))

/-- What the exponent contributes, if it has digits. -/
def FloatParts.exponent (t : FloatParts) : ℤ :=
  match t.exp with
  | none => 0
  | some e => if e.sign = ch '-' then -(value digitVal 10 e.digits : ℤ) else value digitVal 10 e.digits

def FloatParts.value (t : FloatParts) : ℚ :=
  decimalValue (t.sign = [ch '-']) t.whole (t.frac.getD []) t.exponent

structure Exponent.Readable (e : Exponent) : Prop where
  mark : e.mark = ch 'e' ∨ e.mark = ch 'E'
  sign : e.sign = ch '+' ∨ e.sign = ch '-'
  digits : ∀ c ∈ e.digits, isDigit c = true

/-- Every part has the characters it should have. -/
structure FloatParts.Readable (t : FloatParts) : Prop where
  pad : (∀ c ∈ t.pad, c = ch ' ') ∨ (∀ c ∈ t.pad, c = ch '0')
  sign : t.sign = [] ∨ t.sign = [ch '+'] ∨ t.sign = [ch '-'] ∨ t.sign = [ch ' ']
  whole : ∀ c ∈ t.whole, isDigit c = true
  whole_ne : t.whole ≠ []
  frac : ∀ ds, t.frac = some ds → ∀ c ∈ ds, isDigit c = true
  exp : ∀ e, t.exp = some e → e.Readable

/-- A text that is printed has a digit after a dot and two digits in an exponent. -/
structure FloatParts.Printed (t : FloatParts) : Prop extends t.Readable where
  frac_ne : t.frac ≠ some []
  exp_two : ∀ e, t.exp = some e → 2 ≤ e.digits.length

/-! ## Reading -/

theorem value_zeros_append {z : List UInt8} (hz : ∀ c ∈ z, c = ch '0') (s : List UInt8) :
    value digitVal 10 (z ++ s) = value digitVal 10 s := by
  induction z with
  | nil => rfl
  | cons c z ih =>
    have hc : c = ch '0' := hz c List.mem_cons_self
    rw [← ih fun d hd => hz d (List.mem_cons_of_mem c hd), hc]
    rfl

theorem isDigit_ne {c d : UInt8} (h : isDigit c = true) (hd : isDigit d = false) : c ≠ d := by
  rintro rfl
  rw [h] at hd
  cases hd

theorem rdropWhile_spaces {s : List UInt8} (hne : s ≠ []) (h : ∀ c ∈ s, c ≠ ch ' ')
    (pre : List UInt8) (n : ℕ) :
    (pre ++ (s ++ List.replicate n (ch ' '))).rdropWhile (· = ch ' ') = pre ++ s := by
  induction n with
  | zero =>
    rw [List.replicate_zero, List.append_nil, List.rdropWhile_eq_self_iff]
    intro hne'
    rw [List.getLast_append_of_ne_nil _ hne]
    simpa using h _ (List.getLast_mem hne)
  | succ n ih =>
    rw [List.replicate_succ', ← List.append_assoc, ← List.append_assoc,
      List.rdropWhile_concat_pos _ _ _ (by simp), List.append_assoc]
    exact ih

section
variable {t : FloatParts}

theorem FloatParts.Readable.expText_chars (h : t.Readable) :
    (∀ c ∈ expText t.exp, c ≠ ch ' ' ∧ c ≠ ch '.') ∧
      ∀ c ∈ (expText t.exp).head?, isDigit c = false ∧ c ≠ ch '+' ∧ c ≠ ch '-' := by
  cases he : t.exp with
  | none => simp [expText]
  | some e =>
    obtain ⟨hmark, hsign, hdigits⟩ := h.exp e he
    constructor
    · intro c hc
      simp only [expText, List.mem_cons] at hc
      obtain rfl | rfl | hc := hc
      · obtain hm | hm := hmark <;> rw [hm] <;> decide
      · obtain hs | hs := hsign <;> rw [hs] <;> decide
      · exact ⟨isDigit_ne (hdigits c hc) (by decide), isDigit_ne (hdigits c hc) (by decide)⟩
    · intro c hc
      obtain rfl : e.mark = c := by simpa [expText] using hc
      obtain hm | hm := hmark <;> rw [hm] <;> decide

theorem FloatParts.Readable.rest_head (h : t.Readable) :
    ∀ c ∈ (fracText t.frac ++ expText t.exp).head?, isDigit c = false ∧ c ≠ ch '+' ∧ c ≠ ch '-' := by
  cases t.frac with
  | none => exact h.expText_chars.2
  | some ds =>
    intro c hc
    obtain rfl : ch '.' = c := by simpa [fracText] using hc
    decide

theorem FloatParts.Readable.body_chars (h : t.Readable) : t.body ≠ [] ∧ ∀ c ∈ t.body, c ≠ ch ' ' := by
  refine ⟨by simp [FloatParts.body, h.whole_ne], ?_⟩
  intro c hc
  simp only [FloatParts.body, List.mem_append] at hc
  obtain hc | hc | hc := hc
  · exact isDigit_ne (h.whole c hc) (by decide)
  · cases hf : t.frac with
    | none => simp [hf, fracText] at hc
    | some ds =>
      rw [hf, fracText, List.mem_cons] at hc
      obtain rfl | hc := hc
      · decide
      · exact isDigit_ne (h.frac ds hf c hc) (by decide)
  · exact (h.expText_chars.1 c hc).1

/-- The first character behind the leading zeros of the body is no sign. -/
theorem FloatParts.Readable.body_head (h : t.Readable) {c : UInt8} {cs : List UInt8}
    (hc : t.body.dropWhile (· = ch '0') = c :: cs) : c ≠ ch '-' ∧ c ≠ ch '+' ∧ c ≠ ch ' ' := by
  have hspace : c ≠ ch ' ' := by
    have hsuf := List.dropWhile_suffix (fun x => decide (x = ch '0')) (l := t.body)
    rw [hc] at hsuf
    exact h.body_chars.2 c (hsuf.subset List.mem_cons_self)
  rw [FloatParts.body, List.dropWhile_append] at hc
  split_ifs at hc with hz
  · cases hrest : fracText t.frac ++ expText t.exp with
    | nil => simp [hrest] at hc
    | cons x xs =>
      have hx := h.rest_head x (by simp [hrest])
      have hx0 : x ≠ ch '0' := by
        rintro rfl
        exact absurd hx.1 (by decide)
      rw [hrest, List.dropWhile_cons_of_neg (by simpa using hx0)] at hc
      obtain ⟨rfl, -⟩ := List.cons_eq_cons.mp hc
      exact ⟨hx.2.2, hx.2.1, hspace⟩
  · cases hw : t.whole.dropWhile (· = ch '0') with
    | nil => simp [hw] at hz
    | cons x xs =>
      rw [hw, List.cons_append] at hc
      obtain ⟨rfl, -⟩ := List.cons_eq_cons.mp hc
      have hsuf := List.dropWhile_suffix (fun x => decide (x = ch '0')) (l := t.whole)
      rw [hw] at hsuf
      have hdigit := h.whole x (hsuf.subset List.mem_cons_self)
      exact ⟨isDigit_ne hdigit (by decide), isDigit_ne hdigit (by decide), hspace⟩

/-- The signs a number can have once the spaces are gone. -/
def IsSign (sg : List UInt8) : Prop := sg = [] ∨ sg = [ch '+'] ∨ sg = [ch '-'] ∨ sg = [ch ' ']

/-- Without the spaces of the field, zeros and a sign stand before the body. -/
theorem FloatParts.Readable.strip (h : t.Readable) : ∃ z sg, (∀ c ∈ z, c = ch '0') ∧ IsSign sg ∧
    (sg = [ch '-'] ↔ t.sign = [ch '-']) ∧
    (t.text.dropWhile (· = ch ' ')).rdropWhile (· = ch ' ') = z ++ (sg ++ t.body) := by
  obtain ⟨hne, hspace⟩ := h.body_chars
  have hright : ∀ pre, (pre ++ (t.body ++ List.replicate t.right (ch ' '))).rdropWhile
      (· = ch ' ') = pre ++ t.body := fun pre => rdropWhile_spaces hne hspace pre t.right
  have hbody : (t.body ++ List.replicate t.right (ch ' ')).dropWhile (· = ch ' ') =
      t.body ++ List.replicate t.right (ch ' ') := by
    cases hb : t.body with
    | nil => exact absurd hb hne
    | cons x xs =>
      have hx := hspace x (by rw [hb]; exact List.mem_cons_self)
      exact List.dropWhile_cons_of_neg (by simpa using hx)
  -- only spaces in front, or none
  have hfirst : (∀ c ∈ t.pad, c = ch ' ') → ∃ z sg, (∀ c ∈ z, c = ch '0') ∧ IsSign sg ∧
      (sg = [ch '-'] ↔ t.sign = [ch '-']) ∧
      (t.text.dropWhile (· = ch ' ')).rdropWhile (· = ch ' ') = z ++ (sg ++ t.body) := by
    intro hpad
    have hdrop : t.text.dropWhile (· = ch ' ') =
        (t.sign ++ (t.body ++ List.replicate t.right (ch ' '))).dropWhile (· = ch ' ') := by
      rw [FloatParts.text, List.dropWhile_append_of_pos fun c hc => by simpa using hpad c hc]
    rw [hdrop]
    obtain hs | hs | hs | hs := h.sign
    · rw [hs, List.nil_append, hbody]
      exact ⟨[], [], by simp, .inl rfl, by simp, hright []⟩
    · rw [hs, List.singleton_append, List.dropWhile_cons_of_neg (by decide)]
      exact ⟨[], [ch '+'], by simp, .inr (.inl rfl), by simp, hright [ch '+']⟩
    · rw [hs, List.singleton_append, List.dropWhile_cons_of_neg (by decide)]
      exact ⟨[], [ch '-'], by simp, .inr (.inr (.inl rfl)), by simp, hright [ch '-']⟩
    · rw [hs, List.singleton_append, List.dropWhile_cons_of_pos (by decide), hbody]
      exact ⟨[], [], by simp, .inl rfl, by decide, hright []⟩
  obtain hpad | hpad := h.pad
  · exact hfirst hpad
  · cases hp : t.pad with
    | nil => exact hfirst (by simp [hp])
    | cons x xs =>
      have hx : x = ch '0' := hpad x (by rw [hp]; exact List.mem_cons_self)
      refine ⟨t.pad, t.sign, hpad, h.sign, Iff.rfl, ?_⟩
      rw [FloatParts.text, hp, List.cons_append, List.dropWhile_cons_of_neg (by rw [hx]; decide),
        ← List.cons_append, ← hp, ← List.append_assoc, hright, List.append_assoc]

theorem FloatParts.Readable.readSign (h : t.Readable) {z sg : List UInt8}
    (hz : ∀ c ∈ z, c = ch '0') (hsg : IsSign sg) :
    ∃ z', (∀ c ∈ z', c = ch '0') ∧
      readSign (z ++ (sg ++ t.body)) = (decide (sg = [ch '-']), z' ++ t.body) := by
  have hdrop : (z ++ (sg ++ t.body)).dropWhile (· = ch '0') =
      (sg ++ t.body).dropWhile (· = ch '0') :=
    List.dropWhile_append_of_pos fun c hc => by simpa using hz c hc
  unfold Snprintf.readSign
  rw [hdrop]
  obtain rfl | rfl | rfl | rfl := hsg
  · refine ⟨z, hz, ?_⟩
    rw [List.nil_append]
    cases hb : t.body.dropWhile (· = ch '0') with
    | nil => rfl
    | cons c cs =>
      obtain ⟨hminus, hplus, hspace⟩ := h.body_head hb
      simp [hminus, hplus, hspace]
  · exact ⟨[], by simp, rfl⟩
  · exact ⟨[], by simp, rfl⟩
  · exact ⟨[], by simp, rfl⟩

theorem takeWhile_digits {s rest : List UInt8} (hs : ∀ c ∈ s, isDigit c = true)
    (hrest : ∀ c ∈ rest.head?, isDigit c = false) :
    (s ++ rest).takeWhile isDigit = s ∧ (s ++ rest).dropWhile isDigit = rest := by
  rw [List.takeWhile_append_of_pos hs, List.dropWhile_append_of_pos hs]
  cases rest with
  | nil => simp
  | cons c cs =>
    have hc := hrest c (by simp)
    simp [hc]

theorem FloatParts.Readable.readFraction (h : t.Readable) :
    readFraction (fracText t.frac ++ expText t.exp) = (t.frac.getD [], expText t.exp) := by
  cases hf : t.frac with
  | none =>
    cases he : expText t.exp with
    | nil => rfl
    | cons c cs =>
      have hc := (h.expText_chars.1 c (by rw [he]; exact List.mem_cons_self)).2
      simp [Snprintf.readFraction, fracText, hc]
  | some ds =>
    obtain ⟨htake, hdrop⟩ := takeWhile_digits (h.frac ds hf) fun c hc => (h.expText_chars.2 c hc).1
    simp [Snprintf.readFraction, fracText, htake, hdrop]

theorem FloatParts.Readable.readExponent (h : t.Readable) :
    readExponent (expText t.exp) =
      if ∀ e ∈ t.exp, e.digits ≠ [] then some t.exponent else none := by
  unfold FloatParts.exponent
  cases he : t.exp with
  | none => simp [expText, Snprintf.readExponent]
  | some e =>
    obtain ⟨hmark, hsign, hdigits⟩ := h.exp e he
    have hall : e.digits.all isDigit = true := List.all_eq_true.mpr hdigits
    simp [expText, Snprintf.readExponent, hmark, hsign, hall]

/-- The text of a number denotes the number, unless its exponent has lost all its digits. -/
theorem FloatParts.Readable.readNumber (h : t.Readable) :
    readNumber t.text = if ∀ e ∈ t.exp, e.digits ≠ [] then some t.value else none := by
  obtain ⟨z, sg, hz, hsg, hminus, hstrip⟩ := h.strip
  obtain ⟨z', hz', hsign⟩ := h.readSign hz hsg
  have hdigits : ∀ c ∈ z' ++ t.whole, isDigit c = true := by
    intro c hc
    obtain hc | hc := List.mem_append.mp hc
    · rw [hz' c hc]
      decide
    · exact h.whole c hc
  obtain ⟨htake, hdrop⟩ := takeWhile_digits hdigits fun c hc => (h.rest_head c hc).1
  unfold Snprintf.readNumber
  rw [hstrip, hsign]
  dsimp only
  rw [FloatParts.body, ← List.append_assoc, htake, hdrop, h.readFraction, h.readExponent,
    if_neg (by simp [h.whole_ne])]
  have hvalue : decimalValue (decide (sg = [ch '-'])) (z' ++ t.whole) (t.frac.getD []) t.exponent =
      t.value := by
    rw [FloatParts.value, decimalValue, decimalValue, List.append_assoc, value_zeros_append hz']
    simp only [hminus]
  split_ifs
  · exact congrArg some hvalue
  · rfl

/-! ## Trimming a number -/

/-- What trimming does to the parts: it cuts into whatever is last behind a dot. -/
def FloatParts.trim (t : FloatParts) : FloatParts :=
  match t.frac with
  | none => t
  | some ds =>
    if t.right ≠ 0 then t
    else
      match t.exp with
      | none => { t with frac := some (dropZeros ds) }
      | some e => { t with exp := some { e with digits := dropZeros e.digits } }

theorem dropZeros_append {s d : List UInt8} {c : UInt8} (hc : c ≠ ch '0') :
    dropZeros (s ++ c :: d) = s ++ c :: dropZeros d := by
  unfold dropZeros
  induction d using List.reverseRecOn with
  | nil =>
    rw [List.rdropWhile_nil]
    exact List.rdropWhile_concat_neg _ _ _ (by simpa using hc)
  | append_singleton d x ih =>
    rw [← List.cons_append, ← List.append_assoc]
    by_cases hx : x = ch '0'
    · rw [List.rdropWhile_concat_pos _ _ _ (by simpa using hx),
        List.rdropWhile_concat_pos _ _ _ (by simpa using hx), ih]
    · rw [List.rdropWhile_concat_neg _ _ _ (by simpa using hx),
        List.rdropWhile_concat_neg _ _ _ (by simpa using hx), List.append_assoc]
      rfl

/-- What is cut off is a run of zeros. -/
theorem dropZeros_spec (s : List UInt8) :
    (∃ k, s = dropZeros s ++ List.replicate k (ch '0')) ∧ (dropZeros s).getLast? ≠ some (ch '0') := by
  unfold dropZeros
  induction s using List.reverseRecOn with
  | nil => simp
  | append_singleton s x ih =>
    by_cases hx : x = ch '0'
    · rw [List.rdropWhile_concat_pos _ _ _ (by simpa using hx)]
      obtain ⟨⟨k, hk⟩, hlast⟩ := ih
      refine ⟨⟨k + 1, ?_⟩, hlast⟩
      rw [List.replicate_succ', ← List.append_assoc, ← hk, hx]
    · rw [List.rdropWhile_concat_neg _ _ _ (by simpa using hx)]
      exact ⟨⟨0, by simp⟩, by simpa using hx⟩

theorem dropZeros_of_last {s : List UInt8} (h : s.getLast? ≠ some (ch '0')) : dropZeros s = s := by
  obtain ⟨⟨k, hk⟩, -⟩ := dropZeros_spec s
  cases k with
  | zero => simpa using hk.symm
  | succ k =>
    rw [hk, List.replicate_succ', ← List.append_assoc, List.getLast?_concat] at h
    exact absurd rfl h

theorem dropZeros_subset {s : List UInt8} {c : UInt8} (h : c ∈ dropZeros s) : c ∈ s :=
  (List.rdropWhile_prefix _ _).subset h

theorem FloatParts.Readable.trim (h : t.Readable) : t.trim.Readable := by
  obtain ⟨hpad, hsign, hwhole, hwhole_ne, hfrac, hexp⟩ := h
  unfold FloatParts.trim
  split
  · exact ⟨hpad, hsign, hwhole, hwhole_ne, hfrac, hexp⟩
  · rename_i ds hds
    split_ifs
    · exact ⟨hpad, hsign, hwhole, hwhole_ne, hfrac, hexp⟩
    · split
      · refine ⟨hpad, hsign, hwhole, hwhole_ne, ?_, hexp⟩
        intro ds' hds' c hc
        obtain rfl := Option.some.inj hds'
        exact hfrac ds hds c (dropZeros_subset hc)
      · rename_i e he
        refine ⟨hpad, hsign, hwhole, hwhole_ne, hfrac, ?_⟩
        intro e' he'
        obtain rfl := Option.some.inj he'
        obtain ⟨hm, hs, hd⟩ := hexp e he
        exact ⟨hm, hs, fun c hc => hd c (dropZeros_subset hc)⟩

/-- The only dot is that of the fraction. -/
theorem FloatParts.Readable.no_dot (h : t.Readable) :
    (∀ c ∈ t.pad ++ (t.sign ++ t.whole), c ≠ ch '.') ∧
      ∀ c ∈ expText t.exp ++ List.replicate t.right (ch ' '), c ≠ ch '.' := by
  constructor
  · intro c hc
    simp only [List.mem_append] at hc
    obtain hc | hc | hc := hc
    · obtain hpad | hpad := h.pad <;> rw [hpad c hc] <;> decide
    · obtain hs | hs | hs | hs := h.sign <;> rw [hs] at hc <;> simp at hc <;> rw [hc] <;> decide
    · exact isDigit_ne (h.whole c hc) (by decide)
  · intro c hc
    obtain hc | hc := List.mem_append.mp hc
    · exact (h.expText_chars.1 c hc).2
    · rw [List.eq_of_mem_replicate hc]
      decide

theorem FloatParts.text_none (hf : t.frac = none) : t.text =
    (t.pad ++ (t.sign ++ t.whole)) ++ (expText t.exp ++ List.replicate t.right (ch ' ')) := by
  simp [FloatParts.text, FloatParts.body, hf, fracText]

theorem FloatParts.text_some {ds : List UInt8} (hf : t.frac = some ds) : t.text =
    (t.pad ++ (t.sign ++ t.whole)) ++
      ch '.' :: (ds ++ (expText t.exp ++ List.replicate t.right (ch ' '))) := by
  simp [FloatParts.text, FloatParts.body, hf, fracText]

theorem FloatParts.Readable.trimmed (h : t.Readable) : trimmed t.text = t.trim.text := by
  obtain ⟨hhead, htail⟩ := h.no_dot
  cases hf : t.frac with
  | none =>
    have htrim : t.trim = t := by
      rw [FloatParts.trim, hf]
    rw [htrim, trimmed_of_no_dot]
    rw [FloatParts.text_none hf]
    intro hmem
    obtain hmem | hmem := List.mem_append.mp hmem
    · exact hhead _ hmem rfl
    · exact htail _ hmem rfl
  | some ds =>
    have hno : ch '.' ∉ ds ++ (expText t.exp ++ List.replicate t.right (ch ' ')) := by
      intro hmem
      obtain hmem | hmem := List.mem_append.mp hmem
      · exact absurd rfl (isDigit_ne (h.frac ds hf _ hmem) (by decide))
      · exact htail _ hmem rfl
    rw [FloatParts.text_some hf, trimmed_eq (fun hmem => hhead _ hmem rfl) hno]
    unfold FloatParts.trim
    rw [hf]
    dsimp only
    by_cases hright : t.right ≠ 0
    · -- the last character is a space
      rw [if_pos hright, FloatParts.text_some hf]
      obtain ⟨n, hn⟩ := Nat.exists_eq_succ_of_ne_zero hright
      rw [dropZeros_of_last]
      rw [hn, List.replicate_succ', ← List.append_assoc, ← List.append_assoc, List.getLast?_concat]
      decide
    · have hzero : t.right = 0 := not_not.mp hright
      rw [if_neg hright]
      cases he : t.exp with
      | none => simp [FloatParts.text, FloatParts.body, fracText, expText, hzero]
      | some e =>
        have hsign : e.sign ≠ ch '0' := by
          obtain hs | hs := (h.exp e he).sign <;> rw [hs] <;> decide
        have hcut := dropZeros_append (s := ds ++ [e.mark]) (d := e.digits) hsign
        simp only [List.append_assoc, List.singleton_append] at hcut
        simp [FloatParts.text, FloatParts.body, fracText, expText, hzero, hcut]

/-! ## The fraction of a text -/

/-- The digits right behind the dot. -/
def fractionOf (s : List UInt8) : List UInt8 :=
  ((s.dropWhile (· ≠ ch '.')).drop 1).takeWhile isDigit

theorem dropWhile_to_dot {s : List UInt8} (h : ∀ c ∈ s, c ≠ ch '.') (rest : List UInt8) :
    (s ++ rest).dropWhile (· ≠ ch '.') = rest.dropWhile (· ≠ ch '.') :=
  List.dropWhile_append_of_pos fun c hc => by simpa using h c hc

theorem FloatParts.Readable.fractionOf (h : t.Readable) : fractionOf t.text = t.frac.getD [] := by
  obtain ⟨hhead, htail⟩ := h.no_dot
  unfold Snprintf.fractionOf
  cases hf : t.frac with
  | none =>
    have hnil := dropWhile_to_dot htail []
    rw [List.append_nil] at hnil
    rw [FloatParts.text_none hf, dropWhile_to_dot hhead, hnil]
    rfl
  | some ds =>
    have hstop : ∀ c ∈ (expText t.exp ++ List.replicate t.right (ch ' ')).head?,
        isDigit c = false := by
      intro c hc
      rw [List.head?_append] at hc
      cases he : (expText t.exp).head? with
      | none =>
        have hr : (List.replicate t.right (ch ' ')).head? = some c := by simpa [he] using hc
        rw [List.eq_of_mem_replicate (List.mem_of_mem_head? hr)]
        decide
      | some d =>
        obtain rfl : d = c := by simpa [he] using hc
        exact (h.expText_chars.2 d he).1
    rw [FloatParts.text_some hf, dropWhile_to_dot hhead, List.dropWhile_cons_of_neg (by simp)]
    exact (takeWhile_digits (h.frac ds hf) hstop).1

theorem FloatParts.Readable.mem_dot (h : t.Readable) : ch '.' ∈ t.text ↔ t.frac ≠ none := by
  obtain ⟨hhead, htail⟩ := h.no_dot
  cases hf : t.frac with
  | none =>
    rw [FloatParts.text_none hf, List.mem_append]
    constructor
    · intro hmem
      obtain hmem | hmem := hmem
      · exact absurd rfl (hhead _ hmem)
      · exact absurd rfl (htail _ hmem)
    · exact fun hne => absurd rfl hne
  | some ds =>
    rw [FloatParts.text_some hf]
    simp

/-- Trimming keeps the number and leaves no zero at the end of its fraction, nor an empty one. -/
structure TrimsWell (s : List UInt8) : Prop where
  number : readNumber (trimmed s) = readNumber s
  zeros : (fractionOf (trimmed s)).getLast? ≠ some (ch '0')
  dot : ch '.' ∈ trimmed s → fractionOf (trimmed s) ≠ []

theorem FloatParts.Readable.trimsWell_iff (h : t.Readable) : TrimsWell t.text ↔
    Snprintf.readNumber t.trim.text = Snprintf.readNumber t.text ∧
      (t.trim.frac.getD []).getLast? ≠ some (ch '0') ∧ t.trim.frac ≠ some [] := by
  have hdot : (ch '.' ∈ t.trim.text → t.trim.frac.getD [] ≠ []) ↔ t.trim.frac ≠ some [] := by
    rw [h.trim.mem_dot]
    cases t.trim.frac <;> simp
  constructor
  · intro hw
    obtain ⟨hnum, hzeros, hne⟩ := hw
    rw [h.trimmed] at hnum hzeros hne
    rw [h.trim.fractionOf] at hzeros hne
    exact ⟨hnum, hzeros, hdot.mp hne⟩
  · intro hw
    obtain ⟨hnum, hzeros, hne⟩ := hw
    constructor
    · rw [h.trimmed]
      exact hnum
    · rw [h.trimmed, h.trim.fractionOf]
      exact hzeros
    · rw [h.trimmed, h.trim.fractionOf]
      exact hdot.mpr hne

/-! ## When the number survives -/

theorem value_append_zeros (s : List UInt8) (k : ℕ) :
    value digitVal 10 (s ++ List.replicate k (ch '0')) = value digitVal 10 s * 10 ^ k := by
  induction k with
  | zero => simp
  | succ k ih =>
    have hz : digitVal (ch '0') = 0 := by decide
    rw [List.replicate_succ', ← List.append_assoc, value_append_singleton, ih, hz, pow_succ]
    ring

theorem value_pos {s : List UInt8} (hs : ∀ c ∈ s, isDigit c = true) (hne : s ≠ [])
    (hlast : s.getLast? ≠ some (ch '0')) : 0 < value digitVal 10 s := by
  obtain ⟨front, c, rfl⟩ := List.eq_nil_or_concat s |>.resolve_left hne
  have hc : isDigit c = true := hs c (by simp)
  have hc0 : c ≠ ch '0' := by simpa using hlast
  have hpos : 0 < digitVal c := by
    have hlow : ch '0' ≤ c ∧ c ≤ ch '9' := by simpa [isDigit] using hc
    have hnat : c.toNat ≠ (ch '0').toNat := fun h => hc0 (UInt8.toNat_inj.mp h)
    have hle : (ch '0').toNat ≤ c.toNat := UInt8.le_iff_toNat_le.mp hlow.1
    rw [digitVal, if_pos hlow.2]
    omega
  rw [List.concat_eq_append, value_append_singleton]
  omega

/-- Zeros at the end of a whole number count. -/
theorem value_dropZeros_lt {s : List UInt8} (hs : ∀ c ∈ s, isDigit c = true)
    (hkept : dropZeros s ≠ []) (hlast : s.getLast? = some (ch '0')) :
    value digitVal 10 (dropZeros s) < value digitVal 10 s := by
  obtain ⟨⟨k, hk⟩, hend⟩ := dropZeros_spec s
  have hcut : 0 < value digitVal 10 (dropZeros s) :=
    value_pos (fun c hc => hs c (dropZeros_subset hc)) hkept hend
  have hk0 : k ≠ 0 := by
    rintro rfl
    rw [List.replicate_zero, List.append_nil] at hk
    rw [← hk] at hend
    exact hend hlast
  calc value digitVal 10 (dropZeros s)
      < value digitVal 10 (dropZeros s) * 10 ^ k :=
        lt_mul_of_one_lt_right hcut (Nat.one_lt_pow hk0 (by norm_num))
    _ = value digitVal 10 s := by rw [← value_append_zeros, ← hk]

/-- At the end of a fraction they do not. -/
theorem decimalValue_dropZeros (neg : Bool) (whole frac : List UInt8) (e : ℤ) :
    decimalValue neg whole (dropZeros frac) e = decimalValue neg whole frac e := by
  obtain ⟨⟨k, hk⟩, -⟩ := dropZeros_spec frac
  have hten : (10 : ℚ) ^ k ≠ 0 := by positivity
  have hscale : (value digitVal 10 (whole ++ frac) : ℚ) / 10 ^ frac.length =
      value digitVal 10 (whole ++ dropZeros frac) / 10 ^ (dropZeros frac).length := by
    calc (value digitVal 10 (whole ++ frac) : ℚ) / 10 ^ frac.length
        = value digitVal 10 (whole ++ dropZeros frac) * 10 ^ k /
            (10 ^ (dropZeros frac).length * 10 ^ k) := by
          nth_rewrite 1 2 [hk]
          rw [← List.append_assoc, value_append_zeros, List.length_append, List.length_replicate,
            pow_add]
          push_cast
          rfl
      _ = _ := mul_div_mul_right _ _ hten
  rw [decimalValue, decimalValue, hscale]

theorem decimalValue_ne (neg : Bool) {whole frac : List UInt8} {e e' : ℤ}
    (hpos : 0 < value digitVal 10 (whole ++ frac)) (he : e ≠ e') :
    decimalValue neg whole frac e ≠ decimalValue neg whole frac e' := by
  have hsign : (if neg then -1 else 1 : ℚ) ≠ 0 := by split_ifs <;> norm_num
  have hmant : (value digitVal 10 (whole ++ frac) : ℚ) / 10 ^ frac.length ≠ 0 := by positivity
  intro heq
  have hpow : (10 : ℚ) ^ e = 10 ^ e' := mul_left_cancel₀ (mul_ne_zero hsign hmant) heq
  exact he (zpow_right_injective₀ (by norm_num) (by norm_num) hpow)

end

section
variable {t : FloatParts}

/-- When a number can be trimmed: zeros may only be cut from a fraction that is last in its
text, and one digit has to stay; otherwise there must be no zero to cut. -/
def FloatParts.TrimsWhen (t : FloatParts) : Prop :=
  ∀ ds, t.frac = some ds →
    (t.exp = none ∧ t.right = 0 ∧ ∃ c ∈ ds, c ≠ ch '0') ∨
      ((t.exp ≠ none ∨ t.right ≠ 0) ∧ ds.getLast? ≠ some (ch '0') ∧
        (t.right = 0 → ∀ e, t.exp = some e → e.digits.getLast? ≠ some (ch '0')))

theorem dropZeros_eq_nil {s : List UInt8} : dropZeros s = [] ↔ ∀ c ∈ s, c = ch '0' := by
  simp [dropZeros, List.rdropWhile_eq_nil_iff]

theorem FloatParts.Printed.digits_ne (h : t.Printed) : ∀ e ∈ t.exp, e.digits ≠ [] := by
  intro e he hnil
  have htwo := h.exp_two e he
  rw [hnil] at htwo
  exact absurd htwo (by decide)

theorem FloatParts.Printed.readNumber_text (h : t.Printed) : readNumber t.text = some t.value := by
  rw [h.toReadable.readNumber, if_pos h.digits_ne]

/-- The fraction is last: its zeros go and the number stays. -/
theorem FloatParts.Printed.trims_plain (h : t.Printed) {ds : List UInt8} (hf : t.frac = some ds)
    (he : t.exp = none) (hr : t.right = 0) : TrimsWell t.text ↔ ∃ c ∈ ds, c ≠ ch '0' := by
  have htrim : t.trim = { t with frac := some (dropZeros ds) } := by
    simp [FloatParts.trim, hf, he, hr]
  have hnum : readNumber t.trim.text = readNumber t.text := by
    have hvalue : t.trim.value = t.value := by
      rw [htrim]
      unfold FloatParts.value
      rw [hf]
      exact decimalValue_dropZeros _ _ _ _
    rw [h.readNumber_text, h.toReadable.trim.readNumber, if_pos (by simp [htrim, he]), hvalue]
  rw [h.toReadable.trimsWell_iff, htrim]
  rw [htrim] at hnum
  have hsome : some (dropZeros ds) ≠ some [] ↔ ∃ c ∈ ds, c ≠ ch '0' := by
    rw [ne_eq, Option.some.injEq, dropZeros_eq_nil]
    push Not
    rfl
  constructor
  · intro hw
    exact hsome.mp hw.2.2
  · intro hc
    exact ⟨hnum, (dropZeros_spec ds).2, hsome.mpr hc⟩

/-- Spaces are last: nothing is cut. -/
theorem FloatParts.Printed.trims_spaces (h : t.Printed) {ds : List UInt8} (hf : t.frac = some ds)
    (hr : t.right ≠ 0) : TrimsWell t.text ↔ ds.getLast? ≠ some (ch '0') := by
  have htrim : t.trim = t := by simp [FloatParts.trim, hf, hr]
  have hne := h.frac_ne
  rw [h.toReadable.trimsWell_iff, htrim, hf]
  rw [hf] at hne
  simp [hne]

theorem FloatParts.Readable.mantissa_pos (h : t.Readable) {ds : List UInt8}
    (hf : t.frac = some ds) (hds : ds ≠ []) (hlast : ds.getLast? ≠ some (ch '0')) :
    0 < Numeral.value digitVal 10 (t.whole ++ ds) := by
  apply value_pos
  · intro c hc
    obtain hc | hc := List.mem_append.mp hc
    · exact h.whole c hc
    · exact h.frac ds hf c hc
  · simp [hds]
  · rw [List.getLast?_append_of_ne_nil _ hds]
    exact hlast

/-- The exponent is last: a zero that it loses changes the number. -/
theorem FloatParts.Printed.trims_exponent (h : t.Printed) {ds : List UInt8} {e : Exponent}
    (hf : t.frac = some ds) (he : t.exp = some e) (hr : t.right = 0) :
    TrimsWell t.text ↔ ds.getLast? ≠ some (ch '0') ∧ e.digits.getLast? ≠ some (ch '0') := by
  have htrim : t.trim = { t with exp := some { e with digits := dropZeros e.digits } } := by
    simp [FloatParts.trim, hf, he, hr]
  have hne := h.frac_ne
  rw [h.toReadable.trimsWell_iff, h.readNumber_text, h.toReadable.trim.readNumber]
  have hfrac : t.trim.frac = some ds := by rw [htrim, hf]
  rw [hfrac]
  rw [hf] at hne
  constructor
  · intro hw
    obtain ⟨hnum, hzeros, -⟩ := hw
    refine ⟨hzeros, ?_⟩
    intro hlast
    split_ifs at hnum with hdigits
    have hkept : dropZeros e.digits ≠ [] := hdigits _ (by rw [htrim]; rfl)
    have hpos := h.toReadable.mantissa_pos hf (fun hnil => hne (congrArg some hnil)) hzeros
    -- the exponent is a multiple of ten of what is left of it
    have hexp : t.trim.exponent ≠ t.exponent := by
      have hlt := value_dropZeros_lt (h.exp e he).digits hkept hlast
      rw [htrim]
      simp only [FloatParts.exponent, he]
      split_ifs <;> omega
    have hvalue : t.trim.value ≠ t.value := by
      have hcmp := decimalValue_ne (decide (t.sign = [ch '-'])) hpos hexp
      unfold FloatParts.value
      rw [hfrac, hf]
      rw [htrim] at hcmp ⊢
      exact hcmp
    exact hvalue (Option.some.inj hnum)
  · intro hw
    obtain ⟨hzeros, hlast⟩ := hw
    have hsame : t.trim = t := by
      rw [htrim, dropZeros_of_last hlast, ← he]
    rw [hsame]
    exact ⟨if_pos h.digits_ne, hzeros, hne⟩

/-- A number without a dot is trimmed well. One with a dot is if its fraction is last and not all
zeros, or if something else is last and neither the fraction nor an exponent at the end of the
text ends in a zero. -/
theorem trimTrailingZeros_iff (t : FloatParts) (h : t.Printed) :
    readNumber t.text = some t.value ∧ (TrimsWell t.text ↔ t.TrimsWhen) := by
  refine ⟨h.readNumber_text, ?_⟩
  cases hf : t.frac with
  | none =>
    have htrim : t.trim = t := by simp [FloatParts.trim, hf]
    rw [h.toReadable.trimsWell_iff, htrim, hf]
    simp [FloatParts.TrimsWhen, hf]
  | some ds =>
    by_cases hr : t.right = 0
    · cases he : t.exp with
      | none =>
        rw [h.trims_plain hf he hr]
        simp [FloatParts.TrimsWhen, hf, he, hr]
      | some e =>
        rw [h.trims_exponent hf he hr]
        simp [FloatParts.TrimsWhen, hf, he, hr]
    · rw [h.trims_spaces hf hr]
      simp [FloatParts.TrimsWhen, hf, hr]

/-- One and a half. -/
theorem trimTrailingZeros_plain :
    let t : FloatParts := ⟨[], [], [ch '1'], some [ch '5', ch '0'], none, 0⟩
    t.Printed ∧ readNumber t.text = some t.value ∧ TrimsWell t.text := by
  have hp : FloatParts.Printed ⟨[], [], [ch '1'], some [ch '5', ch '0'], none, 0⟩ :=
    { pad := .inl (by simp)
      sign := .inl rfl
      whole := List.forall_mem_singleton.mpr (by decide)
      whole_ne := by simp
      frac := by
        intro ds hds
        obtain rfl := Option.some.inj hds
        exact List.forall_mem_cons.mpr ⟨by decide, List.forall_mem_singleton.mpr (by decide)⟩
      exp := by simp
      frac_ne := by simp
      exp_two := by simp }
  have hw := trimTrailingZeros_iff _ hp
  refine ⟨hp, hw.1, hw.2.mpr ?_⟩
  intro ds hds
  obtain rfl := Option.some.inj hds
  exact .inl ⟨rfl, rfl, ch '5', by simp, by decide⟩

/-- The exponent of `1.5e+10` loses its zero, and `1.000` keeps its dot. -/
theorem trimTrailingZeros_cuts :
    let t : FloatParts :=
      ⟨[], [], [ch '1'], some [ch '5'], some ⟨ch 'e', ch '+', [ch '1', ch '0']⟩, 0⟩
    (t.Printed ∧ t.text = "1.5e+10".toList.map ch ∧ trimmed t.text = "1.5e+1".toList.map ch ∧
      ¬ TrimsWell t.text) ∧
    trimmed ("1.000".toList.map ch) = "1.".toList.map ch ∧
      ¬ TrimsWell ("1.000".toList.map ch) := by
  have hp : FloatParts.Printed
      ⟨[], [], [ch '1'], some [ch '5'], some ⟨ch 'e', ch '+', [ch '1', ch '0']⟩, 0⟩ :=
    { pad := .inl (by simp)
      sign := .inl rfl
      whole := List.forall_mem_singleton.mpr (by decide)
      whole_ne := by simp
      frac := by
        intro ds hds
        obtain rfl := Option.some.inj hds
        exact List.forall_mem_singleton.mpr (by decide)
      exp := by
        intro e he
        obtain rfl := Option.some.inj he
        exact ⟨.inl rfl, .inl rfl,
          List.forall_mem_cons.mpr ⟨by decide, List.forall_mem_singleton.mpr (by decide)⟩⟩
      frac_ne := by simp
      exp_two := by
        intro e he
        obtain rfl := Option.some.inj he
        exact le_rfl }
  have hten : trimmed ("1.5e+10".toList.map ch) = "1.5e+1".toList.map ch := by decide +kernel
  have hone : trimmed ("1.000".toList.map ch) = "1.".toList.map ch := by decide +kernel
  refine ⟨⟨hp, rfl, hten, ?_⟩, hone, ?_⟩
  · intro h
    have hnum : readNumber (trimmed ("1.5e+10".toList.map ch)) =
        readNumber ("1.5e+10".toList.map ch) := h.number
    rw [hten] at hnum
    exact absurd hnum (by decide +kernel)
  · intro h
    have hdot := h.dot
    rw [hone] at hdot
    exact hdot (by decide +kernel) (by decide +kernel)

end

end JanusRT.Snprintf
