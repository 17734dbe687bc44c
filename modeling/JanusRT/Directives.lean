import JanusRT.IntegerText

/-!
# Directives

A directive of the format language as a record, its text, and the four scanners reading
that text back. A width or a precision may be taken from an argument. The second half is
about the loop of `vsnprintf` on any string: its pointer advances in every round and does
not pass the terminating zero.
-/
namespace JanusRT.Snprintf

open Outcome Numeral

/-! ## The record and its text -/

/-- The flag characters. -/
inductive Flag
  | left | sign | zero | alt | sp
  deriving DecidableEq, Repr

def Flag.char : Flag → UInt8
  | .left => ch '-'
  | .sign => ch '+'
  | .zero => ch '0'
  | .alt => ch '#'
  | .sp => ch ' '

def Flags.set (f : Flags) : Flag → Flags
  | .left => { f with left := true }
  | .sign => { f with sign := true }
  | .zero => { f with zero := true }
  | .alt => { f with alt := true }
  | .sp => { f with sp := true }

/-- The flags of a list, in whatever order and however often they stand in it. -/
def flagsOf (fs : List Flag) : Flags := fs.foldl Flags.set {}

/-- How a width is written. -/
inductive WidthSpec
  | none | lit (w : ℕ) | star
  deriving DecidableEq, Repr

/-- How a precision is written; `empty` is a dot alone. -/
inductive PrecSpec
  | none | empty | lit (p : ℕ) | star
  deriving DecidableEq, Repr

structure Directive where
  flags : List Flag := []
  width : WidthSpec := .none
  prec : PrecSpec := .none
  len : LenCode := .none
  type : UInt8
  deriving DecidableEq, Repr

/-- A number in decimal. -/
def decimal (n : ℕ) : List UInt8 := numeral (digs false) 10 n

def WidthSpec.text : WidthSpec → List UInt8
  | .none => []
  | .lit w => decimal w
  | .star => [ch '*']

def PrecSpec.text : PrecSpec → List UInt8
  | .none => []
  | .empty => [ch '.']
  | .lit p => ch '.' :: decimal p
  | .star => [ch '.', ch '*']

def LenCode.text : LenCode → List UInt8
  | .none => []
  | .hh => [ch 'h', ch 'h']
  | .h => [ch 'h']
  | .l => [ch 'l']
  | .ll => [ch 'l', ch 'l']
  | .j => [ch 'j']
  | .z => [ch 'z']
  | .t => [ch 't']
  | .L => [ch 'L']

/-- The directive after its percent sign. -/
def Directive.text (d : Directive) : List UInt8 :=
  d.flags.map Flag.char ++ (d.width.text ++ (d.prec.text ++ (d.len.text ++ [d.type])))

/-- Characters that one of the scanners takes for its own. -/
def isFlag (c : UInt8) : Bool := c = ch '-' ∨ c = ch '+' ∨ c = ch '0' ∨ c = ch '#' ∨ c = ch ' '

def isLen (c : UInt8) : Bool :=
  c = ch 'h' ∨ c = ch 'l' ∨ c = ch 'j' ∨ c = ch 'z' ∨ c = ch 't' ∨ c = ch 'L'

/-- A character no scanner takes. -/
structure IsType (c : UInt8) : Prop where
  nonzero : c ≠ 0
  flag : ¬ isFlag c
  digit : ¬ isDigit c
  dot : c ≠ ch '.'
  star : c ≠ ch '*'
  len : ¬ isLen c

def WidthSpec.Fits : WidthSpec → Prop
  | .lit w => 0 < w ∧ w < 2 ^ 31
  | _ => True

def PrecSpec.Fits : PrecSpec → Prop
  | .lit p => p < 2 ^ 31
  | _ => True

/-- A directive that means what it says: a literal width does not begin with the flag `0`,
the numbers are those of an `int`, and the type is none of the other characters. -/
structure Directive.Fits (d : Directive) : Prop where
  width : d.width.Fits
  prec : d.prec.Fits
  type : IsType d.type

/-- The value of a width, and the arguments that are left. -/
def WidthSpec.take {δ : Type} : WidthSpec → List (Arg δ) → Except Fault (ℤ × List (Arg δ))
  | .none, ap => .ok (-1, ap)
  | .lit w, ap => .ok (w, ap)
  | .star, ap => do
    let (v, ap) ← vaInt ap
    return (if v < 0 then i32 (-v) else v, ap)

/-- The value of a precision, and the arguments that are left. -/
def PrecSpec.take {δ : Type} : PrecSpec → List (Arg δ) → Except Fault (ℤ × List (Arg δ))
  | .none, ap => .ok (-1, ap)
  | .empty, ap => .ok (0, ap)
  | .lit p, ap => .ok (p, ap)
  | .star, ap => do
    let (v, ap) ← vaInt ap
    return (if v < 0 then -1 else v, ap)

/-! ## Decimal numbers -/

theorem decimal_isDigit {n : ℕ} {c : UInt8} (h : c ∈ decimal n) : isDigit c = true := by
  obtain ⟨d, hd, rfl⟩ := mem_numeral (by decide) h
  have hall : ∀ d < 10, isDigit (digs false d) = true := by decide
  exact hall d hd

theorem isDigit_val {c : UInt8} (h : isDigit c = true) :
    (c.toNat - (ch '0').toNat : ℤ) = digitVal c := by
  simp only [isDigit, decide_eq_true_eq] at h
  have hle : (ch '0').toNat ≤ c.toNat := UInt8.le_iff_toNat_le.mp h.1
  rw [digitVal, if_pos h.2]
  omega

theorem value_decimal (n : ℕ) : value digitVal 10 (decimal n) = n :=
  value_numeral (by decide) (fun d hd => digitVal_digs false (by omega)) n

theorem decimal_head_isFlag {n : ℕ} (hn : n ≠ 0) : ¬ isFlag ((decimal n).headD 0) := by
  obtain ⟨d, hd, hhead, hmem⟩ := numeral_head (digs false) 10 hn
  have hlt : d < 10 := Nat.digits_lt_base (by decide) hmem
  have hall : ∀ d < 10, d ≠ 0 → ¬ isFlag (digs false d) := by decide
  rw [List.headD_eq_head?_getD, decimal, hhead, Option.getD_some]
  exact hall d hlt hd

/-- The loop over decimal digits wraps, and so computes the value of the whole number
wrapped once. -/
theorem foldl_wrap (m : ℕ) {ds : List UInt8} (hds : ∀ c ∈ ds, isDigit c = true) (n : ℕ) :
    ds.foldl (fun v c => (v * 10 + (c.toNat - (ch '0').toNat : ℤ)).bmod m) ((n : ℤ).bmod m) =
      ((ds.foldl (fun acc c => acc * 10 + digitVal c) n : ℕ) : ℤ).bmod m := by
  induction ds generalizing n with
  | nil => rfl
  | cons c ds ih =>
    rw [List.foldl_cons, List.foldl_cons, ← ih fun x hx => hds x (List.mem_cons_of_mem c hx)]
    congr 1
    rw [isDigit_val (hds c List.mem_cons_self)]
    calc ((n : ℤ).bmod m * 10 + digitVal c).bmod m
        = (((n : ℤ).bmod m * 10).bmod m + digitVal c).bmod m := Int.bmod_add_bmod.symm
      _ = (((n : ℤ) * 10).bmod m + digitVal c).bmod m := by rw [Int.bmod_mul_bmod]
      _ = ((n : ℤ) * 10 + digitVal c).bmod m := Int.bmod_add_bmod
      _ = ((n * 10 + digitVal c : ℕ) : ℤ).bmod m := by push_cast; rfl

/-! ## The scanners -/

theorem parseFlags_char (last : UInt8) (x : Flag) (cs : List UInt8) (f : Flags) :
    parseFlags last (x.char :: cs) f = parseFlags x.char cs (f.set x) := by
  cases x <;> rfl

theorem parseFlags_text (fs : List Flag) {rest : List UInt8} (h : ¬ isFlag (rest.headD 0))
    (last : UInt8) (f : Flags) :
    parseFlags last (fs.map Flag.char ++ rest) f =
      (⟨(fs.map Flag.char).getLastD last, rest⟩, fs.foldl Flags.set f) := by
  induction fs generalizing last f with
  | nil =>
    cases rest with
    | nil => rfl
    | cons c cs =>
      simp [isFlag] at h
      obtain ⟨h1, h2, h3, h4, h5⟩ := h
      simp [parseFlags, h1, h2, h3, h4, h5]
  | cons x fs ih =>
    rw [List.map_cons, List.cons_append, parseFlags_char, ih, List.getLastD_cons]
    rfl

theorem parseDigits_text (wrap : ℤ → ℤ) {ds : List UInt8} (hds : ∀ c ∈ ds, isDigit c = true)
    {rest : List UInt8} (h : ¬ isDigit (rest.headD 0)) (last : UInt8) (any : Bool) (v : ℤ) :
    parseDigits wrap last (ds ++ rest) any v =
      (⟨ds.getLastD last, rest⟩, any || !ds.isEmpty,
        ds.foldl (fun v c => wrap (v * 10 + (c.toNat - (ch '0').toNat : ℤ))) v) := by
  induction ds generalizing last any v with
  | nil =>
    cases rest with
    | nil => simp [parseDigits]
    | cons c cs =>
      rw [List.headD_cons] at h
      simp [parseDigits, h]
  | cons c ds ih =>
    rw [List.cons_append, parseDigits, if_pos (hds c List.mem_cons_self),
      ih (fun x hx => hds x (List.mem_cons_of_mem c hx)), List.getLastD_cons]
    simp

/-- The digits of a number give it back, as far as the arithmetic has space for it. -/
theorem parseDigits_decimal (m n : ℕ) {rest : List UInt8} (h : ¬ isDigit (rest.headD 0))
    (last : UInt8) :
    parseDigits (fun x => x.bmod m) last (decimal n ++ rest) false 0 =
      (⟨(decimal n).getLastD last, rest⟩, true, (n : ℤ).bmod m) := by
  have hdigits : ∀ c ∈ decimal n, isDigit c = true := fun c hc => decimal_isDigit hc
  have hfold := foldl_wrap m hdigits 0
  have hvalue := value_decimal n
  unfold value at hvalue
  rw [hvalue, Nat.cast_zero, Int.zero_bmod] at hfold
  rw [parseDigits_text _ hdigits h, hfold]
  simp [numeral_ne_nil, decimal]

section
variable {δ : Type}

theorem parseWidthPrec_digits {last : UInt8} {cs : List UInt8} {c : Cursor} {any : Bool} {v : ℤ}
    (hstar : cs.headD 0 ≠ ch '*') (h : parseDigits i32 last cs false 0 = (c, any, v))
    (ap : List (Arg δ)) :
    parseWidthPrec ⟨last, cs⟩ ap = .ok (c, if any then v else -1, ap) := by
  have hpeek : (⟨last, cs⟩ : Cursor).peek ≠ ch '*' := hstar
  rw [parseWidthPrec, if_neg hpeek, h]
  rfl

/-- The first character of a text that is not empty. -/
theorem headD_append {s : List UInt8} (hs : s ≠ []) (rest : List UInt8) :
    (s ++ rest).headD 0 = s.headD 0 := by
  cases s with
  | nil => exact absurd rfl hs
  | cons c s => rfl

theorem decimal_headD_isDigit (n : ℕ) (rest : List UInt8) :
    isDigit ((decimal n ++ rest).headD 0) = true := by
  have hne : decimal n ≠ [] := numeral_ne_nil _ _ _
  rw [headD_append hne]
  cases h : decimal n with
  | nil => exact absurd h hne
  | cons c cs =>
    apply decimal_isDigit (n := n)
    rw [h]
    exact List.mem_cons_self

theorem isDigit_ne_star {c : UInt8} (h : isDigit c = true) : c ≠ ch '*' := by
  rintro rfl
  exact absurd h (by decide)

theorem parseWidthPrec_text {w : WidthSpec} (hw : w.Fits) {rest : List UInt8}
    (hdigit : ¬ isDigit (rest.headD 0)) (hstar : rest.headD 0 ≠ ch '*') (last : UInt8)
    (ap : List (Arg δ)) :
    parseWidthPrec ⟨last, w.text ++ rest⟩ ap = (do
      let (v, ap) ← w.take ap
      return (⟨w.text.getLastD last, rest⟩, v, ap)) := by
  cases w with
  | none =>
    have hscan := parseDigits_text i32 (show ∀ c ∈ [], isDigit c = true by simp) hdigit last false 0
    exact parseWidthPrec_digits hstar hscan ap
  | lit n =>
    have hhead := isDigit_ne_star (decimal_headD_isDigit n rest)
    have hn : (n : ℤ).bmod (2 ^ 32) = n := i32_of_lt (by omega) (by have := hw.2; omega)
    have hscan := parseDigits_decimal (2 ^ 32) n hdigit last
    rw [hn] at hscan
    exact parseWidthPrec_digits hhead hscan ap
  | star =>
    have hpeek : (⟨last, WidthSpec.star.text ++ rest⟩ : Cursor).peek = ch '*' := rfl
    rw [parseWidthPrec, if_pos hpeek, WidthSpec.take]
    cases vaInt ap <;> rfl

theorem parsePrec_none {c : Cursor} (hdot : c.peek ≠ ch '.') (ap : List (Arg δ)) :
    parsePrec c ap = .ok (c, -1, ap) := by
  rw [parsePrec, if_neg hdot]
  rfl

theorem parsePrec_digits (last : UInt8) {cs : List UInt8} {c : Cursor} {any : Bool} {v : ℤ}
    (hstar : cs.headD 0 ≠ ch '*') (h : parseDigits i64 (ch '.') cs false 0 = (c, any, v))
    (ap : List (Arg δ)) :
    parsePrec ⟨last, ch '.' :: cs⟩ ap = .ok (c, if any then i32 v else 0, ap) := by
  have hdot : (⟨last, ch '.' :: cs⟩ : Cursor).peek = ch '.' := rfl
  have hnext : (⟨last, ch '.' :: cs⟩ : Cursor).next = ⟨ch '.', cs⟩ := rfl
  have hpeek : (⟨ch '.', cs⟩ : Cursor).peek ≠ ch '*' := hstar
  rw [parsePrec, if_pos hdot, hnext]
  dsimp only
  rw [if_neg hpeek, h]
  rfl

theorem parsePrec_text {p : PrecSpec} (hp : p.Fits) {rest : List UInt8}
    (hdigit : ¬ isDigit (rest.headD 0)) (hstar : rest.headD 0 ≠ ch '*')
    (hdot : rest.headD 0 ≠ ch '.') (last : UInt8) (ap : List (Arg δ)) :
    parsePrec ⟨last, p.text ++ rest⟩ ap = (do
      let (v, ap) ← p.take ap
      return (⟨p.text.getLastD last, rest⟩, v, ap)) := by
  cases p with
  | none =>
    have hpeek : (⟨last, PrecSpec.none.text ++ rest⟩ : Cursor).peek ≠ ch '.' := hdot
    exact parsePrec_none hpeek ap
  | empty =>
    have hscan := parseDigits_text i64 (show ∀ c ∈ [], isDigit c = true by simp) hdigit (ch '.')
      false 0
    exact parsePrec_digits last hstar hscan ap
  | lit n =>
    have hp : n < 2 ^ 31 := hp
    have hhead := isDigit_ne_star (decimal_headD_isDigit n rest)
    have hn : (n : ℤ).bmod (2 ^ 64) = n := Int.bmod_eq_of_le (by omega) (by omega)
    have hscan := parseDigits_decimal (2 ^ 64) n hdigit (ch '.')
    rw [hn] at hscan
    have hlast : (PrecSpec.lit n).text.getLastD last = (decimal n).getLastD (ch '.') :=
      List.getLastD_cons
    have hparse := parsePrec_digits last hhead hscan ap
    rw [if_pos rfl, i32_of_lt (by omega) (by omega)] at hparse
    rw [hlast]
    exact hparse
  | star =>
    have hpeek : (⟨last, PrecSpec.star.text ++ rest⟩ : Cursor).peek = ch '.' := rfl
    have hpeek' : (⟨last, PrecSpec.star.text ++ rest⟩ : Cursor).next.peek = ch '*' := rfl
    rw [parsePrec, if_pos hpeek]
    dsimp only
    rw [if_pos hpeek', PrecSpec.take]
    cases vaInt ap <;> rfl

theorem parseLen_text (len : LenCode) {t : UInt8} (ht : ¬ isLen t) (last : UInt8)
    (rest : List UInt8) :
    parseLen ⟨last, len.text ++ t :: rest⟩ = (⟨len.text.getLastD last, t :: rest⟩, len) := by
  simp [isLen] at ht
  obtain ⟨h1, h2, h3, h4, h5, h6⟩ := ht
  cases len with
  | none => simp [parseLen, LenCode.text, Cursor.peek, h1, h2, h3, h4, h5, h6]
  | h => simp [parseLen, LenCode.text, Cursor.peek, Cursor.next, h1]
  | l =>
    have hl : ¬ ch 'l' = ch 'h' := by decide
    simp [parseLen, LenCode.text, Cursor.peek, Cursor.next, hl, h2]
  | hh => rfl
  | ll => rfl
  | j => rfl
  | z => rfl
  | t => rfl
  | L => rfl

/-! ## Reading a directive back -/

/-- The first characters of the later parts are no character of the earlier ones. -/
theorem len_type_headD (len : LenCode) {t : UInt8} (ht : IsType t) (rest : List UInt8) :
    ¬ isFlag ((len.text ++ t :: rest).headD 0) ∧ ¬ isDigit ((len.text ++ t :: rest).headD 0) ∧
      (len.text ++ t :: rest).headD 0 ≠ ch '*' ∧ (len.text ++ t :: rest).headD 0 ≠ ch '.' := by
  cases len with
  | none => exact ⟨ht.flag, ht.digit, ht.star, ht.dot⟩
  | _ =>
    rw [headD_append (by decide)]
    decide

theorem prec_headD (p : PrecSpec) {rest : List UInt8} (hflag : ¬ isFlag (rest.headD 0))
    (hdigit : ¬ isDigit (rest.headD 0)) (hstar : rest.headD 0 ≠ ch '*') :
    ¬ isFlag ((p.text ++ rest).headD 0) ∧ ¬ isDigit ((p.text ++ rest).headD 0) ∧
      (p.text ++ rest).headD 0 ≠ ch '*' := by
  cases p with
  | none => exact ⟨hflag, hdigit, hstar⟩
  | lit n =>
    have hhead : ((PrecSpec.lit n).text ++ rest).headD 0 = ch '.' := rfl
    rw [hhead]
    decide
  | _ =>
    rw [headD_append (by decide)]
    decide

theorem width_headD {w : WidthSpec} (hw : w.Fits) {rest : List UInt8}
    (hflag : ¬ isFlag (rest.headD 0)) : ¬ isFlag ((w.text ++ rest).headD 0) := by
  cases w with
  | none => exact hflag
  | lit n =>
    have hne : decimal n ≠ [] := numeral_ne_nil _ _ _
    rw [WidthSpec.text, headD_append hne]
    exact decimal_head_isFlag (by have := hw.1; omega)
  | star =>
    rw [headD_append (by decide)]
    decide

/-- The record that a directive is parsed to: what a negative width from an argument does
to the flags is part of it. -/
def Directive.fmt (d : Directive) (w p : ℤ) : Fmt :=
  if w < 0 ∧ d.width = .star then
    ⟨{ flagsOf d.flags with left := true }, i32 (-w), p, d.len, d.type⟩
  else ⟨flagsOf d.flags, w, p, d.len, d.type⟩

theorem flags_getLastD (fs : List Flag) {last : UInt8} (h : last ≠ ch '*') :
    (fs.map Flag.char).getLastD last ≠ ch '*' := by
  induction fs generalizing last with
  | nil => exact h
  | cons x fs ih =>
    rw [List.map_cons, List.getLastD_cons]
    apply ih
    cases x <;> decide

/-- The character before the pointer tells where a negative width came from. -/
theorem width_getLastD {w : WidthSpec} {v : ℤ} {ap ap' : List (Arg δ)}
    (h : w.take ap = .ok (v, ap')) {last : UInt8} (hlast : last ≠ ch '*') :
    v < 0 ∧ w.text.getLastD last = ch '*' ↔ v < 0 ∧ w = .star := by
  cases w with
  | none => simp [WidthSpec.text, hlast]
  | lit n =>
    obtain ⟨rfl, -⟩ : (n : ℤ) = v ∧ ap = ap' := by simpa [WidthSpec.take] using h
    constructor <;> intro hneg <;> omega
  | star => simp [WidthSpec.text]

/-- Parsing the text of a directive gives its parts back, takes as many arguments as there
are stars and leaves the pointer right after it. -/
theorem parseSpec_text {d : Directive} (hd : d.Fits) (rest : List UInt8) (ap : List (Arg δ)) :
    parseSpec ⟨ch '%', d.text ++ rest⟩ ap = (do
      let (w, ap) ← d.width.take ap
      let (p, ap) ← d.prec.take ap
      return (d.fmt w p, ⟨d.type, rest⟩, ap)) := by
  obtain ⟨hf, hdig, hst, hdot⟩ := len_type_headD d.len hd.type rest
  obtain ⟨hf', hdig', hst'⟩ := prec_headD d.prec hf hdig hst
  have hf'' := width_headD hd.width hf'
  have htext : d.text ++ rest = d.flags.map Flag.char ++ (d.width.text ++ (d.prec.text ++
      (d.len.text ++ d.type :: rest))) := by
    simp [Directive.text]
  rw [parseSpec, htext, parseFlags_text d.flags hf'']
  dsimp only
  rw [parseWidthPrec_text hd.width hdig' hst']
  cases hw : d.width.take ap with
  | error e => rfl
  | ok w =>
    obtain ⟨w, ap₁⟩ := w
    have hstar := width_getLastD hw (flags_getLastD d.flags (show ch '%' ≠ ch '*' by decide))
    simp only [ok_bind, pure_bind]
    rw [parsePrec_text hd.prec hdig hst hdot]
    cases d.prec.take ap₁ with
    | error e => rfl
    | ok p =>
      obtain ⟨p, ap₂⟩ := p
      simp only [ok_bind, pure_bind, parseLen_text d.len hd.type.len, hstar]
      have hpeek : ∀ last, (⟨last, d.type :: rest⟩ : Cursor).peek = d.type := fun _ => rfl
      rw [hpeek, if_pos hd.type.nonzero, Directive.fmt]
      split_ifs <;> rfl

def Flags.has (f : Flags) : Flag → Bool
  | .left => f.left
  | .sign => f.sign
  | .zero => f.zero
  | .alt => f.alt
  | .sp => f.sp

theorem Flags.has_set (f : Flags) (x y : Flag) : (f.set x).has y = (f.has y || x = y) := by
  cases x <;> cases y <;> simp [Flags.set, Flags.has]

theorem foldl_set_has (fs : List Flag) (f : Flags) (x : Flag) :
    (fs.foldl Flags.set f).has x = true ↔ f.has x = true ∨ x ∈ fs := by
  induction fs generalizing f with
  | nil => simp
  | cons y fs ih =>
    rw [List.foldl_cons, ih, Flags.has_set, List.mem_cons, Bool.or_eq_true, decide_eq_true_iff,
      or_assoc, eq_comm (a := y)]

/-- A flag is set when it stands among the characters. -/
theorem flagsOf_has (fs : List Flag) (x : Flag) : (flagsOf fs).has x = true ↔ x ∈ fs := by
  rw [flagsOf, foldl_set_has]
  cases x <;> simp [Flags.has]

/-- The value of a width that does not come from an argument; minus one stands for none. -/
def WidthSpec.literal : WidthSpec → Option ℤ
  | .none => some (-1)
  | .lit w => some w
  | .star => Option.none

/-- The value of a precision that does not come from an argument; a dot alone means zero. -/
def PrecSpec.literal : PrecSpec → Option ℤ
  | .none => some (-1)
  | .empty => some 0
  | .lit p => some p
  | .star => Option.none

theorem WidthSpec.take_literal {w : WidthSpec} {v : ℤ} (h : w.literal = some v)
    (ap : List (Arg δ)) : w.take ap = .ok (v, ap) ∧ w ≠ .star := by
  cases w with
  | star => cases h
  | _ => obtain rfl := Option.some.inj h; exact ⟨rfl, by simp⟩

theorem PrecSpec.take_literal {p : PrecSpec} {v : ℤ} (h : p.literal = some v)
    (ap : List (Arg δ)) : p.take ap = .ok (v, ap) := by
  cases p with
  | star => cases h
  | _ => obtain rfl := Option.some.inj h; rfl

/-- A directive without stars is parsed to its own record. -/
theorem parseSpec_literal {d : Directive} (hd : d.Fits) {w p : ℤ} (hw : d.width.literal = some w)
    (hp : d.prec.literal = some p) (rest : List UInt8) (ap : List (Arg δ)) :
    parseSpec ⟨ch '%', d.text ++ rest⟩ ap =
      .ok (⟨flagsOf d.flags, w, p, d.len, d.type⟩, ⟨d.type, rest⟩, ap) := by
  obtain ⟨htake, hstar⟩ := WidthSpec.take_literal hw ap
  have hfmt : d.fmt w p = ⟨flagsOf d.flags, w, p, d.len, d.type⟩ := if_neg fun h => hstar h.2
  rw [parseSpec_text hd, htake, ok_bind]
  dsimp only
  rw [PrecSpec.take_literal hp, ok_bind, ← hfmt]
  rfl

/-! ## The loop -/

/-- One round of the loop in `vsnprintf` from a character that is not the last: whether
there is a next one, the pointer, and what the round has done. -/
def formatRound (float : Fmt → δ → List UInt8) (c : Cursor) (r : Run δ) :
    Except Fault (Bool × Cursor × Run δ) :=
  if c.peek ≠ ch '%' then return (true, c.next, { r with out := outPutc r.out c.peek })
  else do
    let (f, c, ap) ← parseSpec c.next r.ap
    if f.type = 0 then return (false, c, { r with ap })
    let r ← convert float f { r with ap }
    return (true, c, r)

theorem formatLoop_succ (float : Fmt → δ → List UInt8) (fuel : ℕ) (c : Cursor) (r : Run δ) :
    formatLoop float (fuel + 1) c r =
      if c.peek = 0 then .ok r
      else do
        let (more, c, r) ← formatRound float c r
        if more then formatLoop float fuel c r else return r := by
  rw [formatLoop, formatRound]
  split_ifs with h0 hlit
  · rfl
  · rfl
  · cases parseSpec c.next r.ap with
    | error e => rfl
    | ok a =>
      obtain ⟨f, c', ap⟩ := a
      simp only [ok_bind]
      split_ifs with htype
      · rfl
      · cases convert float f { r with ap } <;> rfl

/-- The heads of the loop that a run comes to. -/
inductive Heads (float : Fmt → δ → List UInt8) (c₀ : Cursor) (r₀ : Run δ) : Cursor → Run δ → Prop
  | start : Heads float c₀ r₀ c₀ r₀
  | round {c c' : Cursor} {r r' : Run δ} (h : Heads float c₀ r₀ c r) (hpeek : c.peek ≠ 0)
      (hround : formatRound float c r = .ok (true, c', r')) : Heads float c₀ r₀ c' r'

theorem convert_holds (float : Fmt → δ → List UInt8) (f : Fmt) (r : Run δ) :
    Holds IsArgument (fun _ => True) (convert float f r) := by
  unfold convert
  cases convOf f.type with
  | percent => trivial
  | unknown => trivial
  | char => exact (vaWord_holds _).bind fun _ _ => trivial
  | str => exact (vaStr_holds _).bind fun _ _ => trivial
  | signed =>
    have harg : Holds IsArgument (fun _ => True) (getIntArg r.ap f.len) :=
      (vaWord_holds _).bind fun _ _ => trivial
    exact harg.bind fun _ _ => trivial
  | unsigned base upper =>
    have harg : Holds IsArgument (fun _ => True) (getUintArg r.ap f.len) :=
      (vaWord_holds _).bind fun _ _ => trivial
    exact harg.bind fun _ _ => trivial
  | pointer => exact (vaWord_holds _).bind fun _ _ => trivial
  | count => exact (vaWord_holds _).bind fun _ _ => trivial
  | float => exact (vaReal_holds _).bind fun _ _ => trivial

/-- A round moves forward inside the string by at least one character; the last one ends
at the terminating zero. -/
theorem formatRound_reaches (float : Fmt → δ → List UInt8) (c : Cursor) (r : Run δ) :
    Holds IsArgument (fun a => c.next.Reaches a.2.1 ∧ (a.1 = false → a.2.1.peek = 0))
      (formatRound float c r) := by
  unfold formatRound
  by_cases hlit : c.peek ≠ ch '%'
  · rw [if_pos hlit]
    exact holds_pure.mpr ⟨.refl _, by simp⟩
  · rw [if_neg hlit]
    apply (parseSpec_reaches c.next r.ap).bind
    intro a ha
    obtain ⟨f, c', ap⟩ := a
    dsimp only
    split_ifs with htype
    · exact holds_pure.mpr ⟨ha.1, fun _ => ha.2 htype⟩
    · exact (convert_holds float f _).bind fun _ _ => holds_pure.mpr ⟨ha.1, by simp⟩

/-- With as many rounds as there are characters the loop does not run out of them. -/
theorem formatLoop_holds (float : Fmt → δ → List UInt8) {fuel : ℕ} {c : Cursor}
    (h : c.rest.length < fuel) (r : Run δ) :
    Holds IsArgument (fun _ => True) (formatLoop float fuel c r) := by
  induction fuel generalizing c r with
  | zero => omega
  | succ fuel ih =>
    rw [formatLoop_succ]
    split_ifs with hpeek
    · trivial
    · apply (formatRound_reaches float c r).bind
      intro a ha
      obtain ⟨more, c', r'⟩ := a
      have hlt := Cursor.next_rest_lt hpeek
      have hle := ha.1.length_le
      dsimp only at hle ⊢
      split_ifs
      · exact ih (by omega) r'
      · trivial

theorem vsnprintf_ends (float : Fmt → δ → List UInt8) (dst : ℕ → UInt8) (n : ℕ)
    (fmt : List UInt8) (ap : List (Arg δ)) : vsnprintf float dst n fmt ap ≠ .error .hang := by
  have hloop := formatLoop_holds float (c := ⟨0, fmt⟩) (Nat.lt_succ_self fmt.length)
    ⟨outInit dst n, ap, []⟩
  have hcall : Holds IsArgument (fun _ => True) (vsnprintf float dst n fmt ap) :=
    hloop.bind fun _ _ => trivial
  intro h
  rw [h] at hcall
  exact absurd hcall (by simp [IsArgument])

/-- Where the pointer stands: before the `k`-th character. -/
def Cursor.At (s : List UInt8) (k : ℕ) (c : Cursor) : Prop := c.rest = s.drop k

/-- A suffix of the string in front of the zero is a position of the pointer. -/
theorem Cursor.At.of_suffix {c : Cursor} {body junk s : List UInt8} (hs : s <:+ body)
    (h : c.rest = s ++ 0 :: junk) :
    c.At (body ++ 0 :: junk) (body.length - s.length) := by
  obtain ⟨t, rfl⟩ := hs
  rw [Cursor.At, h, List.append_assoc, List.length_append, Nat.add_sub_cancel, List.drop_left]

theorem head_suffix {float : Fmt → δ → List UInt8} {body junk : List UInt8} {last : UInt8}
    {r₀ r : Run δ} {c : Cursor} (h : Heads float ⟨last, body ++ 0 :: junk⟩ r₀ c r) :
    ∃ s, s <:+ body ∧ c.rest = s ++ 0 :: junk := by
  induction h with
  | start => exact ⟨body, List.suffix_refl body, rfl⟩
  | @round c c' r r' _ hpeek hround ih =>
    obtain ⟨s, hs, hrest⟩ := ih
    have hreach := formatRound_reaches float c r
    rw [hround] at hreach
    obtain ⟨s', hs', hrest'⟩ := ((Cursor.Reaches.next hpeek).trans hreach.1).suffix hrest
    exact ⟨s', hs'.trans hs, hrest'⟩

/-- One round on a string that ends in front of `junk`. -/
theorem formatRound_advances {float : Fmt → δ → List UInt8} {body junk s : List UInt8}
    (hbody : 0 ∉ body) {c c' : Cursor} {r r' : Run δ} {more : Bool} (hs : s <:+ body)
    (hrest : c.rest = s ++ 0 :: junk) (hpeek : c.peek ≠ 0)
    (hround : formatRound float c r = .ok (more, c', r')) :
    ∃ s', s' <:+ body ∧ s'.length < s.length ∧ c'.rest = s' ++ 0 :: junk ∧
      (more = false → s' = []) := by
  have hreach := formatRound_reaches float c r
  rw [hround] at hreach
  obtain ⟨hreach, hlast⟩ := hreach
  obtain ⟨last, rest⟩ := c
  obtain rfl : rest = s ++ 0 :: junk := hrest
  cases s with
  | nil => exact absurd rfl hpeek
  | cons x s =>
    obtain ⟨s', hs', hrest'⟩ := hreach.suffix (show _ = s ++ 0 :: junk from rfl)
    have hsuf : s' <:+ body := hs'.trans ((List.suffix_cons x s).trans hs)
    refine ⟨s', hsuf, Nat.lt_succ_of_le hs'.length_le, hrest', ?_⟩
    intro hmore
    have hzero := hlast hmore
    cases s' with
    | nil => rfl
    | cons y s' =>
      -- no character of the string is zero
      have hy : y = 0 := by
        rw [Cursor.peek, hrest'] at hzero
        exact hzero
      exact absurd (hsuf.subset (hy ▸ List.mem_cons_self)) hbody

/-- The parser reads back what was written, and on any string it advances in every round of the loop
in `vsnprintf` (`formatLoop_succ`) and never passes the terminating zero. -/
theorem format_scanning (float : Fmt → δ → List UInt8) :
    (∀ (body junk : List UInt8) (last : UInt8), 0 ∉ body →
      (∀ r₀ c r, Heads float ⟨last, body ++ 0 :: junk⟩ r₀ c r →
        ∃ k ≤ body.length, c.At (body ++ 0 :: junk) k ∧
          ∀ more c' r', c.peek ≠ 0 → formatRound float c r = .ok (more, c', r') →
            c.Reaches c' ∧ ∃ k', k < k' ∧ k' ≤ body.length ∧ c'.At (body ++ 0 :: junk) k' ∧
              (more = false → k' = body.length)) ∧
      ∀ dst n ap, vsnprintf float dst n (body ++ 0 :: junk) ap ≠ .error .hang) ∧
    ∀ (d : Directive) (w p : ℤ), d.Fits → d.width.literal = some w → d.prec.literal = some p →
      ∀ (rest : List UInt8) (ap : List (Arg δ)),
        ∃ f, parseSpec ⟨ch '%', d.text ++ rest⟩ ap = .ok (f, ⟨d.type, rest⟩, ap) ∧
          (∀ x, f.flags.has x = true ↔ x ∈ d.flags) ∧ f.width = w ∧ f.prec = p ∧
          f.len = d.len ∧ f.type = d.type := by
  constructor
  · intro body junk last hbody
    constructor
    · intro r₀ c r hhead
      obtain ⟨s, hs, hrest⟩ := head_suffix hhead
      have hle := hs.length_le
      refine ⟨body.length - s.length, by omega, .of_suffix hs hrest, ?_⟩
      intro more c' r' hpeek hround
      obtain ⟨s', hs', hlt, hrest', hend⟩ := formatRound_advances hbody hs hrest hpeek hround
      have hreach := formatRound_reaches float c r
      rw [hround] at hreach
      refine ⟨(Cursor.Reaches.next hpeek).trans hreach.1, body.length - s'.length, by omega,
        by omega, .of_suffix hs' hrest', ?_⟩
      intro hmore
      rw [hend hmore, List.length_nil, Nat.sub_zero]
    · exact fun dst n ap => vsnprintf_ends float dst n _ ap
  · intro d w p hd hw hp rest ap
    exact ⟨_, parseSpec_literal hd hw hp rest ap, fun x => flagsOf_has d.flags x, rfl, rfl, rfl, rfl⟩

/-- `%-05.3lld` before an exclamation mark. -/
theorem format_scanning_lld :
    ∃ f, parseSpec ⟨ch '%', (⟨[.left, .zero], .lit 5, .lit 3, .ll, ch 'd'⟩ : Directive).text ++
        [ch '!']⟩ [Arg.word 7, Arg.real ()] =
        .ok (f, ⟨ch 'd', [ch '!']⟩, [Arg.word 7, Arg.real ()]) ∧
      (∀ x, f.flags.has x = true ↔ x ∈ [Flag.left, .zero]) ∧ f.width = 5 ∧ f.prec = 3 ∧
      f.len = .ll ∧ f.type = ch 'd' :=
  (format_scanning fun _ _ => []).2 ⟨[.left, .zero], .lit 5, .lit 3, .ll, ch 'd'⟩ 5 3
    ⟨⟨by decide, by decide⟩, show 3 < 2 ^ 31 by decide, ⟨by decide, by decide, by decide, by decide, by decide,
      by decide⟩⟩ rfl rfl [ch '!'] [Arg.word 7, Arg.real ()]

end

end JanusRT.Snprintf
