import JanusRT.Fields
import JanusRT.Termination

/-!
# Integer directives of ISO C

What 7.21.6.1 of the standard prescribes for the conversions `d`, `i`, `u`, `o`, `x` and
`X`, against what `vsnprintf` puts out. All six go through `emit_int`, which does not
know a signed from an unsigned conversion and takes the zero of `#` with `o` for a
prefix, so the two differ in a few combinations of flags.
-/
namespace JanusRT.Snprintf

open Outcome Numeral

/-! ## The standard -/

/-- The integer conversions. -/
inductive IntConv
  | d | i | u | o | x | X
  deriving DecidableEq, Repr

namespace IntConv

def type : IntConv → UInt8
  | .d => ch 'd'
  | .i => ch 'i'
  | .u => ch 'u'
  | .o => ch 'o'
  | .x => ch 'x'
  | .X => ch 'X'

def signed : IntConv → Bool
  | .d | .i => true
  | _ => false

def base : IntConv → ℕ
  | .o => 8
  | .x | .X => 16
  | _ => 10

def upper : IntConv → Bool
  | .X => true
  | _ => false

/-- The value of an argument of the type that the length modifier names. -/
def value (c : IntConv) (len : LenCode) (v : ℕ) : ℤ :=
  if c.signed then (v : ℤ).bmod (2 ^ len.bits) else (v % 2 ^ len.bits : ℕ)

end IntConv

/-- The sign: only a signed conversion has one. -/
def isoSign (fl : Flags) (c : IntConv) (value : ℤ) : List UInt8 :=
  if c.signed then
    if value < 0 then [ch '-']
    else if fl.sign then [ch '+']
    else if fl.sp then [ch ' ']
    else []
  else []

/-- A nonzero hexadecimal result has its prefix with `#`. -/
def isoPrefix (fl : Flags) (c : IntConv) (value : ℤ) : List UInt8 :=
  if fl.alt ∧ value ≠ 0 then
    match c with
    | .x => [ch '0', ch 'x']
    | .X => [ch '0', ch 'X']
    | _ => []
  else []

/-- The precision is the least number of digits, one if there is none; zero with precision
zero is no character. -/
def isoMinDigits (p : ℤ) (c : IntConv) (value : ℤ) : List UInt8 :=
  let prec := if p < 0 then 1 else p.toNat
  let digits := if value = 0 ∧ prec = 0 then [] else numeral (digs c.upper) c.base value.natAbs
  List.replicate (prec - digits.length) (ch '0') ++ digits

/-- With `#`, `o` increases the precision if and only if that is needed to make the first
digit a zero. -/
def isoDigits (fl : Flags) (p : ℤ) (c : IntConv) (value : ℤ) : List UInt8 :=
  let digits := isoMinDigits p c value
  if c = .o ∧ fl.alt ∧ digits.head? ≠ some (ch '0') then ch '0' :: digits else digits

/-- The result in its field: `-` fills on the right, `0` fills with zeros after sign and
prefix unless there is a `-` or a precision. -/
def isoText (fl : Flags) (w p : ℤ) (c : IntConv) (value : ℤ) : List UInt8 :=
  let head := isoSign fl c value ++ isoPrefix fl c value
  let digits := isoDigits fl p c value
  let gap := (w - (head ++ digits).length).toNat
  if fl.left then head ++ digits ++ List.replicate gap (ch ' ')
  else if fl.zero ∧ p < 0 then head ++ List.replicate gap (ch '0') ++ digits
  else List.replicate gap (ch ' ') ++ (head ++ digits)

/-! ## Where the code agrees -/

/-- The length of an unsigned result without its field. -/
def isoLength (fl : Flags) (p : ℤ) (c : IntConv) (value : ℤ) : ℕ :=
  (isoPrefix fl c value ++ isoDigits fl p c value).length

/-- The space flag of an unsigned conversion goes unnoticed: the field begins with a space
anyway, or has nothing but spaces in it. -/
def SpaceHidden (fl : Flags) (w p : ℤ) (c : IntConv) (value : ℤ) : Prop :=
  isoLength fl p c value < w ∧
    (isoLength fl p c value = 0 ∨ fl.left = false ∧ ¬ (fl.zero ∧ p < 0))

/-- With `#`, an octal value that is not zero has as many digits as its precision asks for,
and zero has a precision other than zero. -/
def OctalAgrees (fl : Flags) (p : ℤ) (c : IntConv) (value : ℤ) : Prop :=
  c = .o → fl.alt = true →
    if value = 0 then p ≠ 0 else p ≤ (numeral (digs false) 8 value.natAbs).length

/-- What the code does right: every signed conversion, and an unsigned one without the flags
that are not meant for it. -/
def IsoAgrees (fl : Flags) (w p : ℤ) (c : IntConv) (value : ℤ) : Prop :=
  c.signed = true ∨
    (fl.sign = false ∧ (fl.sp = true → SpaceHidden fl w p c value) ∧ OctalAgrees fl p c value)

/-! ## The parts -/

section
variable {fl : Flags} {w p : ℤ} {c : IntConv} {value : ℤ}

theorem IntConv.isBase (c : IntConv) : IsBase c.base := by
  cases c <;> simp [IntConv.base, IsBase]

/-- The digits without their precision. -/
def isoNumeral (p : ℤ) (c : IntConv) (value : ℤ) : List UInt8 :=
  if value = 0 ∧ p = 0 then [] else numeral (digs c.upper) c.base value.natAbs

/-- A precision that is not there asks for no zeros. -/
theorem isoMinDigits_eq (p : ℤ) (c : IntConv) (value : ℤ) : isoMinDigits p c value =
    List.replicate (p - (isoNumeral p c value).length).toNat (ch '0') ++ isoNumeral p c value := by
  have hpos := List.length_pos_of_ne_nil (numeral_ne_nil (digs c.upper) c.base value.natAbs)
  unfold isoMinDigits isoNumeral
  dsimp only
  by_cases hneg : p < 0
  · rw [if_pos hneg, if_neg (by simp), if_neg (by omega)]
    congr 2
    omega
  · have hprec : value = 0 ∧ p.toNat = 0 ↔ value = 0 ∧ p = 0 := by omega
    simp only [if_neg hneg, hprec]
    congr 2
    omega

/-- The digits of `emit_int` are the least ones of the standard. -/
theorem intBody_eq (f : Fmt) (hp : f.prec = p) (c : IntConv) (value : ℤ) :
    intBody f value.natAbs c.base c.upper = isoMinDigits p c value := by
  have hdigits : digitText f value.natAbs c.base c.upper = isoNumeral p c value := by
    unfold digitText isoNumeral
    rw [hp]
    simp only [Int.natAbs_eq_zero, and_comm]
  rw [isoMinDigits_eq, intBody, hdigits, hp]

/-- What `emit_int` takes for the prefix of an octal number. -/
theorem prefixText_eq (f : Fmt) (hf : f.flags = fl) (c : IntConv) (value : ℤ) :
    prefixText f value.natAbs c.base c.upper =
      if c = .o ∧ fl.alt ∧ value ≠ 0 then [ch '0'] else isoPrefix fl c value := by
  have hne : value.natAbs ≠ 0 ↔ value ≠ 0 := Int.natAbs_ne_zero
  unfold prefixText isoPrefix
  rw [hf]
  simp only [hne]
  cases c <;> simp [IntConv.base, IntConv.upper]

/-- Nothing in a number is a space or a plus sign. -/
def IsCore (x : UInt8) : Prop := x ≠ ch ' ' ∧ x ≠ ch '+'

theorem digs_isCore (upper : Bool) {d : ℕ} (h : d < 16) : IsCore (digs upper d) := by
  unfold IsCore
  revert upper d
  decide

theorem zero_isCore : IsCore (ch '0') := by
  unfold IsCore
  decide

theorem isoMinDigits_isCore : ∀ x ∈ isoMinDigits p c value, IsCore x := by
  have hbounds := c.isBase.bounds
  intro x hx
  rw [isoMinDigits_eq, List.mem_append] at hx
  obtain hx | hx := hx
  · rw [List.eq_of_mem_replicate hx]
    exact zero_isCore
  · unfold isoNumeral at hx
    split_ifs at hx
    · simp at hx
    · obtain ⟨d, hd, rfl⟩ := mem_numeral (by omega) hx
      exact digs_isCore _ (by omega)

theorem isoDigits_isCore : ∀ x ∈ isoDigits fl p c value, IsCore x := by
  intro x hx
  unfold isoDigits at hx
  dsimp only at hx
  split_ifs at hx
  · obtain rfl | hx := List.mem_cons.mp hx
    · exact zero_isCore
    · exact isoMinDigits_isCore x hx
  · exact isoMinDigits_isCore x hx

theorem isoPrefix_isCore : ∀ x ∈ isoPrefix fl c value, IsCore x := by
  have hmark : ∀ y, IsCore y → ∀ x ∈ [ch '0', y], IsCore x := by
    intro y hy x hx
    obtain rfl | hx := List.mem_cons.mp hx
    · exact zero_isCore
    · rw [List.mem_singleton.mp hx]
      exact hy
  unfold isoPrefix
  split_ifs
  · cases c with
    | x => exact hmark (ch 'x') ⟨by decide, by decide⟩
    | X => exact hmark (ch 'X') ⟨by decide, by decide⟩
    | _ => simp
  · simp

theorem core_isCore : ∀ x ∈ isoPrefix fl c value ++ isoDigits fl p c value, IsCore x := by
  intro x hx
  obtain hx | hx := List.mem_append.mp hx
  · exact isoPrefix_isCore x hx
  · exact isoDigits_isCore x hx

theorem emitted_isCore {f : Fmt} (hf : f.flags = fl) :
    ∀ x ∈ prefixText f value.natAbs c.base c.upper ++ isoMinDigits p c value, IsCore x := by
  intro x hx
  rw [prefixText_eq f hf] at hx
  obtain hx | hx := List.mem_append.mp hx
  · split_ifs at hx
    · rw [List.mem_singleton.mp hx]
      exact zero_isCore
    · exact isoPrefix_isCore x hx
  · exact isoMinDigits_isCore x hx

/-! ## Octal numbers -/

/-- The first digit of an octal number is a zero if the precision asks for more digits. -/
theorem isoMinDigits_head (hv : value ≠ 0) :
    (isoMinDigits p .o value).head? = some (ch '0') ↔
      (numeral (digs false) 8 value.natAbs).length < p := by
  have hnum : isoNumeral p .o value = numeral (digs false) 8 value.natAbs := if_neg fun h => hv h.1
  rw [isoMinDigits_eq, hnum]
  constructor
  · intro h
    by_contra hle
    obtain ⟨d, hd, hhead, hmem⟩ := numeral_head (digs false) 8 (Int.natAbs_ne_zero.mpr hv)
    have hlt : d < 8 := Nat.digits_lt_base (by decide) hmem
    have hnil : (p - (numeral (digs false) 8 value.natAbs).length).toNat = 0 := by omega
    have hall : ∀ d < 8, d ≠ 0 → digs false d ≠ ch '0' := by decide
    rw [hnil, List.replicate_zero, List.nil_append, hhead] at h
    exact hall d hlt hd (Option.some.inj h)
  · intro h
    obtain ⟨k, hk⟩ : ∃ k, (p - (numeral (digs false) 8 value.natAbs).length).toNat = k + 1 :=
      Nat.exists_eq_succ_of_ne_zero (by omega)
    rw [hk]
    rfl

theorem isoMinDigits_zero (p : ℤ) : isoMinDigits p .o 0 =
    if p = 0 then [] else List.replicate ((p - 1).toNat + 1) (ch '0') := by
  have hnum : isoNumeral p .o 0 = if p = 0 then [] else [ch '0'] := by
    unfold isoNumeral
    simp only [true_and]
    rfl
  rw [isoMinDigits_eq, hnum]
  split_ifs with hp
  · rw [hp]
    rfl
  · exact List.replicate_succ'.symm

/-- Where the code agrees, the zero it takes for a prefix is the digit of the standard. -/
theorem octal_parts {f : Fmt} (hf : f.flags = fl) (h : OctalAgrees fl p c value) :
    (prefixText f value.natAbs c.base c.upper = isoPrefix fl c value ∧
        isoDigits fl p c value = isoMinDigits p c value) ∨
      (prefixText f value.natAbs c.base c.upper = [ch '0'] ∧ isoPrefix fl c value = [] ∧
        isoDigits fl p c value = ch '0' :: isoMinDigits p c value) := by
  rw [prefixText_eq f hf]
  by_cases hoct : c = .o ∧ fl.alt
  · obtain ⟨rfl, halt⟩ := hoct
    have hok := h rfl halt
    have hpre : isoPrefix fl .o value = [] := by
      unfold isoPrefix
      split_ifs <;> rfl
    unfold isoDigits
    by_cases hv : value = 0
    · rw [if_pos hv] at hok
      left
      subst hv
      refine ⟨if_neg fun h => h.2.2 rfl, if_neg ?_⟩
      rw [isoMinDigits_zero, if_neg hok]
      simp [List.replicate_succ]
    · rw [if_neg hv] at hok
      right
      refine ⟨if_pos ⟨rfl, halt, hv⟩, hpre, if_pos ⟨rfl, halt, ?_⟩⟩
      rw [Ne, isoMinDigits_head hv]
      omega
  · left
    exact ⟨if_neg fun h => hoct ⟨h.1, h.2.1⟩, if_neg fun h => hoct ⟨h.1, h.2.1⟩⟩

/-- Where it does not, the two have another number of digits. -/
theorem octal_length {f : Fmt} (hf : f.flags = fl) (h : ¬ OctalAgrees fl p c value) :
    0 ≤ p ∧ (prefixText f value.natAbs c.base c.upper ++ isoMinDigits p c value).length ≠
      (isoPrefix fl c value ++ isoDigits fl p c value).length := by
  unfold OctalAgrees at h
  push Not at h
  obtain ⟨rfl, halt, hno⟩ := h
  have hpre : isoPrefix fl .o value = [] := by
    unfold isoPrefix
    split_ifs <;> rfl
  rw [prefixText_eq f hf, hpre]
  unfold isoDigits
  by_cases hv : value = 0
  · subst hv
    obtain rfl : p = 0 := by simpa using hno
    rw [isoMinDigits_zero]
    simp [halt]
  · have hlt : (numeral (digs false) 8 value.natAbs).length < p := by simpa [hv] using hno
    have hhead := (isoMinDigits_head hv).mpr hlt
    refine ⟨by omega, ?_⟩
    rw [if_pos ⟨rfl, halt, hv⟩, if_neg fun h => h.2.2 hhead]
    simp

/-! ## The texts -/

/-- A zero may be counted to the head or to the body. -/
theorem layout_zero_moves (left fill : Bool) (w : ℤ) (head body : List UInt8) :
    layout left fill w (head ++ [ch '0']) body = layout left fill w head (ch '0' :: body) := by
  have hlen : (head ++ [ch '0'] ++ body).length = (head ++ ch '0' :: body).length := by simp
  have hcomm : ∀ k, [ch '0'] ++ List.replicate k (ch '0') = List.replicate k (ch '0') ++ [ch '0'] := by
    intro k
    rw [← List.replicate_succ', List.singleton_append, ← List.replicate_succ]
  unfold layout
  dsimp only
  rw [hlen]
  split_ifs
  · simp
  · rw [List.append_assoc head, hcomm]
    simp
  · simp

theorem isoText_eq (hw : w < 2 ^ 31)
    (hlen : ((isoSign fl c value ++ isoPrefix fl c value) ++ isoDigits fl p c value).length < 2 ^ 31) :
    isoText fl w p c value = layout fl.left (fl.zero ∧ p < 0) w
      (isoSign fl c value ++ isoPrefix fl c value) (isoDigits fl p c value) := by
  unfold isoText layout
  dsimp only
  rw [room_toNat hw hlen]
  simp only [decide_eq_true_eq]

theorem mem_layout {left fill : Bool} {head body : List UInt8} {x : UInt8}
    (h : x ∈ layout left fill w head body) : x = ch ' ' ∨ x = ch '0' ∨ x ∈ head ++ body := by
  have hspace : ∀ k, x ∈ List.replicate k (ch ' ') → x = ch ' ' := fun _ => List.eq_of_mem_replicate
  have hzero : ∀ k, x ∈ List.replicate k (ch '0') → x = ch '0' := fun _ => List.eq_of_mem_replicate
  unfold layout at h
  dsimp only at h
  split_ifs at h <;> grind

/-- The characters that are no spaces. -/
theorem filter_layout {left : Bool} {head body : List UInt8} :
    (layout left false w head body).filter (· ≠ ch ' ') = (head ++ body).filter (· ≠ ch ' ') := by
  cases left <;> simp [layout]

theorem filter_core {s : List UInt8} (h : ∀ x ∈ s, IsCore x) : s.filter (· ≠ ch ' ') = s :=
  List.filter_eq_self.mpr fun x hx => by simpa using (h x hx).1

/-- A space before the head is the first space of the field, or the field is empty. -/
theorem layout_space_iff {left fill : Bool} {head body : List UInt8} (hw : w < 2 ^ 31)
    (hlen : (head ++ body).length + 1 < 2 ^ 31) (hcore : ∀ x ∈ head ++ body, IsCore x)
    (hfill : fill = true → body ≠ []) :
    layout left fill w (ch ' ' :: head) body = layout left fill w head body ↔
      (head ++ body).length < w ∧ ((head ++ body).length = 0 ∨ left = false ∧ fill = false) := by
  have hcons : (ch ' ' :: head ++ body).length = (head ++ body).length + 1 := rfl
  have hroom := room_toNat hw (show (head ++ body).length < 2 ^ 31 by omega)
  have hroom' := room_toNat hw hlen
  -- as many spaces as before, counting the new one
  have hgap : (head ++ body).length < w ↔
      (w - ((head ++ body).length + 1 : ℕ)).toNat + 1 = (w - (head ++ body).length).toNat := by
    omega
  unfold layout
  dsimp only
  rw [hcons, hroom, hroom']
  cases left with
  | true =>
    simp only [if_true, List.cons_append]
    cases hC : head ++ body with
    | nil =>
      rw [hC] at hgap
      simp only [List.nil_append, List.length_nil, true_or, and_true] at hgap ⊢
      rw [hgap, ← List.replicate_succ, List.replicate_inj]
      simp
    | cons x C =>
      have hx := (hcore x (by rw [hC]; exact List.mem_cons_self)).1
      simp [hx.symm]
  | false =>
    cases fill with
    | true =>
      have hne := hfill rfl
      simp only [Bool.false_eq_true, if_false, if_true, and_false, or_false, Bool.true_eq_false]
      constructor
      · intro h
        -- the other side has no space at all
        have hmem : ch ' ' ∈ head ++ List.replicate (w - (head ++ body).length).toNat (ch '0') ++
            body := by
          rw [← h]
          simp
        simp only [List.mem_append] at hmem hcore
        obtain (hmem | hmem) | hmem := hmem
        · exact absurd rfl (hcore _ (.inl hmem)).1
        · exact absurd (List.eq_of_mem_replicate hmem) (by decide)
        · exact absurd rfl (hcore _ (.inr hmem)).1
      · intro h
        exact absurd (List.append_eq_nil_iff.mp (List.length_eq_zero_iff.mp h.2)).2 hne
    | false =>
      simp only [Bool.false_eq_true, if_false, and_self, or_true, and_true]
      rw [hgap]
      constructor
      · intro h
        have := congrArg List.length h
        simp only [List.length_append, List.length_replicate, List.length_cons] at this ⊢
        omega
      · intro h
        rw [← h, List.replicate_succ', List.append_assoc]
        rfl

theorem isoMinDigits_length (hv : value.natAbs < u64) (hp : p < 2 ^ 31 - 80) :
    (isoMinDigits p c value).length < 2 ^ 31 - 80 := by
  have hbounds := c.isBase.bounds
  have hnum : (isoNumeral p c value).length ≤ 22 := by
    unfold isoNumeral
    split_ifs
    · simp
    · exact length_numeral_le _ (by omega) (by omega) (c.isBase.lt_pow hv)
  rw [isoMinDigits_eq, List.length_append, List.length_replicate]
  omega

theorem isoDigits_length (hv : value.natAbs < u64) (hp : p < 2 ^ 31 - 80) :
    (isoDigits fl p c value).length < 2 ^ 31 - 79 := by
  have hmin : (isoMinDigits p c value).length < 2 ^ 31 - 80 := isoMinDigits_length hv hp
  unfold isoDigits
  dsimp only
  split_ifs
  · rw [List.length_cons]
    omega
  · omega

theorem isoPrefix_length : (isoPrefix fl c value).length ≤ 2 := by
  unfold isoPrefix
  split_ifs
  · cases c <;> simp
  · simp

theorem isoSign_length : (isoSign fl c value).length ≤ 1 := by
  unfold isoSign
  split_ifs <;> simp

/-- Without a precision there is a digit. -/
theorem isoDigits_ne_nil (hp : p < 0) : isoDigits fl p c value ≠ [] := by
  have hnum : isoNumeral p c value ≠ [] := by
    rw [isoNumeral, if_neg (by omega)]
    exact numeral_ne_nil _ _ _
  have hmin : isoMinDigits p c value ≠ [] := by
    rw [isoMinDigits_eq]
    simp [hnum]
  unfold isoDigits
  dsimp only
  split_ifs
  · simp
  · exact hmin

/-- The text that the code gives to an integer. -/
def codeText (fl : Flags) (w p : ℤ) (c : IntConv) (value : ℤ) (f : Fmt) : List UInt8 :=
  layout fl.left (fl.zero ∧ p < 0) w (intHead f value.natAbs (value < 0) c.base c.upper)
    (isoMinDigits p c value)

variable {f : Fmt}

theorem signed_text (hf : f.flags = fl) (hc : c.signed = true) (hw : w < 2 ^ 31)
    (hlen : ((isoSign fl c value ++ isoPrefix fl c value) ++ isoDigits fl p c value).length < 2 ^ 31) :
    codeText fl w p c value f = isoText fl w p c value := by
  have hno : c ≠ .o := by
    rintro rfl
    cases hc
  have hsign : signText f (value < 0) = isoSign fl c value := by
    unfold signText signCh isoSign
    rw [hf, if_pos hc]
    simp only [decide_eq_true_eq]
    split_ifs <;> first | rfl | contradiction
  rw [isoText_eq hw hlen, codeText, intHead, hsign, prefixText_eq f hf, if_neg fun h => hno h.1]
  unfold isoDigits
  dsimp only
  rw [if_neg fun h => hno h.1]

/-- A plus sign is not meant for an unsigned conversion. -/
theorem unsigned_plus (hf : f.flags = fl) (hc : c.signed = false) (hv : 0 ≤ value)
    (hplus : fl.sign = true) (hw : w < 2 ^ 31)
    (hlen : ((isoSign fl c value ++ isoPrefix fl c value) ++ isoDigits fl p c value).length < 2 ^ 31) :
    codeText fl w p c value f ≠ isoText fl w p c value := by
  have hsign : signText f (value < 0) = [ch '+'] := by
    have hneg : decide (value < 0) = false := by simpa using hv
    unfold signText signCh
    rw [hf, hneg, hplus]
    rfl
  have hiso : isoSign fl c value = [] := by
    rw [isoSign, if_neg (by simp [hc])]
  intro h
  have hmem : ch '+' ∈ codeText fl w p c value f := by
    rw [codeText, intHead, hsign]
    unfold layout
    split_ifs <;> simp
  rw [h, isoText_eq hw hlen, hiso, List.nil_append] at hmem
  obtain hx | hx | hx := mem_layout hmem
  · exact absurd hx (by decide)
  · exact absurd hx (by decide)
  · exact (core_isCore _ hx).2 rfl

/-- An unsigned conversion without a plus sign: the space flag and the zero of `#` decide. -/
theorem unsigned_text_iff (hf : f.flags = fl) (hc : c.signed = false) (hv : 0 ≤ value)
    (hplus : fl.sign = false) (hw : w < 2 ^ 31)
    (hlen : (isoPrefix fl c value ++ isoDigits fl p c value).length + 1 < 2 ^ 31) :
    codeText fl w p c value f = isoText fl w p c value ↔
      (fl.sp = true → SpaceHidden fl w p c value) ∧ OctalAgrees fl p c value := by
  have hsign : signText f (value < 0) = if fl.sp then [ch ' '] else [] := by
    have hneg : decide (value < 0) = false := by simpa using hv
    unfold signText signCh
    rw [hf, hneg, hplus]
    cases fl.sp <;> rfl
  have hiso : isoSign fl c value = [] := by
    rw [isoSign, if_neg (by simp [hc])]
  have hcode : codeText fl w p c value f = layout fl.left (fl.zero ∧ p < 0) w
      ((if fl.sp then [ch ' '] else []) ++ prefixText f value.natAbs c.base c.upper)
      (isoMinDigits p c value) := by
    rw [codeText, intHead, hsign]
  rw [hcode, isoText_eq hw (by rw [hiso, List.nil_append]; omega), hiso, List.nil_append]
  by_cases hoct : OctalAgrees fl p c value
  · -- the parts are those of the standard, up to the place of a zero
    have hparts : layout fl.left (fl.zero ∧ p < 0) w
        ((if fl.sp then [ch ' '] else []) ++ prefixText f value.natAbs c.base c.upper)
        (isoMinDigits p c value) = layout fl.left (fl.zero ∧ p < 0) w
        ((if fl.sp then [ch ' '] else []) ++ isoPrefix fl c value) (isoDigits fl p c value) := by
      obtain ⟨hpre, hdig⟩ | ⟨hpre, hpre', hdig⟩ := octal_parts hf hoct
      · rw [hpre, hdig]
      · rw [hpre, hpre', hdig, List.append_nil]
        exact layout_zero_moves _ _ _ _ _
    rw [hparts, and_iff_left hoct]
    split_ifs with hsp
    · rw [forall_prop_of_true hsp]
      refine (layout_space_iff hw hlen core_isCore fun h => isoDigits_ne_nil ?_).trans ?_
      · exact (of_decide_eq_true h).2
      · rw [SpaceHidden, isoLength, decide_eq_false_iff_not]
    · simp [hsp]
  · obtain ⟨hp, hne⟩ := octal_length hf hoct
    have hfill : decide (fl.zero = true ∧ p < 0) = false := by
      simp
      omega
    rw [hfill]
    simp only [hoct, and_false, iff_false]
    intro h
    -- without the spaces the two have another length
    have hfilter := congrArg (List.filter (· ≠ ch ' ')) h
    have hspace : (if fl.sp then [ch ' '] else []).filter (· ≠ ch ' ') = [] := by
      cases fl.sp <;> simp
    rw [filter_layout, filter_layout, filter_core core_isCore, List.append_assoc,
      List.filter_append, hspace, List.nil_append, filter_core (emitted_isCore hf)] at hfilter
    exact hne (congrArg List.length hfilter)

theorem iso_length (hv : value.natAbs < u64) (hp : p < 2 ^ 31 - 80) :
    ((isoSign fl c value ++ isoPrefix fl c value) ++ isoDigits fl p c value).length <
      2 ^ 31 - 1 := by
  have hdigits : (isoDigits fl p c value).length < 2 ^ 31 - 79 := isoDigits_length hv hp
  have hpre : (isoPrefix fl c value).length ≤ 2 := isoPrefix_length
  have hsign : (isoSign fl c value).length ≤ 1 := isoSign_length
  simp only [List.length_append]
  omega

theorem code_length (f : Fmt) (neg : Bool) (hv : value.natAbs < u64) (hp : p < 2 ^ 31 - 80) :
    (intHead f value.natAbs neg c.base c.upper ++ isoMinDigits p c value).length < 2 ^ 31 := by
  have hdigits : (isoMinDigits p c value).length < 2 ^ 31 - 80 := isoMinDigits_length hv hp
  have hpre := length_prefixText_le f value.natAbs c.base c.upper
  have hsign := length_signText_le f neg
  simp only [intHead, List.length_append]
  omega

theorem text_iff (hf : f.flags = fl) (hv : c.signed = false → 0 ≤ value)
    (habs : value.natAbs < u64) (hw : w < 2 ^ 31) (hp : p < 2 ^ 31 - 80) :
    codeText fl w p c value f = isoText fl w p c value ↔ IsoAgrees fl w p c value := by
  have hlen : ((isoSign fl c value ++ isoPrefix fl c value) ++ isoDigits fl p c value).length <
      2 ^ 31 - 1 := iso_length habs hp
  unfold IsoAgrees
  cases hc : c.signed with
  | true => simpa using signed_text hf hc hw (by omega)
  | false =>
    simp only [Bool.false_eq_true, false_or]
    cases hplus : fl.sign with
    | true => simpa using unsigned_plus hf hc (hv hc) hplus hw (by omega)
    | false =>
      simp only [true_and]
      apply unsigned_text_iff hf hc (hv hc) hplus hw
      rw [List.append_assoc, List.length_append] at hlen
      omega

end

/-! ## Directives -/

section
variable {δ : Type}

/-- A text is determined by what it leaves in a large buffer. -/
theorem putAll_injective {cs cs' : List UInt8} (h : cs.length < u64) (h' : cs'.length < u64)
    (heq : ∀ o : Out, o.putAll cs = o.putAll cs') : cs = cs' := by
  have ho := heq ⟨fun _ => 0, u64, 0⟩
  have hz : (⟨fun _ => 0, u64, 0⟩ : Out).len < u64 := by decide
  have hlen := congrArg Out.len ho
  rw [Out.putAll_len hz, Out.putAll_len hz] at hlen
  simp only [Nat.zero_add, Nat.mod_eq_of_lt h, Nat.mod_eq_of_lt h'] at hlen
  apply List.ext_getElem hlen
  intro i hi hi'
  have hbuf := congrArg (fun o => o.buf i) ho
  rw [Out.putAll_buf rfl h.le hi (hi.trans h), Out.putAll_buf rfl h'.le hi' (hi'.trans h')] at hbuf
  simpa [hi, hi'] using hbuf

theorem Directive.Emits.unique {d : Directive} {float : Fmt → δ → List UInt8}
    {args : List (Arg δ)} {cs cs' : List UInt8} (h : d.Emits float args cs)
    (h' : d.Emits float args cs') (hlen : cs.length < u64) (hlen' : cs'.length < u64) : cs = cs' := by
  apply putAll_injective hlen hlen'
  intro o
  have hrun := (h 1 0 [] o [] []).symm.trans (h' 1 0 [] o [] [])
  have hend : ∀ o : Out, formatLoop float 1 ⟨d.type, []⟩ ⟨o, [], []⟩ = .ok ⟨o, [], []⟩ := fun _ => rfl
  rw [hend, hend] at hrun
  exact congrArg Run.out (Except.ok.inj hrun)

theorem IntConv.convOf_type (c : IntConv) :
    convOf c.type = if c.signed then .signed else .unsigned c.base c.upper := by
  cases c <;> rfl

theorem IntConv.signed_base {c : IntConv} (h : c.signed = true) : c.base = 10 ∧ c.upper = false := by
  cases c with
  | d => exact ⟨rfl, rfl⟩
  | i => exact ⟨rfl, rfl⟩
  | _ => cases h

theorem IntConv.value_nonneg {c : IntConv} (h : c.signed = false) (len : LenCode) (v : ℕ) :
    0 ≤ c.value len v := by
  rw [IntConv.value, if_neg (by simp [h])]
  omega

theorem IntConv.natAbs_value_lt (c : IntConv) (len : LenCode) (v : ℕ) :
    (c.value len v).natAbs < u64 := by
  unfold IntConv.value
  split_ifs
  · exact signed_natAbs_lt v len
  · rw [Int.natAbs_natCast]
    exact unsigned_lt v len

/-- The code's text of an integer conversion. -/
theorem layout_codeText {f : Fmt} {c : IntConv} (hc : f.type = c.type) (v : ℕ) :
    layout f.flags.left f.fills f.width (headText f (.word v : Arg δ)) (bodyText f (.word v : Arg δ)) =
      codeText f.flags f.width f.prec c (c.value f.len v) f := by
  have hconv := c.convOf_type
  rw [← hc] at hconv
  rw [codeText, ← intBody_eq f rfl]
  unfold Fmt.fills headText bodyText IntConv.value
  cases hs : c.signed with
  | true =>
    obtain ⟨hbase, hupper⟩ := IntConv.signed_base hs
    rw [hs, if_pos rfl] at hconv
    rw [hconv, hbase, hupper]
    simp only [if_true]
  | false =>
    rw [hs, if_neg (by simp)] at hconv
    rw [hconv]
    simp only [Bool.false_eq_true, if_false, Int.natAbs_natCast]
    have hneg : decide (((v % 2 ^ f.len.bits : ℕ) : ℤ) < 0) = false := by
      simp
      omega
    rw [hneg]

theorem Directive.emits_codeText {d : Directive} (hd : d.Fits) (float : Fmt → δ → List UInt8)
    {c : IntConv} (hc : d.type = c.type) {w p : ℤ} (hw : d.width.literal = some w)
    (hp : d.prec.literal = some p) (hlo : -2 ^ 31 < w) (hhi : w < 2 ^ 31) (v : ℕ) :
    d.Emits float [.word v] (codeText (flagsOf d.flags) w p c (c.value d.len v)
      ⟨flagsOf d.flags, w, p, d.len, d.type⟩) := by
  have harg : ArgFor d.type (.word v : Arg δ) := by
    rw [hc]
    cases c <;> trivial
  have hlayout := layout_codeText (δ := δ) (f := ⟨flagsOf d.flags, w, p, d.len, d.type⟩) hc v
  rw [← hlayout]
  apply Directive.emits hlo hhi hd.type.nonzero harg
  intro rest ap
  exact parseSpec_literal hd hw hp rest (.word v :: ap)

theorem WidthSpec.literal_bound {w : WidthSpec} {v : ℤ} (h : w.literal = some v) : -1 ≤ v := by
  cases w with
  | star => cases h
  | none =>
    obtain rfl := Option.some.inj h
    exact le_rfl
  | lit n =>
    obtain rfl := Option.some.inj h
    omega

theorem length_layout_le {w : ℤ} (left fill : Bool) (head body : List UInt8) (hw : w < 2 ^ 31)
    (hlen : (head ++ body).length < 2 ^ 31) :
    (layout left fill w head body).length < 2 ^ 32 := by
  have hroom := room_toNat hw hlen
  unfold layout
  dsimp only
  rw [hroom]
  rw [List.length_append] at hlen
  split_ifs <;> simp only [List.length_append, List.length_replicate] <;> omega

/-- An integer directive puts out what the standard prescribes just when its flags are
meant for its conversion, or go unnoticed. -/
theorem iso_integers_iff (float : Fmt → δ → List UInt8) {d : Directive} (hd : d.Fits)
    {c : IntConv} (hc : d.type = c.type) {w p : ℤ} (hw : d.width.literal = some w)
    (hp : d.prec.literal = some p) (hw' : w < 2 ^ 31 - 80) (hp' : p < 2 ^ 31 - 80) (v : ℕ) :
    d.Emits float [.word v] (isoText (flagsOf d.flags) w p c (c.value d.len v)) ↔
      IsoAgrees (flagsOf d.flags) w p c (c.value d.len v) := by
  have hlo := WidthSpec.literal_bound hw
  have habs := c.natAbs_value_lt d.len v
  have hcode := Directive.emits_codeText hd float hc hw hp (by omega) (by omega) v
  have hiff := text_iff (w := w) (p := p)
    (show (⟨flagsOf d.flags, w, p, d.len, d.type⟩ : Fmt).flags = flagsOf d.flags from rfl)
    (fun h => IntConv.value_nonneg h d.len v) habs (by omega) hp'
  rw [← hiff]
  constructor
  · intro h
    have h32 : 2 ^ 32 < u64 := by decide
    apply hcode.unique h
    · exact (length_layout_le _ _ _ _ (by omega) (code_length _ _ habs hp')).trans h32
    · rw [isoText_eq (by omega) (iso_length habs hp' |>.trans (by decide))]
      exact (length_layout_le _ _ _ _ (by omega)
        (iso_length habs hp' |>.trans (by decide))).trans h32
  · intro h
    rw [← h]
    exact hcode

/-- `%#6llx` of 255. -/
theorem iso_integers_ff :
    (⟨[.alt], .lit 6, .none, .ll, ch 'x'⟩ : Directive).Emits (fun _ (_ : Unit) => []) [.word 255]
        (isoText (flagsOf [.alt]) 6 (-1) .x (IntConv.x.value .ll 255)) ↔
      IsoAgrees (flagsOf [.alt]) 6 (-1) .x (IntConv.x.value .ll 255) :=
  iso_integers_iff (fun _ (_ : Unit) => []) (d := ⟨[.alt], .lit 6, .none, .ll, ch 'x'⟩)
    ⟨⟨by decide, by decide⟩, trivial, ⟨by decide, by decide, by decide, by decide, by decide,
      by decide⟩⟩ (c := .x) rfl rfl rfl (by decide) (by decide) 255

/-- `%+u` of 5 begins with a sign, `% u` with a space, and `%#.3o` of 1 has four digits. -/
theorem iso_integers_differ :
    ((vsnprintf (fun _ (_ : Unit) => []) (fun _ => 0) 16 ("%+u".toList.map ch)
        [.word 5]).toOption.map (fun r => (r.buf 0, r.buf 1)) = some (ch '+', ch '5') ∧
      isoText { sign := true } (-1) (-1) .u 5 = [ch '5']) ∧
    ((vsnprintf (fun _ (_ : Unit) => []) (fun _ => 0) 16 ("% u".toList.map ch)
        [.word 5]).toOption.map (fun r => (r.buf 0, r.buf 1)) = some (ch ' ', ch '5') ∧
      isoText { sp := true } (-1) (-1) .u 5 = [ch '5']) ∧
    ((vsnprintf (fun _ (_ : Unit) => []) (fun _ => 0) 16 ("%#.3o".toList.map ch)
        [.word 1]).toOption.map Printed.ret = some 4 ∧
      isoText { alt := true } (-1) 3 .o 1 = [ch '0', ch '0', ch '1']) := by
  decide +kernel

end

end JanusRT.Snprintf
