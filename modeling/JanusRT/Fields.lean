import JanusRT.Rendering

/-!
# Fields

Every conversion of a character, a string, an integer or a pointer is a text in a field:
a head, which is the sign and the prefix of a number, and a body. Spaces fill the field
on one side, or zeros fill it between head and body.
-/
namespace JanusRT.Snprintf

open Outcome Numeral

/-- Head and body in a field. -/
def layout (left fill : Bool) (width : ℤ) (head body : List UInt8) : List UInt8 :=
  let len := (head ++ body).length
  if left then head ++ body ++ List.replicate (room width len).toNat (ch ' ')
  else if fill then head ++ List.replicate (width - len).toNat (ch '0') ++ body
  else List.replicate (room width len).toNat (ch ' ') ++ (head ++ body)

theorem layout_nil (left : Bool) (width : ℤ) (s : List UInt8) :
    layout left false width [] s = fieldText left (room width s.length).toNat s := by
  cases left <;> rfl

/-! ## Integers -/

/-- The sign and the prefix of an integer. -/
def intHead (f : Fmt) (uval : ℕ) (neg : Bool) (base : ℕ) (upper : Bool) : List UInt8 :=
  signText f neg ++ prefixText f uval base upper

/-- The digits of an integer, with the zeros that its precision asks for. -/
def intBody (f : Fmt) (uval base : ℕ) (upper : Bool) : List UInt8 :=
  List.replicate (f.prec - (digitText f uval base upper).length).toNat (ch '0') ++
    digitText f uval base upper

theorem length_intHead_append (f : Fmt) (uval : ℕ) (neg : Bool) (base : ℕ) (upper : Bool) :
    (intHead f uval neg base upper ++ intBody f uval base upper).length =
      fixedLen f uval neg base upper + (f.prec - (digitText f uval base upper).length).toNat := by
  simp only [intHead, intBody, fixedLen, List.length_append, List.length_replicate]
  omega

/-- A precision overrides the zeros anyway. -/
theorem intParts_dropZero (f : Fmt) (uval : ℕ) (neg : Bool) (base : ℕ) (upper : Bool) :
    intParts f.dropZero uval neg base upper = intParts f uval neg base upper := by
  unfold Fmt.dropZero
  split_ifs with h
  · have hzeros : ∀ ndig fixed, zeroCount { f with flags := { f.flags with zero := false } } ndig fixed =
        zeroCount f ndig fixed := by
      intro ndig fixed
      rw [zeroCount, zeroCount, if_pos h, if_pos h]
    unfold intParts
    simp only [hzeros]
    rfl
  · rfl

/-- Without zeros to fill the field there are only those of the precision. -/
theorem zeroCount_unfilled {f : Fmt} (h : ¬ (f.flags.zero ∧ ¬ f.flags.left ∧ f.prec < 0))
    (ndig fixed : ℕ) : zeroCount f ndig fixed = (f.prec - ndig).toNat := by
  obtain ⟨hz, hl, hp, -⟩ | ⟨-, hsum⟩ := zeroCount_spec f ndig fixed
  · exact absurd ⟨hz, hl, hp⟩ h
  · omega

/-- The output of `emit_int` is an integer in its field. -/
theorem intParts_text {f : Fmt} {uval base : ℕ} (hb : IsBase base) (hv : uval < u64)
    (hw : f.width < 2 ^ 31) (neg upper : Bool) :
    (intParts f uval neg base upper).text =
      layout f.flags.left (f.flags.zero ∧ f.prec < 0) f.width (intHead f uval neg base upper)
        (intBody f uval base upper) := by
  have hlen := length_intHead_append f uval neg base upper
  unfold layout
  dsimp only
  rw [hlen]
  unfold IntParts.text intParts
  dsimp only
  by_cases hleft : f.flags.left
  · rw [zeroCount_unfilled (by simp [hleft])]
    simp [hleft, intHead, intBody]
  · by_cases hfill : f.flags.zero ∧ f.prec < 0
    · -- the zeros leave no space for spaces
      have hfixed := fixedLen_le f hb hv neg upper
      have hcount : zeroCount f (digitText f uval base upper).length
          (fixedLen f uval neg base upper) = (f.width - fixedLen f uval neg base upper).toNat := by
        rw [zeroCount, if_neg (by omega), if_pos ⟨hfill.1, hleft⟩]
      have hprec : (f.prec - (digitText f uval base upper).length).toNat = 0 := by omega
      have hroom : (room f.width (fixedLen f uval neg base upper +
          (f.width - fixedLen f uval neg base upper).toNat)).toNat = 0 := by
        rw [room_toNat hw (by omega)]
        omega
      rw [hcount, hroom]
      simp [hleft, hfill, hprec, intHead, intBody]
    · rw [zeroCount_unfilled fun h => hfill ⟨h.1, h.2.2⟩]
      simp [hleft, hfill, intHead, intBody]

/-! ## All conversions with a field -/

section
variable {δ : Type}

/-- The record that `%p` calls `emit_int` with. -/
def Fmt.pointer (f : Fmt) : Fmt :=
  { f with flags := { f.flags with alt := true, sign := false, sp := false }, prec := 16 }

/-- The argument is one that the type asks for, and the type is that of a character, a
string, an integer or a pointer. -/
def ArgFor (type : UInt8) (a : Arg δ) : Prop :=
  match convOf type, a with
  | .str, .str _ => True
  | .char, .word _ | .signed, .word _ | .unsigned _ _, .word _ | .pointer, .word _ => True
  | _, _ => False

/-- The sign and the prefix of what an argument is converted to. -/
def headText (f : Fmt) (a : Arg δ) : List UInt8 :=
  match convOf f.type, a with
  | .signed, .word v =>
    intHead f ((v : ℤ).bmod (2 ^ f.len.bits)).natAbs ((v : ℤ).bmod (2 ^ f.len.bits) < 0) 10 false
  | .unsigned base upper, .word v => intHead f (v % 2 ^ f.len.bits) false base upper
  | .pointer, .word v => intHead f.pointer (v % u64) false 16 false
  | _, _ => []

/-- The rest of what an argument is converted to. -/
def bodyText (f : Fmt) (a : Arg δ) : List UInt8 :=
  match convOf f.type, a with
  | .char, .word v => [v.toUInt8]
  | .str, .str s => shownText f s
  | .signed, .word v => intBody f ((v : ℤ).bmod (2 ^ f.len.bits)).natAbs 10 false
  | .unsigned base upper, .word v => intBody f (v % 2 ^ f.len.bits) base upper
  | .pointer, .word v => intBody f.pointer (v % u64) 16 false
  | _, _ => []

/-- Zeros fill the field of an integer without precision. -/
def Fmt.fills (f : Fmt) : Bool :=
  match convOf f.type with
  | .signed | .unsigned _ _ => f.flags.zero ∧ f.prec < 0
  | _ => false

theorem signed_natAbs_lt (v : ℕ) (len : LenCode) : ((v : ℤ).bmod (2 ^ len.bits)).natAbs < u64 := by
  obtain ⟨hlo, hhi⟩ := signed_bounds v len
  exact (magnitude_eq hlo hhi).2

theorem unsigned_lt (v : ℕ) (len : LenCode) : v % 2 ^ len.bits < u64 :=
  (Nat.mod_lt _ (Nat.two_pow_pos _)).trans_le len.bits_le

/-- The text of such a conversion is its head and body in their field. -/
theorem convText_layout (float : Fmt → δ → List UInt8) {f : Fmt} {a : Arg δ}
    (ha : ArgFor f.type a) (hlo : -2 ^ 31 < f.width) (hhi : f.width < 2 ^ 31)
    (ap : List (Arg δ)) :
    convText float f (a :: ap) =
      .ok (layout f.flags.left f.fills f.width (headText f a) (bodyText f a), ap) := by
  unfold convText Fmt.fills headText bodyText
  unfold ArgFor at ha
  cases hconv : convOf f.type with
  | percent => simp [hconv] at ha
  | count => simp [hconv] at ha
  | float => simp [hconv] at ha
  | unknown => simp [hconv] at ha
  | char =>
    cases a with
    | word v =>
      have hroom : (room f.width [v.toUInt8].length).toNat =
          (if 1 < f.width then f.width - 1 else 0).toNat := by
        rw [List.length_singleton, room_toNat hhi (by decide)]
        split_ifs <;> omega
      rw [layout_nil, hroom]
      rfl
    | _ => simp [hconv] at ha
  | str =>
    cases a with
    | str s =>
      rw [layout_nil]
      rfl
    | _ => simp [hconv] at ha
  | signed =>
    cases a with
    | word v =>
      rw [getIntArg_eq]
      simp only [vaWord, ok_bind, pure_bind, intParts_dropZero]
      rw [intParts_text (.inr (.inl rfl)) (signed_natAbs_lt v f.len) hhi]
      rfl
    | _ => simp [hconv] at ha
  | unsigned base upper =>
    have hbase := convOf_hasBase f.type
    rw [hconv] at hbase
    cases a with
    | word v =>
      rw [getUintArg_eq]
      simp only [vaWord, ok_bind, pure_bind, intParts_dropZero]
      rw [intParts_text hbase (unsigned_lt v f.len) hhi]
      rfl
    | _ => simp [hconv] at ha
  | pointer =>
    cases a with
    | word v =>
      have hfill : decide (f.pointer.flags.zero = true ∧ f.pointer.prec < 0) = false := by
        simp [Fmt.pointer]
      have htext := intParts_text (f := f.pointer) (.inr (.inr rfl))
        (Nat.mod_lt v (by decide : 0 < u64)) hhi false false
      rw [hfill] at htext
      simp only [vaWord, ok_bind]
      exact congrArg (fun s => Except.ok (s, ap)) htext
    | _ => simp [hconv] at ha

/-- The directive takes its arguments and puts `cs` out, wherever it stands in a format. -/
def Directive.Emits (d : Directive) (float : Fmt → δ → List UInt8) (args : List (Arg δ))
    (cs : List UInt8) : Prop :=
  ∀ fuel last rest o ap st,
    formatLoop float (fuel + 1) ⟨last, ch '%' :: (d.text ++ rest)⟩ ⟨o, args ++ ap, st⟩ =
      formatLoop float fuel ⟨d.type, rest⟩ ⟨o.putAll cs, ap, st⟩

theorem Directive.emits {d : Directive} {float : Fmt → δ → List UInt8} {f : Fmt}
    {args : List (Arg δ)} {a : Arg δ} (hlo : -2 ^ 31 < f.width) (hhi : f.width < 2 ^ 31)
    (htype : f.type ≠ 0) (ha : ArgFor f.type a)
    (hparse : ∀ rest ap, parseSpec ⟨ch '%', d.text ++ rest⟩ (args ++ ap) =
      .ok (f, ⟨d.type, rest⟩, a :: ap)) :
    d.Emits float args (layout f.flags.left f.fills f.width (headText f a) (bodyText f a)) := by
  intro fuel last rest o ap st
  have hnext : (⟨last, ch '%' :: (d.text ++ rest)⟩ : Cursor).next = ⟨ch '%', d.text ++ rest⟩ := rfl
  have hpeek : (⟨last, ch '%' :: (d.text ++ rest)⟩ : Cursor).peek = ch '%' := rfl
  have hrender := convert_renders float f ⟨o, a :: ap, st⟩
  rw [convText_layout float ha hlo hhi] at hrender
  obtain ⟨st', hrun, hst⟩ := hrender
  have hcount : decide (convOf f.type = .count) = false := by
    apply decide_eq_false
    intro h
    simp [ArgFor, h] at ha
  obtain rfl := hst hcount
  rw [formatLoop, hpeek, if_neg (by decide), if_neg (by simp), hnext, hparse]
  simp only [ok_bind, if_neg htype]
  rw [hrun]
  rfl

end

end JanusRT.Snprintf
