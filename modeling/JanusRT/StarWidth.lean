import JanusRT.Fields

/-!
# Widths from arguments

A width `*` against the same width written out. The comment in `vsnprintf` has a negative
argument mean the flag `-`, but `parse_width_prec` has already dropped the sign when its
caller looks for it, so the flag is never set and the field is filled on the left.
-/
namespace JanusRT.Snprintf

open Outcome Numeral

/-- A run of one letter commutes with a word that has no other letter. -/
theorem replicate_append_comm_iff {α : Type} {k : ℕ} {a : α} {l : List α} :
    List.replicate k a ++ l = l ++ List.replicate k a ↔ k = 0 ∨ ∀ c ∈ l, c = a := by
  constructor
  · intro h
    by_cases hk : k = 0
    · exact .inl hk
    right
    -- the letter at `i` is the one at `i - k`, or one of the run
    have hall : ∀ i (hi : i < l.length), l[i] = a := by
      intro i
      induction i using Nat.strong_induction_on with
      | h i ih =>
        intro hi
        have hget := congrArg (fun m => m[i]?) h
        rw [List.getElem?_append_left hi, List.getElem?_eq_getElem hi] at hget
        by_cases hik : i < k
        · rw [List.getElem?_append_left (by simpa using hik)] at hget
          simpa [hik] using hget.symm
        · rw [List.getElem?_append_right (by simpa using hik), List.length_replicate,
            List.getElem?_eq_getElem (by omega), ih (i - k) (by omega)] at hget
          exact (Option.some.inj hget).symm
    intro c hc
    obtain ⟨i, hi, rfl⟩ := List.getElem_of_mem hc
    exact hall i hi
  · intro h
    obtain rfl | hall := h
    · simp
    · rw [List.eq_replicate_of_mem hall, List.replicate_append_replicate,
        List.replicate_append_replicate, Nat.add_comm]

theorem digs_ne_space (upper : Bool) {d : ℕ} (h : d < 16) : digs upper d ≠ ch ' ' := by
  revert upper d
  decide

section
variable {δ : Type}

/-- The arguments of a precision: the value of the argument counts if there is a star. -/
def PrecSpec.args (p : PrecSpec) (v : ℕ) : List (Arg δ) := if p = .star then [.word v] else []

def PrecSpec.val (p : PrecSpec) (v : ℕ) : ℤ :=
  match p with
  | .none => -1
  | .empty => 0
  | .lit p => p
  | .star => if i32 v < 0 then -1 else i32 v

theorem PrecSpec.take_args (p : PrecSpec) (v : ℕ) (ap : List (Arg δ)) :
    p.take (p.args v ++ ap) = .ok (p.val v, ap) := by
  cases p <;> rfl

/-- The same directive with the width `w` written out, and the flag `-` if it is negative. -/
def Directive.withLiteral (d : Directive) (w : ℤ) : Directive :=
  { d with flags := if w < 0 then d.flags ++ [.left] else d.flags, width := .lit w.natAbs }

/-- The conversion of a directive as far as its text is concerned. -/
def Directive.plain (d : Directive) (p : ℤ) (a : Arg δ) : List UInt8 :=
  headText ⟨flagsOf d.flags, -1, p, d.len, d.type⟩ a ++
    bodyText ⟨flagsOf d.flags, -1, p, d.len, d.type⟩ a

/-- The conversion in its field, read with the flags `fs` and the width `w`. -/
def Directive.field (d : Directive) (fs : Flags) (w p : ℤ) (a : Arg δ) : List UInt8 :=
  layout fs.left (⟨fs, w, p, d.len, d.type⟩ : Fmt).fills w
    (headText ⟨fs, w, p, d.len, d.type⟩ a) (bodyText ⟨fs, w, p, d.len, d.type⟩ a)

/-- When a star means the same as the width written out: a positive width, a width of zero
with a text whose length is an `int`, and a negative width that is hidden by the flag, by
a text that leaves no room or by a text of spaces. -/
def Directive.StarAgrees (d : Directive) (w p : ℤ) (a : Arg δ) : Prop :=
  0 < w ∨ (w = 0 ∧ 0 ≤ i32 (d.plain p a).length) ∨
    (w < 0 ∧ (Flag.left ∈ d.flags ∨ room w.natAbs (d.plain p a).length ≤ 0 ∨
      ∀ c ∈ d.plain p a, c = ch ' '))

theorem flagsOf_append_left (fs : List Flag) :
    flagsOf (fs ++ [.left]) = { flagsOf fs with left := true } := by
  rw [flagsOf, List.foldl_append]
  rfl

theorem flagsOf_append_zero (fs : List Flag) :
    flagsOf (fs ++ [.zero]) = { flagsOf fs with zero := true } := by
  rw [flagsOf, List.foldl_append]
  rfl

/-- A width of zero is read as the flag. -/
theorem Directive.withLiteral_zero (d : Directive) :
    (d.withLiteral 0).text =
      ({ d with flags := d.flags ++ [.zero], width := .none } : Directive).text := by
  have hdecimal : decimal 0 = [Flag.zero.char] := rfl
  simp [Directive.withLiteral, Directive.text, WidthSpec.text, hdecimal]

/-- A directive whose width, if it is an argument, is not negative. -/
theorem Directive.emits_of_take {d : Directive} (hd : d.Fits) (float : Fmt → δ → List UInt8)
    {w : ℤ} (wargs : List (Arg δ)) (hw : ∀ ap, d.width.take (wargs ++ ap) = .ok (w, ap))
    (hstar : d.width = .star → 0 ≤ w) (hlo : -2 ^ 31 < w) (hhi : w < 2 ^ 31) (pv : ℕ) {a : Arg δ}
    (ha : ArgFor d.type a) :
    d.Emits float (wargs ++ (d.prec.args pv ++ [a]))
      (d.field (flagsOf d.flags) w (d.prec.val pv) a) := by
  have hfmt : d.fmt w (d.prec.val pv) = ⟨flagsOf d.flags, w, d.prec.val pv, d.len, d.type⟩ := by
    apply if_neg
    intro h
    have := hstar h.2
    omega
  apply Directive.emits (f := ⟨flagsOf d.flags, w, d.prec.val pv, d.len, d.type⟩) hlo hhi
    hd.type.nonzero ha
  intro rest ap
  rw [parseSpec_text hd, List.append_assoc, hw, ok_bind]
  dsimp only
  rw [List.append_assoc, PrecSpec.take_args, ok_bind]
  dsimp only
  rw [hfmt]
  rfl

/-- The text of an integer whose field is filled with zeros. -/
theorem fills_text {f : Fmt} {a : Arg δ} (hf : f.fills = true) (ha : ArgFor f.type a) :
    bodyText f a ≠ [] ∧ (∀ c ∈ bodyText f a, c ≠ ch ' ') ∧
      (headText f a ++ bodyText f a).length ≤ 25 := by
  have hdigit : ∀ (base : ℕ), IsBase base → ∀ (uval : ℕ) (neg upper : Bool), uval < u64 → f.prec < 0 →
      intBody f uval base upper ≠ [] ∧ (∀ c ∈ intBody f uval base upper, c ≠ ch ' ') ∧
        (intHead f uval neg base upper ++ intBody f uval base upper).length ≤ 25 := by
    intro base hbase uval neg upper hv hprec
    have hlen := length_intHead_append f uval neg base upper
    have hfixed := fixedLen_le f hbase hv neg upper
    have hzero : (f.prec - (digitText f uval base upper).length).toNat = 0 := by omega
    have hbody : intBody f uval base upper = numeral (digs upper) base uval := by
      rw [intBody, hzero, digitText, if_neg (by omega)]
      rfl
    refine ⟨by rw [hbody]; exact numeral_ne_nil _ _ _, ?_, by omega⟩
    intro c hc
    have hbounds := hbase.bounds
    rw [hbody] at hc
    obtain ⟨e, he, rfl⟩ := mem_numeral (by omega) hc
    exact digs_ne_space upper (by omega)
  unfold Fmt.fills at hf
  unfold ArgFor at ha
  unfold headText bodyText
  have hbase := convOf_hasBase f.type
  cases hconv : convOf f.type with
  | signed =>
    simp [hconv] at hf
    cases a with
    | word v => exact hdigit 10 (.inr (.inl rfl)) _ _ _ (signed_natAbs_lt v f.len) hf.2
    | _ => simp [hconv] at ha
  | unsigned base upper =>
    simp [hconv] at hf
    rw [hconv] at hbase
    cases a with
    | word v => exact hdigit base hbase _ _ _ (unsigned_lt v f.len) hf.2
    | _ => simp [hconv] at ha
  | _ => simp [hconv] at hf

end

/-! ## Two layouts of one text -/

section
variable {left fill fill' : Bool} {w : ℤ} {head body : List UInt8}

/-- Filling on the left against filling on the right. -/
theorem layout_sides_iff (hw : w < 2 ^ 31)
    (hfill : fill = true → body ≠ [] ∧ (∀ c ∈ body, c ≠ ch ' ') ∧ (head ++ body).length ≤ 25) :
    layout false fill w head body = layout true fill' w head body ↔
      room w (head ++ body).length ≤ 0 ∨ ∀ c ∈ head ++ body, c = ch ' ' := by
  have hnat : (room w (head ++ body).length).toNat = 0 ↔ room w (head ++ body).length ≤ 0 := by
    omega
  cases fill with
  | false =>
    rw [← hnat]
    exact replicate_append_comm_iff
  | true =>
    obtain ⟨hne, hspace, hlen⟩ := hfill rfl
    have hroom := room_toNat hw (show (head ++ body).length < 2 ^ 31 by omega)
    unfold layout
    simp only [Bool.false_eq_true, if_false, if_true]
    rw [← hnat, hroom, List.append_assoc, List.append_assoc, List.append_cancel_left_eq]
    constructor
    · intro h
      by_contra hno
      obtain ⟨hk, -⟩ := not_or.mp hno
      -- the last character is a digit on one side and a space on the other
      have hlast := congrArg List.getLast? h
      rw [List.getLast?_append_of_ne_nil _ hne, List.getLast?_append_of_ne_nil _ (by simpa using hk),
        List.getLast?_replicate, if_neg hk] at hlast
      exact hspace _ (List.mem_of_getLast? hlast) rfl
    · intro h
      obtain h | h := h
      · rw [h]
        simp
      · obtain ⟨c, hc⟩ := List.exists_mem_of_ne_nil body hne
        exact absurd (h c (List.mem_append_right _ hc)) (hspace c hc)

theorem room_zero_iff (len : ℕ) : (room 0 len).toNat = (room (-1) len).toNat ↔ 0 ≤ i32 len := by
  have hlo : -2 ^ 31 ≤ i32 (len : ℤ) := by
    rw [i32]
    exact Int.le_bmod (by decide)
  unfold room
  generalize i32 (len : ℤ) = x at *
  by_cases hx : 0 ≤ x
  · rw [if_neg (by omega), if_neg (by omega)]
    simp [hx]
  · rw [if_pos (by omega)]
    simp only [hx, iff_false]
    by_cases hmin : x = -2 ^ 31
    · subst hmin
      decide
    · rw [i32_of_lt (by omega) (by omega)]
      split_ifs
      · rw [i32_of_lt (by omega) (by omega)]
        omega
      · omega

/-- A width of zero against no width. -/
theorem layout_zero_iff (himp : fill = true → fill' = true)
    (hfill : fill' = true → (head ++ body).length ≤ 25) :
    layout left fill 0 head body = layout left fill' (-1) head body ↔
      0 ≤ i32 (head ++ body).length := by
  have hcancel : ∀ k k' : ℕ, fieldText left k (head ++ body) = fieldText left k' (head ++ body) ↔
      k = k' := by
    intro k k'
    constructor
    · intro h
      have hlen := congrArg List.length h
      unfold fieldText at hlen
      split_ifs at hlen <;> simpa using hlen
    · intro h
      rw [h]
  rw [← room_zero_iff, ← hcancel]
  cases hfill' : fill' with
  | false =>
    have : fill = false := by
      by_contra h
      rw [himp (by simpa using h)] at hfill'
      cases hfill'
    subst this
    cases left <;> rfl
  | true =>
    have hlen := hfill hfill'
    have hz : (room 0 (head ++ body).length).toNat = 0 := by
      rw [room_toNat (by decide) (by omega)]
      omega
    have hone : (room (-1) (head ++ body).length).toNat = 0 := by
      rw [room_toNat (by decide) (by omega)]
      omega
    have hz' : (0 - ((head ++ body).length : ℤ)).toNat = 0 := by omega
    have hone' : (-1 - ((head ++ body).length : ℤ)).toNat = 0 := by omega
    unfold layout
    dsimp only
    rw [hz, hone, hz', hone']
    cases left <;> cases fill <;> simp

end

section
variable {δ : Type}

/-- The same text with the width written out: no number but zero is read as a flag. -/
theorem Directive.withLiteral_emits {d : Directive} (hd : d.Fits) (float : Fmt → δ → List UInt8)
    {w : ℤ} (hw : w ≠ 0) (hlo : -2 ^ 31 < w) (hhi : w < 2 ^ 31) (pv : ℕ) {a : Arg δ}
    (ha : ArgFor d.type a) {fs : Flags} (hfs : fs = if w < 0 then
      { flagsOf d.flags with left := true } else flagsOf d.flags) :
    (d.withLiteral w).Emits float (d.prec.args pv ++ [a])
      (d.field fs w.natAbs (d.prec.val pv) a) := by
  have hfits : (d.withLiteral w).Fits := ⟨⟨by omega, by omega⟩, hd.prec, hd.type⟩
  have hflags : flagsOf (d.withLiteral w).flags = fs := by
    rw [hfs, Directive.withLiteral]
    split_ifs
    · exact flagsOf_append_left d.flags
    · rfl
  have hemits := Directive.emits_of_take hfits float (w := w.natAbs) []
    (fun _ => rfl) (fun _ => by omega) (by omega) (by omega) pv ha
  rw [hflags] at hemits
  exact hemits

theorem Directive.withLiteral_zero_emits {d : Directive} (hd : d.Fits)
    (float : Fmt → δ → List UInt8) (pv : ℕ) {a : Arg δ} (ha : ArgFor d.type a) {fs : Flags}
    (hfs : fs = { flagsOf d.flags with zero := true }) :
    (d.withLiteral 0).Emits float (d.prec.args pv ++ [a])
      (d.field fs (-1) (d.prec.val pv) a) := by
  have hfits : ({ d with flags := d.flags ++ [.zero], width := .none } : Directive).Fits :=
    ⟨trivial, hd.prec, hd.type⟩
  have hemits := Directive.emits_of_take hfits float (w := -1) [] (fun _ => rfl) (by simp) (by decide) (by decide) pv ha
  rw [flagsOf_append_zero, ← hfs] at hemits
  intro fuel last rest o ap st
  rw [Directive.withLiteral_zero]
  exact hemits fuel last rest o ap st

/-- Two records that differ in the field only. -/
structure SameText (f g : Fmt) : Prop where
  type : f.type = g.type
  len : f.len = g.len
  prec : f.prec = g.prec
  sign : f.flags.sign = g.flags.sign
  sp : f.flags.sp = g.flags.sp
  alt : f.flags.alt = g.flags.alt

theorem SameText.intHead {f g : Fmt} (h : SameText f g) (uval : ℕ) (neg : Bool) (base : ℕ)
    (upper : Bool) : intHead f uval neg base upper = intHead g uval neg base upper := by
  unfold Snprintf.intHead signText signCh prefixText
  rw [h.sign, h.sp, h.alt]

theorem SameText.intBody {f g : Fmt} (h : SameText f g) (uval base : ℕ) (upper : Bool) :
    intBody f uval base upper = intBody g uval base upper := by
  unfold Snprintf.intBody digitText
  rw [h.prec]

theorem SameText.pointer {f g : Fmt} (h : SameText f g) : SameText f.pointer g.pointer :=
  ⟨h.type, h.len, rfl, rfl, rfl, rfl⟩

theorem SameText.headText {f g : Fmt} (h : SameText f g) (a : Arg δ) :
    headText f a = headText g a := by
  unfold Snprintf.headText
  rw [h.type, h.len]
  split
  · exact h.intHead _ _ _ _
  · exact h.intHead _ _ _ _
  · exact h.pointer.intHead _ _ _ _
  · rfl

theorem SameText.bodyText {f g : Fmt} (h : SameText f g) (a : Arg δ) :
    bodyText f a = bodyText g a := by
  unfold Snprintf.bodyText
  rw [h.type, h.len]
  split
  · rfl
  · unfold shownText
    rw [h.prec]
  · exact h.intBody _ _ _
  · exact h.intBody _ _ _
  · exact h.pointer.intBody _ _ _
  · rfl

/-- The flag `-` changes the output unless it is set, there is no room or the text is all
spaces. -/
theorem layout_left_iff {f : Fmt} {a : Arg δ} (hw : f.width < 2 ^ 31) (ha : ArgFor f.type a)
    (fill : Bool) :
    layout f.flags.left f.fills f.width (headText f a) (bodyText f a) =
        layout true fill f.width (headText f a) (bodyText f a) ↔
      f.flags.left = true ∨ room f.width (headText f a ++ bodyText f a).length ≤ 0 ∨
        ∀ c ∈ headText f a ++ bodyText f a, c = ch ' ' := by
  cases hleft : f.flags.left with
  | true => simp [layout]
  | false =>
    rw [layout_sides_iff hw fun hf => fills_text hf ha]
    simp

theorem fills_set_zero {fs : Flags} {w w' p : ℤ} {len : LenCode} {type : UInt8}
    (h : (⟨fs, w, p, len, type⟩ : Fmt).fills = true) :
    (⟨{ fs with zero := true }, w', p, len, type⟩ : Fmt).fills = true := by
  unfold Fmt.fills at h ⊢
  dsimp only at h ⊢
  cases hconv : convOf type with
  | signed =>
    simp [hconv] at h ⊢
    exact h.2
  | unsigned base upper =>
    simp [hconv] at h ⊢
    exact h.2
  | _ => simp [hconv] at h

/-- The width that an argument gives has lost its sign. -/
theorem WidthSpec.take_star {wv : ℕ} (hmin : -2 ^ 31 < i32 wv) (hmax : i32 wv < 2 ^ 31)
    (ap : List (Arg δ)) :
    WidthSpec.star.take (.word wv :: ap) = .ok (((i32 wv).natAbs : ℤ), ap) := by
  have habs : (if i32 (wv : ℤ) < 0 then i32 (-i32 wv) else i32 wv) = ((i32 wv).natAbs : ℤ) := by
    generalize i32 (wv : ℤ) = w at *
    split_ifs with hneg
    · rw [i32_of_lt (by omega) (by omega)]
      omega
    · omega
  rw [← habs]
  rfl

/-- The flag `-` that a negative width would give makes a difference unless it is there, or the
text leaves no room or is all spaces. -/
theorem Directive.field_left_iff {d : Directive} {w p : ℤ} {a : Arg δ} (hneg : w < 0)
    (hmin : -2 ^ 31 < w) (ha : ArgFor d.type a) :
    d.field (flagsOf d.flags) w.natAbs p a =
        d.field { flagsOf d.flags with left := true } w.natAbs p a ↔ d.StarAgrees w p a := by
  have hsame : SameText ⟨{ flagsOf d.flags with left := true }, w.natAbs, p, d.len, d.type⟩
      ⟨flagsOf d.flags, w.natAbs, p, d.len, d.type⟩ := ⟨rfl, rfl, rfl, rfl, rfl, rfl⟩
  have hplain : SameText ⟨flagsOf d.flags, w.natAbs, p, d.len, d.type⟩
      ⟨flagsOf d.flags, -1, p, d.len, d.type⟩ := ⟨rfl, rfl, rfl, rfl, rfl, rfl⟩
  have hwidth : (w.natAbs : ℤ) < 2 ^ 31 := by omega
  have hiff := layout_left_iff (f := ⟨flagsOf d.flags, w.natAbs, p, d.len, d.type⟩) hwidth ha
    (⟨{ flagsOf d.flags with left := true }, w.natAbs, p, d.len, d.type⟩ : Fmt).fills
  have hleft : (flagsOf d.flags).left = true ↔ Flag.left ∈ d.flags := flagsOf_has d.flags .left
  have hagrees : d.StarAgrees w p a ↔ Flag.left ∈ d.flags ∨
      room w.natAbs (d.plain p a).length ≤ 0 ∨ ∀ c ∈ d.plain p a, c = ch ' ' := by
    constructor
    · rintro (h | ⟨h, -⟩ | ⟨-, h⟩)
      · omega
      · omega
      · exact h
    · exact fun h => .inr (.inr ⟨hneg, h⟩)
  rw [hagrees, ← hleft, Directive.plain, ← hplain.headText, ← hplain.bodyText, Directive.field,
    Directive.field, hsame.headText, hsame.bodyText]
  exact hiff

/-- The flag `0` that a width of zero would give, and the width itself, make a difference only
for a text that is too long. -/
theorem Directive.field_zero_iff {d : Directive} {p : ℤ} {a : Arg δ} (ha : ArgFor d.type a) :
    d.field (flagsOf d.flags) 0 p a = d.field { flagsOf d.flags with zero := true } (-1) p a ↔
      d.StarAgrees 0 p a := by
  have hagrees : d.StarAgrees 0 p a ↔ 0 ≤ i32 (d.plain p a).length := by
    simp [Directive.StarAgrees]
  have hsame : SameText ⟨{ flagsOf d.flags with zero := true }, -1, p, d.len, d.type⟩
      ⟨flagsOf d.flags, -1, p, d.len, d.type⟩ := ⟨rfl, rfl, rfl, rfl, rfl, rfl⟩
  have hplain : SameText ⟨flagsOf d.flags, 0, p, d.len, d.type⟩
      ⟨flagsOf d.flags, -1, p, d.len, d.type⟩ := ⟨rfl, rfl, rfl, rfl, rfl, rfl⟩
  rw [hagrees, Directive.field, Directive.field, Directive.plain, hplain.headText,
    hplain.bodyText, ← hsame.headText, ← hsame.bodyText]
  apply layout_zero_iff
  · exact fills_set_zero
  · intro hfill
    exact (fills_text hfill ha).2.2

/-- A star means the same as the width written out just when its argument is not negative,
or when the sign makes no difference. -/
theorem star_width_iff (float : Fmt → δ → List UInt8) {d : Directive} (hd : d.Fits)
    (hstar : d.width = .star) (wv : ℕ) (hmin : -2 ^ 31 < i32 wv) (pv : ℕ) {a : Arg δ}
    (ha : ArgFor d.type a) :
    ∃ cs cs', d.Emits float (.word wv :: (d.prec.args pv ++ [a])) cs ∧
      (d.withLiteral (i32 wv)).Emits float (d.prec.args pv ++ [a]) cs' ∧
      (cs = cs' ↔ d.StarAgrees (i32 wv) (d.prec.val pv) a) := by
  have hmax : i32 (wv : ℤ) < 2 ^ 31 := by
    rw [i32]
    exact Int.bmod_lt (by decide)
  have htake : ∀ ap : List (Arg δ), d.width.take ([.word wv] ++ ap) = .ok (((i32 wv).natAbs : ℤ), ap) := by
    intro ap
    rw [hstar]
    exact WidthSpec.take_star hmin hmax ap
  have hemits := Directive.emits_of_take hd float [.word wv] htake (fun _ => by omega) (by omega)
    (by omega) pv ha
  generalize i32 (wv : ℤ) = w at *
  rcases lt_trichotomy w 0 with hneg | rfl | hpos
  · have hlit := Directive.withLiteral_emits hd float hneg.ne hmin hmax pv ha rfl
    rw [if_pos hneg] at hlit
    exact ⟨_, _, hemits, hlit, Directive.field_left_iff hneg hmin ha⟩
  · have hlit := Directive.withLiteral_zero_emits hd float pv ha rfl
    exact ⟨_, _, hemits, hlit, Directive.field_zero_iff ha⟩
  · have hlit := Directive.withLiteral_emits hd float hpos.ne' hmin hmax pv ha rfl
    rw [if_neg hpos.not_gt] at hlit
    exact ⟨_, _, hemits, hlit, iff_of_true rfl (.inl hpos)⟩

/-- `%*d` with a width of five. -/
theorem star_width_five : ∃ cs cs',
    (⟨[], .star, .none, .none, ch 'd'⟩ : Directive).Emits (fun _ (_ : Unit) => [])
        [.word 5, .word 42] cs ∧
      ((⟨[], .star, .none, .none, ch 'd'⟩ : Directive).withLiteral (i32 5)).Emits
        (fun _ (_ : Unit) => []) [.word 42] cs' ∧
      (cs = cs' ↔ (⟨[], .star, .none, .none, ch 'd'⟩ : Directive).StarAgrees (i32 5) (-1)
        (Arg.word 42 : Arg Unit)) :=
  star_width_iff (fun _ (_ : Unit) => []) (d := ⟨[], .star, .none, .none, ch 'd'⟩)
    ⟨trivial, trivial, ⟨by decide, by decide, by decide, by decide, by decide, by decide⟩⟩ rfl
    5 (by decide +kernel) 0 (a := .word 42) trivial

/-- `%*d` with minus five fills on the left, `%-5d` on the right. -/
theorem star_width_negative :
    (vsnprintf (fun _ (_ : Unit) => []) (fun _ => 0) 16 ("%*d".toList.map ch)
        [.word (2 ^ 32 - 5), .word 42]).toOption.map (fun r => r.buf 0) = some (ch ' ') ∧
      (vsnprintf (fun _ (_ : Unit) => []) (fun _ => 0) 16 ("%-5d".toList.map ch)
        [.word 42]).toOption.map (fun r => r.buf 0) = some (ch '4') ∧
      i32 (2 ^ 32 - 5) = -5 := by
  decide +kernel

end

end JanusRT.Snprintf
