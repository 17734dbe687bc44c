import JanusRT.Snprintf
import JanusRT.Lib.Outcome

/-!
# Scanning the format

Every scanner of `snprintf.c` moves its pointer by one character at a time, and only
over characters that are not the terminating zero. What a scanner can stop at is an
argument that is missing or of another kind.
-/
namespace JanusRT.Snprintf

open Outcome

/-- The pointer passes over one character of the string. -/
def Cursor.Step (c c' : Cursor) : Prop := c.peek ≠ 0 ∧ c' = c.next

/-- The pointer moves forward inside the string. -/
def Cursor.Reaches : Cursor → Cursor → Prop := Relation.ReflTransGen Cursor.Step

namespace Cursor.Reaches
variable {c c' c'' : Cursor}

theorem refl (c : Cursor) : c.Reaches c := Relation.ReflTransGen.refl

theorem next (h : c.peek ≠ 0) : c.Reaches c.next := Relation.ReflTransGen.single ⟨h, rfl⟩

theorem trans (h : c.Reaches c') (h' : c'.Reaches c'') : c.Reaches c'' :=
  Relation.ReflTransGen.trans h h'

theorem cons {last x : UInt8} {xs : List UInt8} (hx : x ≠ 0) (h : (⟨x, xs⟩ : Cursor).Reaches c') :
    (⟨last, x :: xs⟩ : Cursor).Reaches c' := by
  have hstep : (⟨last, x :: xs⟩ : Cursor).Reaches ⟨x, xs⟩ := next hx
  exact hstep.trans h

/-- The pointer stays at or before the zero that ends the string. -/
theorem suffix (h : c.Reaches c') {s junk : List UInt8} (hs : c.rest = s ++ 0 :: junk) :
    ∃ s', s' <:+ s ∧ c'.rest = s' ++ 0 :: junk := by
  induction h with
  | refl => exact ⟨s, List.suffix_refl s, hs⟩
  | @tail d _ _ hstep ih =>
    obtain ⟨s', hsuf, hrest⟩ := ih
    obtain ⟨hpeek, rfl⟩ := hstep
    obtain ⟨last, rest⟩ := d
    obtain rfl : rest = s' ++ 0 :: junk := hrest
    cases s' with
    | nil => exact absurd rfl hpeek
    | cons x s' => exact ⟨s', (List.suffix_cons x s').trans hsuf, rfl⟩

theorem length_le (h : c.Reaches c') : c'.rest.length ≤ c.rest.length := by
  induction h with
  | refl => exact le_rfl
  | @tail d _ _ hstep ih =>
    obtain ⟨-, rfl⟩ := hstep
    obtain ⟨last, _ | ⟨x, xs⟩⟩ := d
    · exact ih
    · exact (Nat.le_succ _).trans ih

end Cursor.Reaches

theorem Cursor.next_rest_lt {c : Cursor} (h : c.peek ≠ 0) : c.next.rest.length < c.rest.length := by
  obtain ⟨last, _ | ⟨x, xs⟩⟩ := c
  · exact absurd rfl h
  · exact Nat.lt_succ_self _

/-- A character that is compared with a constant is not the terminating zero. -/
theorem Cursor.next_of_peek {c : Cursor} {x : UInt8} (h : c.peek = x) (hx : x ≠ 0) :
    c.Reaches c.next :=
  .next (h ▸ hx)

section
variable {δ : Type}

/-- What may stop a scanner. -/
def IsArgument (e : Fault) : Prop := e = .argument

theorem vaWord_holds (ap : List (Arg δ)) : Holds IsArgument (fun _ => True) (vaWord ap) := by
  unfold vaWord
  split <;> simp [IsArgument]

theorem vaStr_holds (ap : List (Arg δ)) : Holds IsArgument (fun _ => True) (vaStr ap) := by
  unfold vaStr
  split <;> simp [IsArgument]

theorem vaReal_holds (ap : List (Arg δ)) : Holds IsArgument (fun _ => True) (vaReal ap) := by
  unfold vaReal
  split <;> simp [IsArgument]

theorem vaInt_holds (ap : List (Arg δ)) : Holds IsArgument (fun _ => True) (vaInt ap) :=
  (vaWord_holds ap).bind fun _ _ => trivial

theorem parseFlags_reaches (last : UInt8) (cs : List UInt8) (f : Flags) :
    (⟨last, cs⟩ : Cursor).Reaches (parseFlags last cs f).1 := by
  induction cs generalizing last f with
  | nil => exact .refl _
  | cons c cs ih =>
    unfold parseFlags
    split_ifs with h1 h2 h3 h4 h5
    · exact .cons (by rw [h1]; decide) (ih c _)
    · exact .cons (by rw [h2]; decide) (ih c _)
    · exact .cons (by rw [h3]; decide) (ih c _)
    · exact .cons (by rw [h4]; decide) (ih c _)
    · exact .cons (by rw [h5]; decide) (ih c _)
    · exact .refl _

theorem parseDigits_reaches (wrap : ℤ → ℤ) (last : UInt8) (cs : List UInt8) (any : Bool) (v : ℤ) :
    (⟨last, cs⟩ : Cursor).Reaches (parseDigits wrap last cs any v).1 := by
  induction cs generalizing last any v with
  | nil => exact .refl _
  | cons c cs ih =>
    unfold parseDigits
    split_ifs with h
    · have hc : c ≠ 0 := by
        rintro rfl
        exact absurd h (by decide)
      exact .cons hc (ih c true _)
    · exact .refl _

theorem parseWidthPrec_reaches (c : Cursor) (ap : List (Arg δ)) :
    Holds IsArgument (fun r => c.Reaches r.1) (parseWidthPrec c ap) := by
  unfold parseWidthPrec
  split_ifs with h
  · exact (vaInt_holds ap).bind fun _ _ => holds_pure.mpr (Cursor.next_of_peek h (by decide))
  · exact holds_pure.mpr (parseDigits_reaches _ _ _ _ _)

theorem parsePrec_reaches (c : Cursor) (ap : List (Arg δ)) :
    Holds IsArgument (fun r => c.Reaches r.1) (parsePrec c ap) := by
  unfold parsePrec
  extract_lets d
  split_ifs with hdot hstar
  · have hnext : c.Reaches d := Cursor.next_of_peek hdot (by decide)
    have hnext' : d.Reaches d.next := Cursor.next_of_peek hstar (by decide)
    exact (vaInt_holds ap).bind fun _ _ => holds_pure.mpr (hnext.trans hnext')
  · have hnext : c.Reaches d := Cursor.next_of_peek hdot (by decide)
    exact holds_pure.mpr (hnext.trans (parseDigits_reaches _ _ _ _ _))
  · exact holds_pure.mpr (.refl c)

theorem parseLen_reaches (c : Cursor) : c.Reaches (parseLen c).1 := by
  unfold parseLen
  split_ifs with h1 h2 h3 h4 h5 h6 h7 h8
  · exact (Cursor.next_of_peek h1.1 (by decide)).trans (Cursor.next_of_peek h1.2 (by decide))
  · exact Cursor.next_of_peek h2 (by decide)
  · exact (Cursor.next_of_peek h3.1 (by decide)).trans (Cursor.next_of_peek h3.2 (by decide))
  · exact Cursor.next_of_peek h4 (by decide)
  · exact Cursor.next_of_peek h5 (by decide)
  · exact Cursor.next_of_peek h6 (by decide)
  · exact Cursor.next_of_peek h7 (by decide)
  · exact Cursor.next_of_peek h8 (by decide)
  · exact .refl c

/-- The type is read over, unless it is the zero at the end. -/
theorem type_reaches {c c' : Cursor} (h : c.Reaches c') :
    c.Reaches (if c'.peek ≠ 0 then c'.next else c') ∧
      (c'.peek = 0 → (if c'.peek ≠ 0 then c'.next else c').peek = 0) := by
  by_cases hpeek : c'.peek = 0
  · rw [if_neg (not_not.mpr hpeek)]
    exact ⟨h, fun _ => hpeek⟩
  · rw [if_pos hpeek]
    exact ⟨h.trans (.next hpeek), fun h => absurd h hpeek⟩

/-- Parsing a conversion moves forward inside the string. If it finds no type, it has come
to the zero at the end. -/
theorem parseSpec_reaches (c : Cursor) (ap : List (Arg δ)) :
    Holds IsArgument (fun r => c.Reaches r.2.1 ∧ (r.1.type = 0 → r.2.1.peek = 0))
      (parseSpec c ap) := by
  unfold parseSpec
  have hflags := parseFlags_reaches c.last c.rest {}
  apply (parseWidthPrec_reaches _ ap).bind
  intro w hw
  apply (parsePrec_reaches w.1 w.2.2).bind
  intro p hp
  have hlen := parseLen_reaches p.1
  exact holds_pure.mpr (type_reaches (hflags.trans (hw.trans (hp.trans hlen))))

end

end JanusRT.Snprintf
