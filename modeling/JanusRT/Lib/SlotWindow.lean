import Mathlib.Data.Nat.ModEq
import Mathlib.Data.Set.Insert
import Mathlib.Logic.Function.Basic
import Mathlib.Tactic.Ring

/-!
# A log seen through a ring of flagged slots

A writer appends to an unbounded log and a reader consumes it from the front. Only
`N` slots exist; entry `k` of the log lives in slot `k % N` while it is written and
not yet taken. The flag of a slot is the only thing either side looks at.
-/
namespace SlotWindow

variable {R : Type} {N : ℕ}

/-- Entries `taken ≤ k < log.length` are in their flagged slots, the other slots
are clear. -/
structure Window (N : ℕ) (flags : ℕ → Bool) (data : ℕ → R) (log : List R) (taken : ℕ) :
    Prop where
  le : taken ≤ log.length
  room : log.length ≤ taken + N
  full : ∀ k (hk : k < log.length), taken ≤ k → flags (k % N) = true ∧ data (k % N) = log[k]
  clear : ∀ k, log.length ≤ k → k < taken + N → flags (k % N) = false

/-- Fewer than `N` consecutive numbers have different slots. -/
theorem eq_of_mod_eq {a j k : ℕ} (hj : a ≤ j) (hj' : j < a + N) (hk : a ≤ k) (hk' : k < a + N)
    (h : j % N = k % N) : j = k := by
  wlog hle : j ≤ k generalizing j k
  · exact (this hk hk' hj hj' h.symm (by omega)).symm
  have hz : (k - j) % N = 0 := Nat.sub_mod_eq_zero_of_mod_eq h.symm
  rw [Nat.mod_eq_of_lt (by omega)] at hz
  omega

namespace Window
variable {flags : ℕ → Bool} {data : ℕ → R} {log : List R} {taken : ℕ}

theorem init (data : ℕ → R) : Window N (fun _ => false) data [] 0 where
  le := le_rfl
  room := Nat.zero_le _
  full k hk := absurd hk (Nat.not_lt_zero k)
  clear _ _ _ := rfl

/-- A clear slot at the writer's position means that the ring is not full. -/
theorem lt_of_clear (h : Window N flags data log taken) (hN : 0 < N)
    (hf : flags (log.length % N) = false) : log.length < taken + N := by
  apply lt_of_le_of_ne h.room
  intro he
  have hfull := (h.full taken (by omega) le_rfl).1
  rw [he, Nat.add_mod_right, hfull] at hf
  cases hf

/-- The reader sees a flag exactly when there is something to take. -/
theorem front_iff (h : Window N flags data log taken) (hN : 0 < N) :
    flags (taken % N) = true ↔ taken < log.length := by
  constructor
  · intro hf
    by_contra hge
    have hclear := h.clear taken (by omega) (by omega)
    rw [hf] at hclear
    cases hclear
  · intro hlt
    exact (h.full taken hlt le_rfl).1

/-- Writing the payload of a clear slot touches no entry. -/
theorem write (h : Window N flags data log taken) (hN : 0 < N)
    (hf : flags (log.length % N) = false) (x : R) :
    Window N flags (Function.update data (log.length % N) x) log taken where
  le := h.le
  room := h.room
  full k hk hle := by
    have hroom := h.lt_of_clear hN hf
    have hne : k % N ≠ log.length % N := by
      intro he
      have := eq_of_mod_eq hle (by omega) h.le hroom he
      omega
    rw [Function.update_of_ne hne]
    exact h.full k hk hle
  clear := h.clear

/-- Setting the flag of a written slot appends its payload to the log. -/
theorem publish (h : Window N flags data log taken) (hN : 0 < N)
    (hf : flags (log.length % N) = false) :
    Window N (Function.update flags (log.length % N) true) data
      (log ++ [data (log.length % N)]) taken where
  le := by
    rw [List.length_append]
    exact h.le.trans (Nat.le_add_right _ _)
  room := by
    rw [List.length_append]
    exact h.lt_of_clear hN hf
  full k hk hle := by
    by_cases he : k = log.length
    · subst k
      simp
    · have hlt : k < log.length := by
        rw [List.length_append, List.length_singleton] at hk
        omega
      have hne : k % N ≠ log.length % N := by
        intro hmod
        exact he (eq_of_mod_eq hle (by have := h.room; omega) h.le (h.lt_of_clear hN hf) hmod)
      rw [Function.update_of_ne hne, List.getElem_append_left hlt]
      exact h.full k hlt hle
  clear k hk hlt := by
    rw [List.length_append, List.length_singleton] at hk
    have hne : k % N ≠ log.length % N := by
      intro hmod
      have := eq_of_mod_eq (by have := h.le; omega) hlt h.le (h.lt_of_clear hN hf) hmod
      omega
    rw [Function.update_of_ne hne]
    exact h.clear k (by omega) hlt

/-- Clearing the front flag takes one entry. -/
theorem take (h : Window N flags data log taken) (hN : 0 < N) (hlt : taken < log.length) :
    Window N (Function.update flags (taken % N) false) data log (taken + 1) where
  le := hlt
  room := by
    have := h.room
    omega
  full k hk hle := by
    have hne : k % N ≠ taken % N := by
      intro hmod
      have := eq_of_mod_eq (by omega) (by have := h.room; omega) le_rfl (by omega) hmod
      omega
    rw [Function.update_of_ne hne]
    exact h.full k hk (by omega)
  clear k hk hk' := by
    by_cases hmod : k % N = taken % N
    · rw [hmod, Function.update_self]
    · rw [Function.update_of_ne hmod]
      refine h.clear k hk (lt_of_le_of_ne (by omega) ?_)
      rintro rfl
      exact hmod (Nat.add_mod_right taken N)

/-- Every flagged slot is the slot of an entry. -/
theorem flagged (h : Window N flags data log taken) (hN : 0 < N) {i : ℕ} (hi : i < N)
    (hf : flags i = true) : ∃ k, taken ≤ k ∧ k < log.length ∧ k % N = i := by
  -- the representative of `i` in the window that starts at `taken`
  let k := taken + (i + N - taken % N) % N
  have hlt : (i + N - taken % N) % N < N := Nat.mod_lt _ hN
  have hmod : k % N = i := by
    have hle : taken % N < N := Nat.mod_lt _ hN
    have hsum : taken % N + (i + N - taken % N) = i + N := by omega
    calc (taken + (i + N - taken % N) % N) % N
        = (taken % N + (i + N - taken % N)) % N := by rw [Nat.add_mod_mod, Nat.mod_add_mod]
      _ = i := by rw [hsum, Nat.add_mod_right, Nat.mod_eq_of_lt hi]
  refine ⟨k, Nat.le_add_right _ _, ?_, hmod⟩
  by_contra hge
  have hclear := h.clear k (by omega) (by simp only [k]; omega)
  rw [hmod, hf] at hclear
  cases hclear

end Window

/-! ## Entries written out of order -/

/-- Entries are claimed in the order of the log and written in any order. The entries in
`done` from `taken` on are in their flagged slots; the slots of the others within reach are
clear. -/
structure Sparse (N : ℕ) (flags : ℕ → Bool) (data : ℕ → R) (log : List R) (done : Set ℕ)
    (taken : ℕ) : Prop where
  reach : ∀ k ∈ done, k < log.length ∧ k < taken + N
  front : ∀ k, k < taken → k ∈ done
  full : ∀ k ∈ done, taken ≤ k → flags (k % N) = true ∧ log[k]? = some (data (k % N))
  clear : ∀ k, taken ≤ k → k < taken + N → k ∉ done → flags (k % N) = false

namespace Sparse
variable {flags : ℕ → Bool} {data : ℕ → R} {log : List R} {done : Set ℕ} {taken : ℕ}

theorem init (data : ℕ → R) : Sparse N (fun _ => false) data [] ∅ 0 where
  reach _ hk := absurd hk (Set.notMem_empty _)
  front k hk := absurd hk (Nat.not_lt_zero k)
  full _ hk := absurd hk (Set.notMem_empty _)
  clear _ _ _ _ := rfl

/-- The reader sees a flag exactly when the next entry is written. -/
theorem front_iff (h : Sparse N flags data log done taken) (hN : 0 < N) :
    flags (taken % N) = true ↔ taken ∈ done := by
  constructor
  · intro hf
    by_contra hnot
    have hclear := h.clear taken le_rfl (by omega) hnot
    rw [hf] at hclear
    cases hclear
  · intro hdone
    exact (h.full taken hdone le_rfl).1

theorem claim (h : Sparse N flags data log done taken) (x : R) :
    Sparse N flags data (log ++ [x]) done taken where
  reach k hk := by
    rw [List.length_append]
    exact ⟨(h.reach k hk).1.trans_le (Nat.le_add_right _ _), (h.reach k hk).2⟩
  front := h.front
  full k hk hle := by
    rw [List.getElem?_append_left (h.reach k hk).1]
    exact h.full k hk hle
  clear := h.clear

/-- Within reach, the slot of an entry that is not written is nobody else's. -/
theorem slot_ne (h : Sparse N flags data log done taken) {j k : ℕ} (hj : j ∈ done)
    (hle : taken ≤ j) (hk : k ∉ done) (hlt : k < taken + N) : j % N ≠ k % N := by
  intro hmod
  have hge : taken ≤ k := by
    by_contra hlt'
    exact hk (h.front k (by omega))
  obtain rfl : j = k := eq_of_mod_eq hle (h.reach j hj).2 hge hlt hmod
  exact hk hj

theorem write (h : Sparse N flags data log done taken) {k : ℕ} (hk : k ∉ done)
    (hlt : k < taken + N) (x : R) :
    Sparse N flags (Function.update data (k % N) x) log done taken where
  reach := h.reach
  front := h.front
  full j hj hle := by
    rw [Function.update_of_ne (h.slot_ne hj hle hk hlt)]
    exact h.full j hj hle
  clear := h.clear

theorem publish (h : Sparse N flags data log done taken) {k : ℕ} (hk : k ∉ done)
    (hlt : k < taken + N) (hdata : log[k]? = some (data (k % N))) :
    Sparse N (Function.update flags (k % N) true) data log (insert k done) taken where
  reach j hj := by
    obtain rfl | hj := hj
    · exact ⟨(List.getElem?_eq_some_iff.mp hdata).1, hlt⟩
    · exact h.reach j hj
  front j hj := Or.inr (h.front j hj)
  full j hj hle := by
    obtain rfl | hj := hj
    · exact ⟨Function.update_self _ _ _, hdata⟩
    · rw [Function.update_of_ne (h.slot_ne hj hle hk hlt)]
      exact h.full j hj hle
  clear j hle hlt' hj := by
    rw [Set.mem_insert_iff, not_or] at hj
    have hge : taken ≤ k := by
      by_contra hlt'
      exact hk (h.front k (by omega))
    have hne : j % N ≠ k % N := by
      intro hmod
      exact hj.1 (eq_of_mod_eq hle hlt' hge hlt hmod)
    rw [Function.update_of_ne hne]
    exact h.clear j hle hlt' hj.2

theorem take (h : Sparse N flags data log done taken) (hdone : taken ∈ done) :
    Sparse N (Function.update flags (taken % N) false) data log done (taken + 1) where
  reach k hk := ⟨(h.reach k hk).1, by have := (h.reach k hk).2; omega⟩
  front k hk := by
    obtain rfl | hlt := Nat.eq_or_lt_of_le (Nat.lt_succ_iff.mp hk)
    · exact hdone
    · exact h.front k hlt
  full k hk hle := by
    have hne : k % N ≠ taken % N := by
      intro hmod
      have hreach := (h.reach k hk).2
      have := eq_of_mod_eq (by omega) hreach le_rfl (by omega) hmod
      omega
    rw [Function.update_of_ne hne]
    exact h.full k hk (by omega)
  clear k hle hlt hk := by
    by_cases hmod : k % N = taken % N
    · rw [hmod, Function.update_self]
    · rw [Function.update_of_ne hmod]
      apply h.clear k (by omega) (lt_of_le_of_ne (by omega) ?_) hk
      rintro rfl
      exact hmod (Nat.add_mod_right taken N)

end Sparse

end SlotWindow
