import Mathlib.Order.Basic
import Mathlib.Logic.Equiv.Basic
import Mathlib.Tactic

/-!
# Order invariants of an implicit d-ary min-heap

The heap is an array of keys indexed from zero, cut off at a length `n`. Position
`i` has the parent `(i - 1) / d`. A sift moves one misplaced key along a path, so
its loop invariant is an order that excuses exactly one position: `UpHole` for a
key that may be too small for its place, `DownHole` for one that may be too large.
The lemmas below say how one exchange along the path moves the excused position
and when no excuse is left. They mention neither a node layout nor a loop.
-/
namespace DaryHeap

variable {κ : Type*} {d : ℕ}

/-- Parent position. Position zero has none, although the formula returns zero. -/
def parent (d i : ℕ) : ℕ := (i - 1) / d

theorem parent_lt {i : ℕ} (hi : 0 < i) : parent d i < i := by
  have h : (i - 1) / d ≤ i - 1 := Nat.div_le_self _ _
  unfold parent
  omega

theorem parent_lt_of_lt {i n : ℕ} (hi : 0 < i) (hn : i < n) : parent d i < n :=
  (parent_lt hi).trans hn

/-- The positions with parent `i` are the `d` positions after `d * i`. -/
theorem parent_eq_iff (hd : 0 < d) {i j : ℕ} (hj : 0 < j) :
    parent d j = i ↔ d * i + 1 ≤ j ∧ j < d * i + 1 + d := by
  unfold parent
  rw [Nat.div_eq_iff hd, Nat.mul_comm i d]
  omega

variable [LinearOrder κ] {k : ℕ → κ} {n i : ℕ}

/-- Every stored key is at least its parent's key. -/
def Ordered (d : ℕ) (k : ℕ → κ) (n : ℕ) : Prop :=
  ∀ j, 0 < j → j < n → k (parent d j) ≤ k j

/-- Order with the edge into `i` excused. The keys below `i` are still bounded by
the key above `i`, so moving `i` up repairs the order. -/
structure UpHole (d : ℕ) (k : ℕ → κ) (n i : ℕ) : Prop where
  except : ∀ j, 0 < j → j < n → j ≠ i → k (parent d j) ≤ k j
  grand : 0 < i → ∀ j, 0 < j → j < n → parent d j = i → k (parent d i) ≤ k j

/-- Order with the edges out of `i` excused. -/
structure DownHole (d : ℕ) (k : ℕ → κ) (n i : ℕ) : Prop where
  except : ∀ j, 0 < j → j < n → parent d j ≠ i → k (parent d j) ≤ k j
  grand : 0 < i → ∀ j, 0 < j → j < n → parent d j = i → k (parent d i) ≤ k j

/-- The root carries a minimum. -/
theorem Ordered.root_le (h : Ordered d k n) : ∀ i, i < n → k 0 ≤ k i := by
  intro i
  induction i using Nat.strong_induction_on with
  | h i ih =>
    intro hi
    by_cases hz : i = 0
    · rw [hz]
    · have hpos : 0 < i := Nat.pos_of_ne_zero hz
      exact (ih _ (parent_lt hpos) (parent_lt_of_lt hpos hi)).trans (h i hpos hi)

theorem Ordered.mono {m : ℕ} (h : Ordered d k n) (hm : m ≤ n) : Ordered d k m :=
  fun j hj hjm => h j hj (hjm.trans_le hm)

/-- Only the stored keys matter. -/
theorem Ordered.congr {k' : ℕ → κ} (h : Ordered d k n) (he : ∀ j, j < n → k' j = k j) :
    Ordered d k' n := by
  intro j hj hjn
  rw [he j hjn, he _ (parent_lt_of_lt hj hjn)]
  exact h j hj hjn

/-- A key appended after an ordered prefix is the only suspect. -/
theorem Ordered.upHole_append (h : Ordered d k n) : UpHole d k (n + 1) n where
  except j hj hjn hne := h j hj (by omega)
  grand hn j hj hjn hp := by
    have := parent_lt (d := d) hj
    omega

/-- Replacing the root leaves only the root's own edges in doubt. -/
theorem Ordered.downHole_root {k' : ℕ → κ} (h : Ordered d k n)
    (he : ∀ j, 0 < j → j < n → k' j = k j) : DownHole d k' n 0 where
  except j hj hjn hne := by
    have hp : 0 < parent d j := Nat.pos_of_ne_zero hne
    rw [he j hj hjn, he _ hp (parent_lt_of_lt hj hjn)]
    exact h j hj hjn
  grand h0 := absurd h0 (lt_irrefl 0)

/-- A key that was lowered may be too small for its place, and no other one is. -/
theorem Ordered.upHole_of_le {k' : ℕ → κ} (h : Ordered d k n) (he : ∀ j, j ≠ i → k' j = k j)
    (hle : k' i ≤ k i) : UpHole d k' n i where
  except j hj hjn hne := by
    rw [he j hne]
    by_cases hp : parent d j = i
    · rw [hp]
      exact hle.trans (hp ▸ h j hj hjn)
    · rw [he _ hp]
      exact h j hj hjn
  grand hi j hj hjn hp := by
    have hij : i < j := hp ▸ parent_lt hj
    rw [he _ (parent_lt hi).ne, he j hij.ne']
    exact (h i hi (hij.trans hjn)).trans (hp ▸ h j hj hjn)

/-- A key that was raised may be too large for its place. -/
theorem Ordered.downHole_of_le {k' : ℕ → κ} (h : Ordered d k n) (he : ∀ j, j ≠ i → k' j = k j)
    (hle : k i ≤ k' i) : DownHole d k' n i where
  except j hj hjn hne := by
    rw [he _ hne]
    by_cases hji : j = i
    · subst j
      exact (h i hj hjn).trans hle
    · rw [he j hji]
      exact h j hj hjn
  grand hi j hj hjn hp := by
    have hij : i < j := hp ▸ parent_lt hj
    rw [he _ (parent_lt hi).ne, he j hij.ne']
    exact (h i hi (hij.trans hjn)).trans (hp ▸ h j hj hjn)

theorem UpHole.ordered (h : UpHole d k n i) (hs : 0 < i → k (parent d i) ≤ k i) :
    Ordered d k n := by
  intro j hj hjn
  by_cases hji : j = i
  · subst j
    exact hs hj
  · exact h.except j hj hjn hji

theorem DownHole.ordered (h : DownHole d k n i)
    (hs : ∀ j, 0 < j → j < n → parent d j = i → k i ≤ k j) : Ordered d k n := by
  intro j hj hjn
  by_cases hp : parent d j = i
  · rw [hp]
    exact hs j hj hjn hp
  · exact h.except j hj hjn hp

/-- One upward exchange. The moved key is smaller than its old parent, hence
smaller than everything the old parent bounded. -/
theorem UpHole.swap (h : UpHole d k n i) (hi : 0 < i) (hin : i < n)
    (hlt : k i < k (parent d i)) :
    UpHole d (k ∘ Equiv.swap (parent d i) i) n (parent d i) := by
  have hpi := parent_lt (d := d) hi
  constructor
  · intro j hj hjn hne
    have hpj := parent_lt (d := d) hj
    simp only [Function.comp, Equiv.swap_apply_def]
    by_cases hji : j = i
    · subst j
      simp [hpi.ne', hlt.le]
    · rw [if_neg hne, if_neg hji]
      by_cases hpp : parent d j = parent d i
      · rw [if_pos hpp]
        exact hlt.le.trans (hpp ▸ h.except j hj hjn hji)
      · rw [if_neg hpp]
        by_cases hpj' : parent d j = i
        · rw [if_pos hpj']
          exact h.grand hi j hj hjn hpj'
        · rw [if_neg hpj']
          exact h.except j hj hjn hji
  · intro hp j hj hjn hpj
    have hpp := parent_lt (d := d) hp
    have hup : k (parent d (parent d i)) ≤ k (parent d i) :=
      h.except _ hp (hpi.trans hin) hpi.ne
    have hjp : j ≠ parent d i := by
      intro he
      have := parent_lt (d := d) hj
      omega
    simp only [Function.comp, Equiv.swap_apply_def]
    rw [if_neg hpp.ne, if_neg (by omega), if_neg hjp]
    by_cases hji : j = i
    · rw [if_pos hji]
      exact hup
    · rw [if_neg hji]
      exact hup.trans (hpj ▸ h.except j hj hjn hji)

/-- One downward exchange with a smallest child. -/
theorem DownHole.swap {c : ℕ} (h : DownHole d k n i) (hc : 0 < c) (hcn : c < n)
    (hp : parent d c = i) (hlt : k c < k i)
    (hmin : ∀ j, 0 < j → j < n → parent d j = i → k c ≤ k j) :
    DownHole d (k ∘ Equiv.swap i c) n c := by
  have hic : i < c := hp ▸ parent_lt hc
  constructor
  · intro j hj hjn hne
    have hpj := parent_lt (d := d) hj
    simp only [Function.comp, Equiv.swap_apply_def]
    rw [if_neg hne]
    by_cases hpi : parent d j = i
    · rw [if_pos hpi]
      by_cases hjc : j = c
      · rw [hjc, if_neg (by omega), if_pos rfl]
        exact hlt.le
      · rw [if_neg (by omega), if_neg hjc]
        exact hmin j hj hjn hpi
    · rw [if_neg hpi]
      by_cases hji : j = i
      · rw [if_pos hji]
        subst j
        exact h.grand hj c hc hcn hp
      · rw [if_neg hji]
        have hjc : j ≠ c := by
          intro he
          exact hpi (he ▸ hp)
        rw [if_neg hjc]
        exact h.except j hj hjn hpi
  · intro _ j hj hjn hpj
    have hcj : c < j := hpj ▸ parent_lt hj
    simp only [Function.comp, Equiv.swap_apply_def]
    rw [hp, if_pos rfl, if_neg (by omega), if_neg (by omega)]
    have := h.except j hj hjn (by omega)
    rwa [hpj] at this

end DaryHeap
