import JanusRT.Lib.RadixTree

/-!
# The values of a radix tree in order

The indices on the way to a value spell its key. A walk through the entries of every node,
from the first to the last and down each link, meets the values by increasing keys.
-/
namespace RadixTree

variable {A E V : Type} {child : E → Option A} {val : E → Option V} {cell : A → ℕ → E}
  {width n key k : ℕ} {a : A} {v : V}

/-- The values `n` levels below a node with their keys. `key` is what the indices on the way
to the node spell. -/
def entries (child : E → Option A) (val : E → Option V) (cell : A → ℕ → E) (width : ℕ) :
    ℕ → A → ℕ → List (ℕ × V)
  | 0, a, key =>
    (List.range width).filterMap fun i => (val (cell a i)).map fun v => (key * width + i, v)
  | n + 1, a, key =>
    (List.range width).flatMap fun i =>
      ((child (cell a i)).map fun b => entries child val cell width n b (key * width + i)).getD []

/-- The number that digits spell after a number. -/
def spell (width key : ℕ) (p : List ℕ) : ℕ := p.foldl (fun acc d => acc * width + d) key

theorem mem_entries_zero : (k, v) ∈ entries child val cell width 0 a key ↔
    ∃ i < width, val (cell a i) = some v ∧ k = key * width + i := by
  simp only [entries, List.mem_filterMap, List.mem_range, Option.map_eq_some_iff, Prod.mk.injEq]
  constructor
  · intro h
    obtain ⟨i, hi, w, hw, rfl, rfl⟩ := h
    exact ⟨i, hi, hw, rfl⟩
  · intro h
    obtain ⟨i, hi, hv, rfl⟩ := h
    exact ⟨i, hi, v, hv, rfl, rfl⟩

theorem mem_entries_succ {e : ℕ × V} : e ∈ entries child val cell width (n + 1) a key ↔
    ∃ i < width, ∃ b, child (cell a i) = some b ∧
      e ∈ entries child val cell width n b (key * width + i) := by
  simp only [entries, List.mem_flatMap, List.mem_range]
  constructor
  · intro h
    obtain ⟨i, hi, he⟩ := h
    cases hc : child (cell a i) with
    | none =>
      rw [hc] at he
      cases he
    | some b =>
      rw [hc] at he
      exact ⟨i, hi, b, hc, he⟩
  · intro h
    obtain ⟨i, hi, b, hc, he⟩ := h
    refine ⟨i, hi, ?_⟩
    rw [hc]
    exact he

/-- The walk meets exactly what the tree stores. -/
theorem mem_entries : (k, v) ∈ entries child val cell width n a key ↔
    ∃ p i, p.length = n ∧ (∀ d ∈ p, d < width) ∧ i < width ∧
      find child val cell a p i = some v ∧ k = spell width key (p ++ [i]) := by
  induction n generalizing a key with
  | zero =>
    rw [mem_entries_zero]
    constructor
    · intro h
      obtain ⟨i, hi, hv, hk⟩ := h
      exact ⟨[], i, rfl, by simp, hi, hv, hk⟩
    · intro h
      obtain ⟨p, i, hp, -, hi, hv, hk⟩ := h
      obtain rfl := List.length_eq_zero_iff.mp hp
      exact ⟨i, hi, hv, hk⟩
  | succ n ih =>
    rw [mem_entries_succ]
    constructor
    · intro h
      obtain ⟨j, hj, b, hc, he⟩ := h
      obtain ⟨p, i, hp, hd, hi, hv, hk⟩ := ih.mp he
      refine ⟨j :: p, i, by rw [List.length_cons, hp], ?_, hi, ?_, hk⟩
      · intro d hmem
        obtain rfl | hmem := List.mem_cons.mp hmem
        · exact hj
        · exact hd d hmem
      · rw [find, descend, hc]
        exact hv
    · intro h
      obtain ⟨p, i, hp, hd, hi, hv, hk⟩ := h
      cases p with
      | nil => cases hp
      | cons j p =>
        rw [find, descend] at hv
        cases hc : child (cell a j) with
        | none =>
          rw [hc] at hv
          cases hv
        | some b =>
          rw [hc] at hv
          exact ⟨j, hd j List.mem_cons_self, b, hc, ih.mpr
            ⟨p, i, Nat.succ.inj hp, fun d hmem => hd d (List.mem_cons_of_mem j hmem), hi, hv, hk⟩⟩

theorem key_bounds (key w : ℕ) {i : ℕ} (hi : i < width) :
    key * (width * w) ≤ (key * width + i) * w ∧
      (key * width + i + 1) * w ≤ (key + 1) * (width * w) := by
  constructor
  · rw [← Nat.mul_assoc]
    exact Nat.mul_le_mul_right w (Nat.le_add_right _ i)
  · have hnext : (key + 1) * width = key * width + width := Nat.add_one_mul key width
    rw [← Nat.mul_assoc, hnext]
    exact Nat.mul_le_mul_right w (by omega)

/-- The keys below a node lie in its interval. -/
theorem entries_bounds (h : (k, v) ∈ entries child val cell width n a key) :
    key * width ^ (n + 1) ≤ k ∧ k < (key + 1) * width ^ (n + 1) := by
  induction n generalizing a key with
  | zero =>
    obtain ⟨i, hi, -, rfl⟩ := mem_entries_zero.mp h
    rw [Nat.zero_add, pow_one, Nat.add_one_mul]
    omega
  | succ n ih =>
    obtain ⟨i, hi, b, -, he⟩ := mem_entries_succ.mp h
    obtain ⟨hlow, hhigh⟩ := ih he
    obtain ⟨hlow', hhigh'⟩ := key_bounds key (width ^ (n + 1)) hi
    rw [pow_succ' width (n + 1)]
    exact ⟨hlow'.trans hlow, hhigh.trans_le hhigh'⟩

theorem entries_sorted (n : ℕ) (a : A) (key : ℕ) :
    (entries child val cell width n a key).Pairwise fun x y => x.1 < y.1 := by
  induction n generalizing a key with
  | zero =>
    rw [entries, List.pairwise_filterMap]
    apply List.pairwise_lt_range.imp
    intro i j hij x hx y hy
    obtain ⟨v, -, rfl⟩ := Option.map_eq_some_iff.mp hx
    obtain ⟨w, -, rfl⟩ := Option.map_eq_some_iff.mp hy
    exact Nat.add_lt_add_left hij _
  | succ n ih =>
    rw [entries, List.pairwise_flatMap]
    constructor
    · intro i _
      cases child (cell a i) with
      | none => exact .nil
      | some b => exact ih b (key * width + i)
    · apply List.pairwise_lt_range.imp
      intro i j hij x hx y hy
      cases hci : child (cell a i) with
      | none =>
        rw [hci] at hx
        cases hx
      | some b =>
        cases hcj : child (cell a j) with
        | none =>
          rw [hcj] at hy
          cases hy
        | some c =>
          rw [hci] at hx
          rw [hcj] at hy
          obtain ⟨-, hxhigh⟩ := entries_bounds (k := x.1) (v := x.2) hx
          obtain ⟨hylow, -⟩ := entries_bounds (k := y.1) (v := y.2) hy
          have hle : (key * width + i + 1) * width ^ (n + 1) ≤
              (key * width + j) * width ^ (n + 1) := Nat.mul_le_mul_right _ (by omega)
          exact hxhigh.trans_le (hle.trans hylow)

/-- Reading the values through a function. -/
theorem find_map {W : Type} {f : V → W} {p : List ℕ} {i : ℕ} :
    find child (fun e => (val e).map f) cell a p i = (find child val cell a p i).map f := by
  unfold find
  cases descend child cell a p <;> rfl

end RadixTree
