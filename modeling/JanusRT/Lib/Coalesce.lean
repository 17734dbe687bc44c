import Mathlib.Tactic

/-!
# Joining adjacent blocks

A block sends consecutive points to consecutive points. From a list of blocks every block
that continues the one before it on both sides is joined to it. The points stay the same,
in the same order, and no two neighbours of the result could be joined again.
-/
namespace Coalesce

/-- The `len` points from `src` on, sent to those from `dst` on. -/
structure Block where
  src : ℕ
  dst : ℕ
  len : ℕ
  deriving DecidableEq, Repr

namespace Block

/-- The second block goes on where the first ends. -/
def Joins (a b : Block) : Prop := a.src + a.len = b.src ∧ a.dst + a.len = b.dst

instance : DecidableRel Joins := fun _ _ => inferInstanceAs (Decidable (_ ∧ _))

/-- The first block ends before the second starts. -/
def Before (a b : Block) : Prop := a.src + a.len ≤ b.src

def extend (a : Block) (n : ℕ) : Block := { a with len := a.len + n }

/-- Every `step`-th point with its image. -/
def points (step : ℕ) (a : Block) : List (ℕ × ℕ) :=
  (List.range (a.len / step)).map fun j => (a.src + step * j, a.dst + step * j)

variable {a b : Block} {step : ℕ}

theorem points_extend (hab : a.Joins b) (hpos : 0 < step) (hdvd : step ∣ a.len) :
    (a.extend b.len).points step = a.points step ++ b.points step := by
  obtain ⟨n, hn⟩ := hdvd
  obtain ⟨hsrc, hdst⟩ := hab
  have hcount : (a.len + b.len) / step = n + b.len / step := by
    rw [hn, Nat.mul_add_div hpos]
  have hlen : a.len / step = n := by
    rw [hn, Nat.mul_div_cancel_left n hpos]
  unfold points extend
  dsimp only
  rw [hcount, hlen, List.range_add, List.map_append, List.map_map, ← hsrc, ← hdst, hn]
  congr 1
  apply List.map_congr_left
  intro j _
  simp only [Function.comp_apply, Nat.mul_add, Nat.add_assoc]

theorem points_one (h : a.len = step) (hpos : 0 < step) : a.points step = [(a.src, a.dst)] := by
  simp [points, h, Nat.div_self hpos]

end Block

open Block

/-- Join from the left; the first argument is the block that may still grow. -/
def join : Block → List Block → List Block
  | p, [] => [p]
  | p, b :: l => if p.Joins b then join (p.extend b.len) l else p :: join b l

variable {p b : Block} {l : List Block} {step : ℕ}

theorem join_of_joins (h : p.Joins b) : join p (b :: l) = join (p.extend b.len) l := if_pos h

theorem join_of_not (h : ¬ p.Joins b) : join p (b :: l) = p :: join b l := if_neg h

/-- Joining keeps the points and their order. -/
theorem points_join (hpos : 0 < step) (hdvd : ∀ a ∈ p :: l, step ∣ a.len) :
    (join p l).flatMap (points step) = (p :: l).flatMap (points step) := by
  induction l generalizing p with
  | nil => rfl
  | cons b l ih =>
    have hp := hdvd p List.mem_cons_self
    have hb := hdvd b (List.mem_cons_of_mem p List.mem_cons_self)
    have hl : ∀ a ∈ l, step ∣ a.len := fun a ha =>
      hdvd a (List.mem_cons_of_mem p (List.mem_cons_of_mem b ha))
    by_cases hjoin : p.Joins b
    · rw [join_of_joins hjoin, ih]
      · rw [List.flatMap_cons, points_extend hjoin hpos hp, List.flatMap_cons, List.flatMap_cons,
          List.append_assoc]
      · intro a ha
        obtain rfl | ha := List.mem_cons.mp ha
        · exact Nat.dvd_add hp hb
        · exact hl a ha
    · rw [join_of_not hjoin, List.flatMap_cons, ih, List.flatMap_cons (x := p)]
      intro a ha
      exact hdvd a (List.mem_cons_of_mem p ha)

/-- The first block of the result starts where the first block does. -/
theorem join_head (p : Block) (l : List Block) :
    ∃ q rest, join p l = q :: rest ∧ q.src = p.src ∧ q.dst = p.dst := by
  induction l generalizing p with
  | nil => exact ⟨p, [], rfl, rfl, rfl⟩
  | cons b l ih =>
    by_cases hjoin : p.Joins b
    · rw [join_of_joins hjoin]
      exact ih (p.extend b.len)
    · rw [join_of_not hjoin]
      exact ⟨p, join b l, rfl, rfl, rfl⟩

/-- No two neighbours of the result join. -/
theorem isChain_join (p : Block) (l : List Block) : (join p l).IsChain fun a b => ¬ a.Joins b := by
  induction l generalizing p with
  | nil => exact .singleton p
  | cons b l ih =>
    by_cases hjoin : p.Joins b
    · rw [join_of_joins hjoin]
      exact ih (p.extend b.len)
    · rw [join_of_not hjoin]
      obtain ⟨q, rest, hq, hsrc, hdst⟩ := join_head b l
      have hchain := ih b
      rw [hq] at hchain ⊢
      apply List.IsChain.cons_cons ?_ hchain
      unfold Joins
      rw [hsrc, hdst]
      exact hjoin

/-- A block of the result starts with a block of the list. -/
theorem exists_of_mem_join {a : Block} (h : a ∈ join p l) : ∃ c ∈ p :: l, a.src = c.src := by
  induction l generalizing p with
  | nil => exact ⟨a, h, rfl⟩
  | cons b l ih =>
    by_cases hjoin : p.Joins b
    · rw [join_of_joins hjoin] at h
      obtain ⟨c, hc, hsrc⟩ := ih h
      obtain rfl | hc := List.mem_cons.mp hc
      · exact ⟨p, List.mem_cons_self, hsrc⟩
      · exact ⟨c, List.mem_cons_of_mem p (List.mem_cons_of_mem b hc), hsrc⟩
    · rw [join_of_not hjoin] at h
      obtain rfl | h := List.mem_cons.mp h
      · exact ⟨a, List.mem_cons_self, rfl⟩
      · obtain ⟨c, hc, hsrc⟩ := ih h
        exact ⟨c, List.mem_cons_of_mem p hc, hsrc⟩

/-- Blocks in order stay in order. -/
theorem pairwise_join (h : (p :: l).Pairwise Before) : (join p l).Pairwise Before := by
  induction l generalizing p with
  | nil => exact h
  | cons b l ih =>
    obtain ⟨hp, hrest⟩ := List.pairwise_cons.mp h
    obtain ⟨hb, hl⟩ := List.pairwise_cons.mp hrest
    by_cases hjoin : p.Joins b
    · rw [join_of_joins hjoin]
      apply ih (List.pairwise_cons.mpr ⟨?_, hl⟩)
      intro c hc
      have hbc := hb c hc
      obtain ⟨hsrc, -⟩ := hjoin
      unfold Before at hbc ⊢
      unfold extend
      dsimp only
      omega
    · rw [join_of_not hjoin]
      apply List.pairwise_cons.mpr ⟨?_, ih hrest⟩
      intro a ha
      obtain ⟨c, hc, hsrc⟩ := exists_of_mem_join ha
      have hpc := hp c hc
      unfold Before at hpc ⊢
      rw [hsrc]
      exact hpc

/-- What holds of all lengths and of sums holds of the lengths of the result. -/
theorem len_of_mem_join {P : ℕ → Prop} (hadd : ∀ m n, P m → P n → P (m + n))
    (h : ∀ a ∈ p :: l, P a.len) : ∀ a ∈ join p l, P a.len := by
  induction l generalizing p with
  | nil => exact h
  | cons b l ih =>
    have hp := h p List.mem_cons_self
    have hb := h b (List.mem_cons_of_mem p List.mem_cons_self)
    by_cases hjoin : p.Joins b
    · rw [join_of_joins hjoin]
      apply ih
      intro a ha
      obtain rfl | ha := List.mem_cons.mp ha
      · exact hadd _ _ hp hb
      · exact h a (List.mem_cons_of_mem p (List.mem_cons_of_mem b ha))
    · rw [join_of_not hjoin]
      intro a ha
      obtain rfl | ha := List.mem_cons.mp ha
      · exact hp
      · exact ih (fun c hc => h c (List.mem_cons_of_mem p hc)) a ha

/-- The result for a list that may be empty. -/
def joinAll : List Block → List Block
  | [] => []
  | p :: l => join p l

/-- The blocks cover the points of a list in order, and as few blocks as possible do. -/
structure Joined (step : ℕ) (l out : List Block) : Prop where
  whole : ∀ a ∈ out, 0 < a.len ∧ step ∣ a.len
  ordered : out.Pairwise Before
  points : out.flatMap (points step) = l.flatMap (points step)
  maximal : out.IsChain fun a b => ¬ a.Joins b

theorem joinAll_joined (hpos : 0 < step) (hlen : ∀ a ∈ l, 0 < a.len ∧ step ∣ a.len)
    (hord : l.Pairwise Before) : Joined step l (joinAll l) := by
  cases l with
  | nil => exact ⟨by simp [joinAll], .nil, rfl, .nil⟩
  | cons p l =>
    refine ⟨?_, pairwise_join hord, points_join hpos fun a ha => (hlen a ha).2, isChain_join p l⟩
    apply len_of_mem_join (P := fun n => 0 < n ∧ step ∣ n) ?_ hlen
    intro m n hm hn
    exact ⟨Nat.add_pos_left hm.1 n, Nat.dvd_add hm.2 hn.2⟩

end Coalesce
