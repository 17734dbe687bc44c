import JanusRT.Lib.DaryHeap
import Mathlib.Algebra.BigOperators.Group.Finset.Basic
import Mathlib.Algebra.Order.Group.Multiset

/-!
# The 4-ary minimum heap

The node array, the two sifts and the three entry points of `heap.c`. Keys are
`uint64_t` values, read as natural numbers because the code only compares them.
The array is a total function: the slots from `len` on keep what was last written
there, which is what the stale `idx` fields of popped slots depend on.

`contents` forgets the array and keeps the multiset of stored pairs. Push adds one
pair to it, pop removes a pair of least key, and both keep `Wf`.
-/
namespace JanusRT.Heap
open scoped BigOperators

/-- `HEAP_D`. -/
def heapD : ℕ := 4

/-- `SIZE_MAX`, the `idx` of a node that was popped. -/
def sizeMax : ℕ := 2 ^ 64 - 1

structure HeapNode (α : Type*) where
  key : ℕ
  val : α
  idx : ℕ
  deriving Repr, DecidableEq

structure MinHeap (α : Type*) where
  a : ℕ → HeapNode α
  len : ℕ
  cap : ℕ

variable {α : Type*}

def heapInit (storage : ℕ → HeapNode α) (cap : ℕ) : MinHeap α := ⟨storage, 0, cap⟩

def heapEmpty (h : MinHeap α) : Bool := h.len == 0

def heapFull (h : MinHeap α) : Bool := h.len == h.cap

def parent (i : ℕ) : ℕ := DaryHeap.parent heapD i

def child (i k : ℕ) : ℕ := heapD * i + 1 + k

/-- Store one node. -/
def MinHeap.set (h : MinHeap α) (i : ℕ) (x : HeapNode α) : MinHeap α :=
  { h with a := Function.update h.a i x }

@[simp] theorem set_len (h : MinHeap α) (i : ℕ) (x : HeapNode α) : (h.set i x).len = h.len := rfl

@[simp] theorem set_cap (h : MinHeap α) (i : ℕ) (x : HeapNode α) : (h.set i x).cap = h.cap := rfl

theorem set_a (h : MinHeap α) (i j : ℕ) (x : HeapNode α) :
    (h.set i x).a j = if j = i then x else h.a j := by
  simp [MinHeap.set, Function.update_apply]

/-- The three copies through `tmp`, then both `idx` fields. -/
def swapNodes (h : MinHeap α) (i j : ℕ) : MinHeap α :=
  let tmp := h.a i
  let h := h.set i (h.a j)
  let h := h.set j tmp
  let h := h.set i { h.a i with idx := i }
  h.set j { h.a j with idx := j }

@[simp] theorem swapNodes_len (h : MinHeap α) (i j : ℕ) : (swapNodes h i j).len = h.len := rfl

@[simp] theorem swapNodes_cap (h : MinHeap α) (i j : ℕ) : (swapNodes h i j).cap = h.cap := rfl

def siftUp (h : MinHeap α) (i : ℕ) : MinHeap α :=
  if 0 < i then
    if (h.a (parent i)).key ≤ (h.a i).key then h
    else siftUp (swapNodes h (parent i) i) (parent i)
  else h
termination_by i
decreasing_by exact DaryHeap.parent_lt ‹_›

/-- The inner loop of `sift_down`: `n` children from `c` on against the best so far. -/
def bestChild (h : MinHeap α) : ℕ → ℕ → ℕ → ℕ
  | 0, _, best => best
  | n + 1, c, best =>
    bestChild h n (c + 1) (if (h.a c).key < (h.a best).key then c else best)

/-- The clamp of the last, possibly partial, family of children. -/
def lastChild (h : MinHeap α) (i : ℕ) : ℕ :=
  if h.len < child i 0 + heapD then h.len else child i 0 + heapD

def minChild (h : MinHeap α) (i : ℕ) : ℕ :=
  bestChild h (lastChild h i - child i 0) (child i 0) i

/-- The winner is the start value or one of the scanned positions. -/
theorem bestChild_mem (h : MinHeap α) (n c best : ℕ) :
    bestChild h n c best = best ∨
      (c ≤ bestChild h n c best ∧ bestChild h n c best < c + n) := by
  induction n generalizing c best with
  | zero => exact Or.inl rfl
  | succ n ih =>
    simp only [bestChild]
    rcases ih (c + 1) (if (h.a c).key < (h.a best).key then c else best) with he | hb
    · rw [he]
      split_ifs
      · right; omega
      · left; rfl
    · right; omega

theorem minChild_mem (h : MinHeap α) (i : ℕ) (hi : child i 0 < h.len) :
    minChild h i = i ∨ (child i 0 ≤ minChild h i ∧ minChild h i < h.len ∧
      minChild h i < child i 0 + heapD) := by
  have hm := bestChild_mem h (lastChild h i - child i 0) (child i 0) i
  unfold minChild lastChild at *
  split_ifs at * <;> omega

def siftDown (h : MinHeap α) (i : ℕ) : MinHeap α :=
  if child i 0 < h.len then
    if minChild h i = i then h
    else siftDown (swapNodes h i (minChild h i)) (minChild h i)
  else h
termination_by h.len - i
decreasing_by
  have hm := minChild_mem h i ‹_›
  simp only [swapNodes_len]
  simp only [child, heapD] at *
  omega

/-- Returns 0 on success and -1 when the heap is full. -/
def heapPush (h : MinHeap α) (key : ℕ) (data : α) : ℤ × MinHeap α :=
  if heapFull h then (-1, h)
  else
    let i := h.len
    let h := { h with len := h.len + 1 }
    (0, siftUp (h.set i ⟨key, data, i⟩) i)

/-- `none` is the NULL written to `*data`; `*key` is left alone in that case. -/
def heapPop (h : MinHeap α) : Option (ℕ × α) × MinHeap α :=
  if heapEmpty h then (none, h)
  else
    let min := h.a 0
    let h := h.set 0 { min with idx := sizeMax }
    let h := { h with len := h.len - 1 }
    if h.len = 0 then (some (min.key, min.val), h)
    else
      let h := h.set 0 (h.a h.len)
      let h := h.set 0 { h.a 0 with idx := 0 }
      (some (min.key, min.val), siftDown h 0)

def heapPeek (h : MinHeap α) : Option (ℕ × α) :=
  if heapEmpty h then none else some ((h.a 0).key, (h.a 0).val)

/-! ## What a node array stores -/

def pair (x : HeapNode α) : ℕ × α := (x.key, x.val)

/-- The multiset of stored pairs. -/
def contents (h : MinHeap α) : Multiset (ℕ × α) :=
  ∑ i ∈ Finset.range h.len, {pair (h.a i)}

theorem mem_contents {h : MinHeap α} {x : ℕ × α} :
    x ∈ contents h ↔ ∃ i, i < h.len ∧ pair (h.a i) = x := by
  simp [contents, Multiset.mem_sum, eq_comm]

@[simp] theorem card_contents (h : MinHeap α) : (contents h).card = h.len := by
  simp [contents]

theorem contents_eq_zero {h : MinHeap α} : contents h = 0 ↔ h.len = 0 := by
  rw [← Multiset.card_eq_zero, card_contents]

@[simp] theorem contents_heapInit (storage : ℕ → HeapNode α) (cap : ℕ) :
    contents (heapInit storage cap) = 0 := by simp [contents, heapInit]

/-- No node has a smaller key than its parent. -/
def HeapOrdered (h : MinHeap α) : Prop := DaryHeap.Ordered heapD (fun i => (h.a i).key) h.len

/-- Every node records its own position. -/
def Indexed (h : MinHeap α) : Prop := ∀ i, i < h.len → (h.a i).idx = i

/-- Heap order, positions recorded in the nodes, and the capacity bound. -/
structure Wf (h : MinHeap α) : Prop where
  ordered : DaryHeap.Ordered heapD (fun i => (h.a i).key) h.len
  idx : ∀ i, i < h.len → (h.a i).idx = i
  le_cap : h.len ≤ h.cap

theorem heapInit_wf (storage : ℕ → HeapNode α) (cap : ℕ) : Wf (heapInit storage cap) where
  ordered := by
    intro j _ hj
    simp [heapInit] at hj
  idx := by simp [heapInit]
  le_cap := Nat.zero_le _

/-! ## Exchanges and sifts -/

theorem swapNodes_pair (h : MinHeap α) (i j x : ℕ) :
    pair ((swapNodes h i j).a x) = pair (h.a (Equiv.swap i j x)) := by
  simp only [swapNodes, set_a, Equiv.swap_apply_def, pair]
  by_cases hj : x = j
  · by_cases hi : x = i
    · simp [← hi, ← hj]
    · simp [← hj, hi]
  · by_cases hi : x = i
    · simp [← hi, hj]
    · simp [hi, hj]

theorem swapNodes_key (h : MinHeap α) (i j x : ℕ) :
    ((swapNodes h i j).a x).key = (h.a (Equiv.swap i j x)).key :=
  congrArg Prod.fst (swapNodes_pair h i j x)

theorem swapNodes_idx (h : MinHeap α) (i j x : ℕ) :
    ((swapNodes h i j).a x).idx = if x = i ∨ x = j then x else (h.a x).idx := by
  simp only [swapNodes, set_a]
  by_cases hj : x = j
  · simp [hj]
  · by_cases hi : x = i
    · simp [← hi, hj]
    · simp [hi, hj]

theorem swapNodes_contents (h : MinHeap α) {i j : ℕ} (hi : i < h.len) (hj : j < h.len) :
    contents (swapNodes h i j) = contents h := by
  simp only [contents, swapNodes_len, swapNodes_pair]
  refine Finset.sum_equiv (Equiv.swap i j) ?_ (fun _ _ => rfl)
  intro x
  simp only [Finset.mem_range, Equiv.swap_apply_def]
  split_ifs <;> omega

/-- What a sift may change: nothing but the arrangement. -/
structure Rearranged (h h' : MinHeap α) : Prop where
  len : h'.len = h.len
  cap : h'.cap = h.cap
  contents : contents h' = contents h
  idx : (∀ i, i < h.len → (h.a i).idx = i) → ∀ i, i < h.len → (h'.a i).idx = i

theorem Rearranged.refl (h : MinHeap α) : Rearranged h h := ⟨rfl, rfl, rfl, id⟩

theorem Rearranged.trans {h₁ h₂ h₃ : MinHeap α} (h : Rearranged h₁ h₂)
    (h' : Rearranged h₂ h₃) : Rearranged h₁ h₃ where
  len := h'.len.trans h.len
  cap := h'.cap.trans h.cap
  contents := h'.contents.trans h.contents
  idx hi i hlt := h'.idx (fun j hj => h.idx hi j (by rwa [h.len] at hj)) i (by rwa [h.len])

theorem swapNodes_rearranged (h : MinHeap α) {i j : ℕ} (hi : i < h.len) (hj : j < h.len) :
    Rearranged h (swapNodes h i j) where
  len := rfl
  cap := rfl
  contents := swapNodes_contents h hi hj
  idx hidx x hx := by
    rw [swapNodes_idx]
    split_ifs
    · rfl
    · exact hidx x hx

theorem siftUp_spec (h : MinHeap α) (i : ℕ) (hi : i < h.len)
    (hole : DaryHeap.UpHole heapD (fun j => (h.a j).key) h.len i) :
    Rearranged h (siftUp h i) ∧
      DaryHeap.Ordered heapD (fun j => ((siftUp h i).a j).key) h.len := by
  induction h, i using siftUp.induct with
  | case1 h i hpos hle =>
    rw [siftUp, if_pos hpos, if_pos hle]
    exact ⟨Rearranged.refl h, hole.ordered (fun _ => hle)⟩
  | case2 h i hpos hgt ih =>
    rw [siftUp, if_pos hpos, if_neg hgt]
    have hp : parent i < h.len := DaryHeap.parent_lt_of_lt hpos hi
    have hstep := hole.swap hpos hi (lt_of_not_ge hgt)
    have hkeys : (fun j => ((swapNodes h (parent i) i).a j).key) =
        (fun j => (h.a j).key) ∘ Equiv.swap (DaryHeap.parent heapD i) i := by
      funext j
      exact swapNodes_key h (parent i) i j
    obtain ⟨hre, hord⟩ := ih hp (by rw [hkeys]; exact hstep)
    exact ⟨(swapNodes_rearranged h hp hi).trans hre, hord⟩
  | case3 h i hz =>
    rw [siftUp, if_neg hz]
    exact ⟨Rearranged.refl h, hole.ordered (fun hpos => absurd hpos hz)⟩

/-- The scan keeps a minimum of the start value and the scanned children. -/
theorem bestChild_le (h : MinHeap α) (n c best : ℕ) :
    (h.a (bestChild h n c best)).key ≤ (h.a best).key ∧
      ∀ j, c ≤ j → j < c + n → (h.a (bestChild h n c best)).key ≤ (h.a j).key := by
  induction n generalizing c best with
  | zero =>
    refine ⟨le_rfl, ?_⟩
    intro j hj hlt
    omega
  | succ n ih =>
    simp only [bestChild]
    obtain ⟨hbest, hrest⟩ := ih (c + 1) (if (h.a c).key < (h.a best).key then c else best)
    have hc : (h.a (if (h.a c).key < (h.a best).key then c else best)).key ≤ (h.a c).key := by
      split_ifs <;> omega
    have hb : (h.a (if (h.a c).key < (h.a best).key then c else best)).key ≤ (h.a best).key := by
      split_ifs <;> omega
    refine ⟨hbest.trans hb, ?_⟩
    intro j hj hlt
    by_cases hjc : j = c
    · exact hjc ▸ hbest.trans hc
    · exact hrest j (by omega) (by omega)

/-- A scan that moved away from its start value found a strictly smaller key. -/
theorem bestChild_lt (h : MinHeap α) (n c best : ℕ) (hne : bestChild h n c best ≠ best) :
    (h.a (bestChild h n c best)).key < (h.a best).key := by
  induction n generalizing c best with
  | zero => exact absurd rfl hne
  | succ n ih =>
    simp only [bestChild] at hne ⊢
    split_ifs at hne ⊢ with hc
    · exact (bestChild_le h n (c + 1) c).1.trans_lt hc
    · exact ih (c + 1) best hne

theorem minChild_le (h : MinHeap α) (i j : ℕ) (hj : 0 < j) (hjn : j < h.len)
    (hp : DaryHeap.parent heapD j = i) : (h.a (minChild h i)).key ≤ (h.a j).key := by
  rw [DaryHeap.parent_eq_iff (by decide) hj] at hp
  refine (bestChild_le h _ (child i 0) i).2 j ?_ ?_
  · simpa [child] using hp.1
  · have hlast : j < lastChild h i := by
      unfold lastChild
      split_ifs <;> simp only [child, heapD] at * <;> omega
    omega

theorem siftDown_spec (h : MinHeap α) (i : ℕ) (hi : i < h.len)
    (hole : DaryHeap.DownHole heapD (fun j => (h.a j).key) h.len i) :
    Rearranged h (siftDown h i) ∧
      DaryHeap.Ordered heapD (fun j => ((siftDown h i).a j).key) h.len := by
  induction h, i using siftDown.induct with
  | case1 h i hlt hbest =>
    rw [siftDown, if_pos hlt, if_pos hbest]
    refine ⟨Rearranged.refl h, hole.ordered ?_⟩
    intro j hj hjn hp
    have := minChild_le h i j hj hjn hp
    rwa [hbest] at this
  | case2 h i hlt hbest ih =>
    rw [siftDown, if_pos hlt, if_neg hbest]
    obtain hm | ⟨hlo, hn, hhi⟩ := minChild_mem h i hlt
    · exact absurd hm hbest
    have hpos : 0 < minChild h i := by
      simp only [child, heapD] at hlo
      omega
    have hp : DaryHeap.parent heapD (minChild h i) = i := by
      rw [DaryHeap.parent_eq_iff (by decide) hpos]
      simpa [child] using And.intro hlo hhi
    have hsmall : (h.a (minChild h i)).key < (h.a i).key := bestChild_lt h _ _ _ hbest
    have hstep := hole.swap hpos hn hp hsmall (fun j hj hjn hpj => minChild_le h i j hj hjn hpj)
    have hkeys : (fun j => ((swapNodes h i (minChild h i)).a j).key) =
        (fun j => (h.a j).key) ∘ Equiv.swap i (minChild h i) := by
      funext j
      exact swapNodes_key h i (minChild h i) j
    obtain ⟨hre, hord⟩ := ih hn (by rw [hkeys]; exact hstep)
    exact ⟨(swapNodes_rearranged h hi hn).trans hre, hord⟩
  | case3 h i hge =>
    rw [siftDown, if_neg hge]
    refine ⟨Rearranged.refl h, hole.ordered ?_⟩
    intro j hj hjn hp
    rw [DaryHeap.parent_eq_iff (by decide) hj] at hp
    simp only [child, heapD] at *
    omega

/-! ## The priority-queue contract -/

theorem heapPush_full (h : MinHeap α) (key : ℕ) (data : α) (hf : h.len = h.cap) :
    heapPush h key data = (-1, h) := by simp [heapPush, heapFull, hf]

/-- A push below capacity succeeds and adds exactly the pushed pair. -/
theorem heapPush_ordered (h : MinHeap α) (key : ℕ) (data : α) (ho : HeapOrdered h)
    (hlt : h.len < h.cap) :
    ∃ h', heapPush h key data = (0, h') ∧ HeapOrdered h' ∧ (Indexed h → Indexed h') ∧
      h'.len = h.len + 1 ∧ h'.cap = h.cap ∧ contents h' = (key, data) ::ₘ contents h := by
  let h₁ : MinHeap α := { h with len := h.len + 1 }
  let h₂ := h₁.set h.len ⟨key, data, h.len⟩
  have hold : ∀ i, i < h.len → h₂.a i = h.a i := by
    intro i hi
    simp only [h₂, set_a]
    rw [if_neg (by omega)]
  have hnew : h₂.a h.len = ⟨key, data, h.len⟩ := by simp [h₂, set_a]
  have hord : DaryHeap.Ordered heapD (fun j => (h₂.a j).key) h.len :=
    ho.congr (fun j hj => by rw [hold j hj])
  obtain ⟨hre, hord'⟩ := siftUp_spec h₂ h.len (Nat.lt_succ_self _) hord.upHole_append
  have hcont : contents h₂ = (key, data) ::ₘ contents h := by
    change ∑ i ∈ Finset.range (h.len + 1), {pair (h₂.a i)} = _
    rw [Finset.sum_range_succ, hnew, add_comm, Multiset.singleton_add]
    refine congrArg _ (Finset.sum_congr rfl ?_)
    intro i hi
    rw [hold i (Finset.mem_range.mp hi)]
  refine ⟨siftUp h₂ h.len, ?_, ?_, ?_, hre.len, hre.cap, hre.contents.trans hcont⟩
  · simp [heapPush, heapFull, hlt.ne, h₂, h₁]
  · rw [HeapOrdered, hre.len]
    exact hord'
  · intro hidx
    rw [Indexed, hre.len]
    apply hre.idx
    intro i hi
    by_cases he : i = h.len
    · rw [he, hnew]
    · rw [hold i (by simp only [h₂, h₁, set_len] at hi; omega)]
      exact hidx i (by simp only [h₂, h₁, set_len] at hi; omega)

theorem heapPush_spec (h : MinHeap α) (key : ℕ) (data : α) (hw : Wf h) (hlt : h.len < h.cap) :
    ∃ h', heapPush h key data = (0, h') ∧ Wf h' ∧ h'.len = h.len + 1 ∧ h'.cap = h.cap ∧
      contents h' = (key, data) ::ₘ contents h := by
  obtain ⟨h', hpush, hord, hidx, hlen, hcap, hcont⟩ := heapPush_ordered h key data hw.ordered hlt
  exact ⟨h', hpush, ⟨hord, hidx hw.idx, by omega⟩, hlen, hcap, hcont⟩

theorem heapPop_empty (h : MinHeap α) (hz : h.len = 0) : heapPop h = (none, h) := by
  simp [heapPop, heapEmpty, hz]

theorem heapPeek_empty (h : MinHeap α) (hz : h.len = 0) : heapPeek h = none := by
  simp [heapPeek, heapEmpty, hz]

/-- The root pair is stored and has the least key. -/
theorem heapPeek_spec (h : MinHeap α) (ho : HeapOrdered h) (hpos : 0 < h.len) :
    ∃ key data, heapPeek h = some (key, data) ∧ (key, data) ∈ contents h ∧
      ∀ x ∈ contents h, key ≤ x.1 := by
  refine ⟨(h.a 0).key, (h.a 0).val, ?_, mem_contents.mpr ⟨0, hpos, rfl⟩, ?_⟩
  · simp [heapPeek, heapEmpty, hpos.ne']
  · intro x hx
    obtain ⟨i, hi, rfl⟩ := mem_contents.mp hx
    exact ho.root_le i hi

theorem heapPeek_none {h : MinHeap α} (hp : heapPeek h = none) : contents h = 0 := by
  apply contents_eq_zero.mpr
  by_contra hz
  simp [heapPeek, heapEmpty, hz] at hp

theorem heapPeek_some {h : MinHeap α} (ho : HeapOrdered h) {key : ℕ} {data : α}
    (hp : heapPeek h = some (key, data)) :
    (key, data) ∈ contents h ∧ ∀ x ∈ contents h, key ≤ x.1 := by
  have hpos : 0 < h.len := by
    by_contra hz
    rw [heapPeek_empty h (Nat.eq_zero_of_not_pos hz)] at hp
    cases hp
  obtain ⟨key', data', hp', hmem, hmin⟩ := heapPeek_spec h ho hpos
  simp only [hp, Option.some.injEq, Prod.mk.injEq] at hp'
  obtain ⟨rfl, rfl⟩ := hp'
  exact ⟨hmem, hmin⟩

/-- A pop of a nonempty heap returns the peeked pair and removes one occurrence of it. -/
theorem heapPop_ordered (h : MinHeap α) (ho : HeapOrdered h) (hpos : 0 < h.len) :
    ∃ key data h', heapPop h = (some (key, data), h') ∧ heapPeek h = some (key, data) ∧
      HeapOrdered h' ∧ (Indexed h → Indexed h') ∧ h'.len + 1 = h.len ∧ h'.cap = h.cap ∧
      contents h = (key, data) ::ₘ contents h' := by
  have hpeek : heapPeek h = some ((h.a 0).key, (h.a 0).val) := by
    simp [heapPeek, heapEmpty, hpos.ne']
  by_cases hone : h.len = 1
  · refine ⟨_, _, { h.set 0 { h.a 0 with idx := sizeMax } with len := 0 }, ?_, hpeek,
      ?_, ?_, ?_, rfl, ?_⟩
    · simp [heapPop, heapEmpty, hone]
    · intro j _ hj
      simp at hj
    · intro _ i hi
      simp at hi
    · simp [hone]
    · simp [contents, hone, pair]
  · let last := h.len - 1
    let h₁ : MinHeap α := { h.set 0 { h.a 0 with idx := sizeMax } with len := last }
    let h₂ := (h₁.set 0 (h₁.a last)).set 0 { (h₁.set 0 (h₁.a last)).a 0 with idx := 0 }
    have hlast : 0 < last := by omega
    have hroot : h₂.a 0 = { h.a last with idx := 0 } := by
      simp [h₂, h₁, set_a, hlast.ne']
    have hrest : ∀ j, 0 < j → h₂.a j = h.a j := by
      intro j hj
      simp [h₂, h₁, set_a, hj.ne']
    have hord : DaryHeap.Ordered heapD (fun j => (h.a j).key) last := ho.mono (by omega)
    have hole : DaryHeap.DownHole heapD (fun j => (h₂.a j).key) last 0 :=
      hord.downHole_root (fun j hj _ => by rw [hrest j hj])
    obtain ⟨hre, hord'⟩ := siftDown_spec h₂ 0 hlast hole
    -- moving the last node to the root stores all pairs but the old root's
    have hcont : contents h = pair (h.a 0) ::ₘ contents h₂ := by
      obtain ⟨m, hm⟩ : ∃ m, last = m + 1 := ⟨last - 1, by omega⟩
      have hl : h.len = m + 1 + 1 := by omega
      have hsum : ∑ i ∈ Finset.range m, ({pair (h₂.a (i + 1))} : Multiset (ℕ × α)) =
          ∑ i ∈ Finset.range m, {pair (h.a (i + 1))} :=
        Finset.sum_congr rfl (fun i _ => by rw [hrest (i + 1) (Nat.succ_pos i)])
      have hnew : contents h₂ = ∑ i ∈ Finset.range (m + 1), {pair (h₂.a i)} := by
        change ∑ i ∈ Finset.range last, {pair (h₂.a i)} = _
        rw [hm]
      have hp : pair (h₂.a 0) = pair (h.a (m + 1)) := by rw [hroot, ← hm]; rfl
      rw [hnew, Finset.sum_range_succ', hsum, hp, contents, hl, Finset.sum_range_succ,
        Finset.sum_range_succ', ← Multiset.singleton_add]
      abel
    refine ⟨_, _, siftDown h₂ 0, ?_, hpeek, ?_, ?_, ?_, hre.cap, ?_⟩
    · have hne : h.len - 1 ≠ 0 := by omega
      simp [heapPop, heapEmpty, hpos.ne', hne, h₂, h₁, last]
    · rw [HeapOrdered, hre.len]
      exact hord'
    · intro hidx
      rw [Indexed, hre.len]
      apply hre.idx
      intro i hi
      by_cases hz : i = 0
      · rw [hz, hroot]
      · rw [hrest i (Nat.pos_of_ne_zero hz)]
        apply hidx i
        simp only [h₂, h₁, set_len] at hi
        omega
    · rw [hre.len]
      simp only [h₂, h₁, set_len]
      omega
    · rw [hre.contents]
      exact hcont

theorem heapPop_spec (h : MinHeap α) (hw : Wf h) (hpos : 0 < h.len) :
    ∃ key data h', heapPop h = (some (key, data), h') ∧ heapPeek h = some (key, data) ∧
      Wf h' ∧ h'.len + 1 = h.len ∧ h'.cap = h.cap ∧ contents h = (key, data) ::ₘ contents h' := by
  obtain ⟨key, data, h', hpop, hpeek, hord, hidx, hlen, hcap, hcont⟩ :=
    heapPop_ordered h hw.ordered hpos
  have hle := hw.le_cap
  exact ⟨key, data, h', hpop, hpeek, ⟨hord, hidx hw.idx, by omega⟩, hlen, hcap, hcont⟩

end JanusRT.Heap
