import JanusRT.Heap

/-!
# The heap as a priority queue

Abstractly the heap is a multiset of pairs with a capacity. An entry that arrives is
added if there is room for it, and an entry that leaves is one of least key; which one
of several is left open. Every run of the heap is a run of this queue.
-/
namespace JanusRT.Heap

variable {α : Type*}

/-- A call of the heap's interface. -/
inductive Op (α : Type*)
  | push (key : ℕ) (data : α)
  | pop

/-- What a call returns: the status of a push, or the popped pair. -/
inductive Reply (α : Type*)
  | status (s : ℤ)
  | popped (x : Option (ℕ × α))

def apply (h : MinHeap α) : Op α → Reply α × MinHeap α
  | .push key data => (.status (heapPush h key data).1, (heapPush h key data).2)
  | .pop => (.popped (heapPop h).1, (heapPop h).2)

/-- The calls of the queue of capacity `cap` on the multiset `q`. -/
inductive Queue (cap : ℕ) (q : Multiset (ℕ × α)) : Op α → Reply α → Multiset (ℕ × α) → Prop
  | push (key : ℕ) (data : α) (room : q.card < cap) :
      Queue cap q (.push key data) (.status 0) ((key, data) ::ₘ q)
  | full (key : ℕ) (data : α) (noRoom : ¬ q.card < cap) :
      Queue cap q (.push key data) (.status (-1)) q
  | pop (x : ℕ × α) (rest : Multiset (ℕ × α)) (split : q = x ::ₘ rest)
      (least : ∀ y ∈ q, x.1 ≤ y.1) : Queue cap q .pop (.popped (some x)) rest
  | empty (nothing : q = 0) : Queue cap q .pop (.popped none) q

/-- One call on a sound heap is a call of the queue, and a call that fails changes
nothing at all. -/
theorem apply_queue (h : MinHeap α) (hw : Wf h) (op : Op α) :
    Wf (apply h op).2 ∧ (apply h op).2.cap = h.cap ∧
      Queue h.cap (contents h) op (apply h op).1 (contents (apply h op).2) ∧
      ((apply h op).1 = .status (-1) ∨ (apply h op).1 = .popped none → (apply h op).2 = h) := by
  cases op with
  | push key data =>
    by_cases hfull : h.len = h.cap
    · have hroom : ¬ (contents h).card < h.cap := by
        rw [card_contents]
        omega
      rw [apply, heapPush_full h key data hfull]
      exact ⟨hw, rfl, .full key data hroom, fun _ => rfl⟩
    · have hlt : h.len < h.cap := lt_of_le_of_ne hw.le_cap hfull
      obtain ⟨h', hpush, hw', _, hcap, hc⟩ := heapPush_spec h key data hw hlt
      have hroom : (contents h).card < h.cap := by
        rw [card_contents]
        exact hlt
      rw [apply, hpush]
      refine ⟨hw', hcap, ?_, ?_⟩
      · rw [hc]
        exact .push key data hroom
      · rintro (hs | hs)
        · cases hs
        · cases hs
  | pop =>
    by_cases hz : h.len = 0
    · rw [apply, heapPop_empty h hz]
      exact ⟨hw, rfl, .empty (contents_eq_zero.mpr hz), fun _ => rfl⟩
    · have hpos : 0 < h.len := Nat.pos_of_ne_zero hz
      obtain ⟨key, data, h', hpop, hpeek, hw', _, hcap, hc⟩ := heapPop_spec h hw hpos
      rw [apply, hpop]
      refine ⟨hw', hcap, .pop (key, data) _ hc ?_, ?_⟩
      · intro y hy
        exact (heapPeek_some hw.ordered hpeek).2 y hy
      · rintro (hs | hs)
        · cases hs
        · cases hs

/-- The heap after a sequence of calls on `heap_init`. -/
def heapRun (storage : ℕ → HeapNode α) (cap : ℕ) (ops : List (Op α)) : MinHeap α :=
  ops.foldl (fun h op => (apply h op).2) (heapInit storage cap)

theorem heapRun_wf (storage : ℕ → HeapNode α) (cap : ℕ) (ops : List (Op α)) :
    Wf (heapRun storage cap ops) ∧ (heapRun storage cap ops).cap = cap := by
  induction ops using List.reverseRecOn with
  | nil => exact ⟨heapInit_wf storage cap, rfl⟩
  | append_singleton ops op ih =>
    obtain ⟨hw, hcap, _⟩ := apply_queue (heapRun storage cap ops) ih.1 op
    rw [heapRun, List.foldl_append]
    exact ⟨hw, hcap.trans ih.2⟩

/-- In every state of every run the keys are in heap order and the nodes know their
positions, and the next call, whatever it is, is a call of the priority queue. -/
theorem heapRun_refines (storage : ℕ → HeapNode α) (cap : ℕ) (ops : List (Op α)) :
    (∀ i, 0 < i → i < (heapRun storage cap ops).len →
      ((heapRun storage cap ops).a (parent i)).key ≤ ((heapRun storage cap ops).a i).key) ∧
    (∀ i, i < (heapRun storage cap ops).len → ((heapRun storage cap ops).a i).idx = i) ∧
    ∀ op, Queue cap (contents (heapRun storage cap ops)) op
        (apply (heapRun storage cap ops) op).1
        (contents (heapRun storage cap (ops ++ [op]))) ∧
      ((apply (heapRun storage cap ops) op).1 = .status (-1) ∨
        (apply (heapRun storage cap ops) op).1 = .popped none →
        heapRun storage cap (ops ++ [op]) = heapRun storage cap ops) := by
  obtain ⟨hw, hcap⟩ := heapRun_wf storage cap ops
  refine ⟨?_, hw.idx, ?_⟩
  · intro i hpos hi
    exact hw.ordered i hpos hi
  · intro op
    have hnext : heapRun storage cap (ops ++ [op]) = (apply (heapRun storage cap ops) op).2 := by
      rw [heapRun, List.foldl_append]
      rfl
    obtain ⟨_, _, hq, hfail⟩ := apply_queue (heapRun storage cap ops) hw op
    rw [hcap] at hq
    rw [hnext]
    exact ⟨hq, hfail⟩

end JanusRT.Heap
