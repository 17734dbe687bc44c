import JanusRT.PriorityQueue

/-!
# Changing the key of an entry

`heap_decrease_key` and `heap_increase_key` take a pointer to a node and trust its `idx`. For
a node of the queue they keep the queue and change one key. A slot that the queue has left
keeps the `idx` it had, unless it is the root.
-/
namespace JanusRT.Heap

variable {α : Type*}

/-- `n->key = key` for the node `&h->a[n]`. -/
def MinHeap.setKey (h : MinHeap α) (n key : ℕ) : MinHeap α := h.set n { h.a n with key := key }

/-- The node is `&h->a[n]`. -/
def heapDecreaseKey (h : MinHeap α) (n newKey : ℕ) : MinHeap α :=
  let i := (h.a n).idx
  if i = sizeMax then h
  else if (h.a n).key ≤ newKey then h
  else siftUp (h.setKey n newKey) i

def heapIncreaseKey (h : MinHeap α) (n newKey : ℕ) : MinHeap α :=
  let i := (h.a n).idx
  if i = sizeMax then h
  else if newKey ≤ (h.a n).key then h
  else siftDown (h.setKey n newKey) i

@[simp] theorem setKey_len (h : MinHeap α) (n key : ℕ) : (h.setKey n key).len = h.len := rfl

@[simp] theorem setKey_cap (h : MinHeap α) (n key : ℕ) : (h.setKey n key).cap = h.cap := rfl

theorem setKey_self (h : MinHeap α) (n key : ℕ) : ((h.setKey n key).a n).key = key := by
  rw [MinHeap.setKey, set_a, if_pos rfl]

theorem setKey_of_ne (h : MinHeap α) {n j : ℕ} (key : ℕ) (hj : j ≠ n) :
    (h.setKey n key).a j = h.a j := by
  rw [MinHeap.setKey, set_a, if_neg hj]

/-! ## Nodes of the queue -/

/-- `h'` is a sound heap that differs from `h` in the key of the entry at `i`. -/
structure KeyChanged (h h' : MinHeap α) (i key : ℕ) : Prop where
  ordered : HeapOrdered h'
  idx : Indexed h'
  cap : h'.cap = h.cap
  entries : ∃ rest, contents h = pair (h.a i) ::ₘ rest ∧
    contents h' = (key, (h.a i).val) ::ₘ rest

section
variable {h : MinHeap α} {i key : ℕ}

theorem contents_set (hi : i < h.len) (x : HeapNode α) :
    ∃ rest, contents h = pair (h.a i) ::ₘ rest ∧ contents (h.set i x) = pair x ::ₘ rest := by
  have hmem : i ∈ Finset.range h.len := Finset.mem_range.mpr hi
  refine ⟨∑ j ∈ (Finset.range h.len).erase i, {pair (h.a j)}, ?_, ?_⟩
  · rw [contents, ← Finset.add_sum_erase _ _ hmem, Multiset.singleton_add]
  · rw [contents, set_len, ← Finset.add_sum_erase _ _ hmem, Multiset.singleton_add, set_a,
      if_pos rfl]
    refine congrArg _ (Finset.sum_congr rfl ?_)
    intro j hj
    rw [set_a, if_neg (Finset.ne_of_mem_erase hj)]

theorem keyChanged_refl (hw : Wf h) (hi : i < h.len) : KeyChanged h h i (h.a i).key := by
  obtain ⟨rest, hrest, -⟩ := contents_set hi (h.a i)
  exact ⟨hw.ordered, hw.idx, rfl, rest, hrest, hrest⟩

/-- A sift repairs the order after the key was overwritten. -/
theorem keyChanged_of_rearranged {h' : MinHeap α} (hw : Wf h) (hi : i < h.len)
    (hre : Rearranged (h.setKey i key) h') (ho : HeapOrdered h') :
    KeyChanged h h' i key := by
  obtain ⟨rest, hrest, hrest'⟩ := contents_set hi { h.a i with key := key }
  refine ⟨ho, ?_, hre.cap, rest, hrest, hre.contents.trans hrest'⟩
  rw [Indexed, hre.len]
  apply hre.idx
  intro j hj
  rw [MinHeap.setKey, set_a]
  split_ifs with hji
  · rw [hji]
    exact hw.idx i hi
  · exact hw.idx j hj

theorem heapDecreaseKey_live (hw : Wf h) (hi : i < h.len) (hmax : i ≠ sizeMax) :
    KeyChanged h (heapDecreaseKey h i key) i (min key (h.a i).key) := by
  unfold heapDecreaseKey
  rw [hw.idx i hi]
  dsimp only
  rw [if_neg hmax]
  split_ifs with hle
  · rw [min_eq_right hle]
    exact keyChanged_refl hw hi
  · have hlt : key < (h.a i).key := lt_of_not_ge hle
    have hole : DaryHeap.UpHole heapD (fun j => ((h.setKey i key).a j).key) h.len i :=
      hw.ordered.upHole_of_le (fun j hj => congrArg HeapNode.key (setKey_of_ne h key hj))
        ((setKey_self h i key).trans_le hlt.le)
    obtain ⟨hre, ho⟩ := siftUp_spec (h.setKey i key) i hi hole
    rw [min_eq_left hlt.le]
    exact keyChanged_of_rearranged hw hi hre (by rw [HeapOrdered, hre.len]; exact ho)

theorem heapIncreaseKey_live (hw : Wf h) (hi : i < h.len) (hmax : i ≠ sizeMax) :
    KeyChanged h (heapIncreaseKey h i key) i (max key (h.a i).key) := by
  unfold heapIncreaseKey
  rw [hw.idx i hi]
  dsimp only
  rw [if_neg hmax]
  split_ifs with hle
  · rw [max_eq_right hle]
    exact keyChanged_refl hw hi
  · have hlt : (h.a i).key < key := lt_of_not_ge hle
    have hole : DaryHeap.DownHole heapD (fun j => ((h.setKey i key).a j).key) h.len i :=
      hw.ordered.downHole_of_le (fun j hj => congrArg HeapNode.key (setKey_of_ne h key hj))
        (hlt.le.trans_eq (setKey_self h i key).symm)
    obtain ⟨hre, ho⟩ := siftDown_spec (h.setKey i key) i hi hole
    rw [max_eq_left hlt.le]
    exact keyChanged_of_rearranged hw hi hre (by rw [HeapOrdered, hre.len]; exact ho)

end

/-! ## Slots that the queue has left -/

theorem swapNodes_of_ne (h : MinHeap α) {i j x : ℕ} (hi : x ≠ i) (hj : x ≠ j) :
    (swapNodes h i j).a x = h.a x := by
  simp only [swapNodes, set_a, if_neg hi, if_neg hj]

/-- A sift towards the root leaves what is above. -/
theorem siftUp_of_lt (h : MinHeap α) (i : ℕ) {j : ℕ} (hj : i < j) : (siftUp h i).a j = h.a j := by
  induction h, i using siftUp.induct with
  | case1 h i hpos hle => rw [siftUp, if_pos hpos, if_pos hle]
  | case2 h i hpos hgt ih =>
    have hp : parent i < i := DaryHeap.parent_lt hpos
    rw [siftUp, if_pos hpos, if_neg hgt, ih (hp.trans hj),
      swapNodes_of_ne h (hp.trans hj).ne' hj.ne']
  | case3 h i hz => rw [siftUp, if_neg hz]

/-- A sift away from the root stays below the length. -/
theorem siftDown_of_le (h : MinHeap α) (i : ℕ) (hi : i < h.len) {j : ℕ} (hj : h.len ≤ j) :
    (siftDown h i).a j = h.a j := by
  induction h, i using siftDown.induct with
  | case1 h i hlt hbest => rw [siftDown, if_pos hlt, if_pos hbest]
  | case2 h i hlt hbest ih =>
    have hm : minChild h i < h.len := (minChild_mem h i hlt).elim (fun he => absurd he hbest)
      (fun hm => hm.2.1)
    rw [siftDown, if_pos hlt, if_neg hbest, ih hm hj,
      swapNodes_of_ne h (hi.trans_le hj).ne' (hm.trans_le hj).ne']
  | case3 h i hge => rw [siftDown, if_neg hge]

/-- A push writes the first free slot and below. -/
theorem heapPush_above (h : MinHeap α) (key : ℕ) (data : α) {j : ℕ} (hj : h.len < j) :
    (heapPush h key data).2.a j = h.a j := by
  unfold heapPush
  split_ifs
  · rfl
  · rw [siftUp_of_lt _ _ hj, set_a, if_neg hj.ne']

/-- A pop writes the slots below the new length, and the root. -/
theorem heapPop_above (h : MinHeap α) {j : ℕ} (hj : h.len ≤ j + 1) (hpos : 0 < j) :
    (heapPop h).2.a j = h.a j := by
  simp only [heapPop]
  split_ifs with hempty hlast
  · rfl
  · exact (set_a h 0 j _).trans (if_neg hpos.ne')
  · have hlen : h.len - 1 ≤ j := by omega
    rw [siftDown_of_le _ 0 (Nat.pos_of_ne_zero hlast) hlen]
    simp only [set_a, if_neg hpos.ne']

/-- A pop that empties the heap marks the root. -/
theorem heapPop_last (h : MinHeap α) (hone : h.len = 1) : ((heapPop h).2.a 0).idx = sizeMax := by
  simp [heapPop, heapEmpty, hone, set_a]

/-- The slot `i` has held an entry at some time of the run. -/
def Held (storage : ℕ → HeapNode α) (cap : ℕ) (ops : List (Op α)) (i : ℕ) : Prop :=
  ∃ pre, pre <+: ops ∧ i < (heapRun storage cap pre).len

section
variable {storage : ℕ → HeapNode α} {cap i : ℕ} {ops : List (Op α)}

theorem heapRun_snoc (op : Op α) :
    heapRun storage cap (ops ++ [op]) = (apply (heapRun storage cap ops) op).2 := by
  rw [heapRun, List.foldl_append]
  rfl

theorem Held.lt_cap (h : Held storage cap ops i) : i < cap := by
  obtain ⟨pre, -, hi⟩ := h
  obtain ⟨hw, hcap⟩ := heapRun_wf storage cap pre
  exact hcap ▸ hi.trans_le hw.le_cap

/-- Either the last call has put an entry there, or it has held one before. -/
theorem Held.cases {op : Op α} (h : Held storage cap (ops ++ [op]) i) :
    Held storage cap ops i ∨ i < (heapRun storage cap (ops ++ [op])).len := by
  obtain ⟨pre, hpre, hi⟩ := h
  obtain he | hpre := List.prefix_concat_iff.mp hpre
  · exact .inr (he ▸ hi)
  · exact .inl ⟨pre, hpre, hi⟩

/-- What the `idx` of a slot says after the queue has left it. -/
def StaleIdx (h : MinHeap α) (i : ℕ) : Prop := (h.a i).idx = if i = 0 then sizeMax else i

theorem apply_staleIdx {h : MinHeap α} (hw : Wf h) (op : Op α) (hi : (apply h op).2.len ≤ i)
    (hheld : i < h.len ∨ StaleIdx h i) : StaleIdx (apply h op).2 i := by
  cases op with
  | push key data =>
    obtain hfull | hlt := hw.le_cap.eq_or_lt
    · rw [apply, heapPush_full h key data hfull] at hi ⊢
      exact hheld.resolve_left (Nat.not_lt.mpr hi)
    · obtain ⟨h', hpush, -, hlen, -⟩ := heapPush_spec h key data hw hlt
      have hi' : h.len < i := by
        rw [apply, hpush] at hi
        change h'.len ≤ i at hi
        omega
      have hstale := hheld.resolve_left hi'.not_gt
      rw [StaleIdx, apply, heapPush_above h key data hi']
      exact hstale
  | pop =>
    obtain hz | hpos := Nat.eq_zero_or_pos h.len
    · rw [apply, heapPop_empty h hz] at hi ⊢
      exact hheld.resolve_left (Nat.not_lt.mpr hi)
    · obtain ⟨key, data, h', hpop, -, -, hlen, -⟩ := heapPop_spec h hw hpos
      have hi' : h.len ≤ i + 1 := by
        rw [apply, hpop] at hi
        change h'.len ≤ i at hi
        omega
      rw [StaleIdx, apply]
      by_cases hroot : i = 0
      · subst hroot
        rw [if_pos rfl]
        exact heapPop_last h (by omega)
      · rw [heapPop_above h hi' (Nat.pos_of_ne_zero hroot)]
        obtain hlive | hstale := hheld
        · rw [if_neg hroot]
          exact hw.idx i hlive
        · exact hstale

theorem heapRun_staleIdx (hheld : Held storage cap ops i) (hi : (heapRun storage cap ops).len ≤ i) :
    StaleIdx (heapRun storage cap ops) i := by
  induction ops using List.reverseRecOn with
  | nil =>
    obtain ⟨pre, hpre, hlt⟩ := hheld
    rw [List.prefix_nil.mp hpre] at hlt
    exact absurd hlt (Nat.not_lt_zero i)
  | append_singleton ops op ih =>
    have hold : Held storage cap ops i := hheld.cases.resolve_right (Nat.not_lt.mpr hi)
    rw [heapRun_snoc] at hi ⊢
    apply apply_staleIdx (heapRun_wf storage cap ops).1 op hi
    by_cases hlt : i < (heapRun storage cap ops).len
    · exact .inl hlt
    · exact .inr (ih hold (Nat.le_of_not_lt hlt))

end

/-! ## A sift that starts outside -/

/-- The entries and the length are the same; the slots from the length on do not matter. -/
structure SameEntries (h h' : MinHeap α) : Prop where
  len : h'.len = h.len
  cap : h'.cap = h.cap
  node : ∀ j, j < h.len → h'.a j = h.a j

theorem SameEntries.refl (h : MinHeap α) : SameEntries h h := ⟨rfl, rfl, fun _ _ => rfl⟩

theorem SameEntries.trans {h₁ h₂ h₃ : MinHeap α} (h : SameEntries h₁ h₂)
    (h' : SameEntries h₂ h₃) : SameEntries h₁ h₃ :=
  ⟨h'.len.trans h.len, h'.cap.trans h.cap,
    fun j hj => (h'.node j (hj.trans_eq h.len.symm)).trans (h.node j hj)⟩

theorem SameEntries.symm {h h' : MinHeap α} (hs : SameEntries h h') : SameEntries h' h :=
  ⟨hs.len.symm, hs.cap.symm, fun j hj => (hs.node j (hj.trans_eq hs.len)).symm⟩

/-- From `i` up to an ancestor in the queue all ancestors have keys above `key`. -/
def Rises (h : MinHeap α) (key i : ℕ) : Prop :=
  ∃ m, parent^[m] i < h.len ∧ ∀ j, 0 < j → j ≤ m → key < (h.a (parent^[j] i)).key

section
variable {h : MinHeap α} {i key : ℕ}

theorem parent_iterate_lt (hi : 0 < i) {j : ℕ} (hj : 0 < j) : parent^[j] i < i := by
  induction j with
  | zero => exact absurd hj (lt_irrefl 0)
  | succ j ih =>
    rw [Function.iterate_succ_apply']
    obtain rfl | hj := Nat.eq_zero_or_pos j
    · exact DaryHeap.parent_lt hi
    · have hlt := ih hj
      obtain hz | hpos := Nat.eq_zero_or_pos (parent^[j] i)
      · rw [hz]
        exact hi
      · exact (DaryHeap.parent_lt hpos).trans hlt

/-- Nothing rises into an empty queue. -/
theorem Rises.len_pos (hr : Rises h key i) : 0 < h.len := by
  obtain ⟨m, hm, -⟩ := hr
  omega

theorem rises_iff (hi : h.len ≤ i) : Rises h key i ↔ key < (h.a (parent i)).key ∧
    (parent i < h.len ∨ Rises h key (parent i)) := by
  constructor
  · rintro ⟨m, hm, hpath⟩
    cases m with
    | zero => exact absurd hm (Nat.not_lt.mpr hi)
    | succ m =>
      refine ⟨hpath 1 one_pos (by omega), .inr ⟨m, hm, ?_⟩⟩
      intro j hj hjm
      exact hpath (j + 1) (by omega) (by omega)
  · rintro ⟨hlt, hp | ⟨m, hm, hpath⟩⟩
    · refine ⟨1, hp, ?_⟩
      intro j hj hjm
      obtain rfl : j = 1 := by omega
      exact hlt
    · refine ⟨m + 1, hm, ?_⟩
      intro j hj hjm
      obtain ⟨j, rfl⟩ := Nat.exists_eq_add_of_le' hj
      obtain rfl | hj := Nat.eq_zero_or_pos j
      · exact hlt
      · exact hpath j hj (by omega)

/-- Only the slots in front matter. -/
theorem rises_congr {h' : MinHeap α} (hlen : h'.len = h.len) (hi : h.len ≤ i)
    (he : ∀ x, x < i → h'.a x = h.a x) : Rises h' key i ↔ Rises h key i := by
  obtain rfl | hpos := Nat.eq_zero_or_pos i
  · constructor
    · intro hr
      have := hr.len_pos
      omega
    · intro hr
      have := hr.len_pos
      omega
  · refine exists_congr fun m => and_congr (by rw [hlen]) (forall_congr' fun j => ?_)
    refine forall_congr' fun hj => ?_
    rw [he _ (parent_iterate_lt hpos hj)]

theorem swapNodes_key_left (h : MinHeap α) (i j : ℕ) :
    ((swapNodes h i j).a i).key = (h.a j).key := by
  rw [swapNodes_key, Equiv.swap_apply_left]

theorem siftUp_stop (h : MinHeap α) (i : ℕ) (hs : 0 < i → (h.a (parent i)).key ≤ (h.a i).key) :
    siftUp h i = h := by
  rw [siftUp]
  split_ifs with hpos hle
  · rfl
  · exact absurd (hs hpos) hle
  · rfl

/-- A node that moves comes to rest where a larger key was. -/
theorem siftUp_lowers (h : MinHeap α) (i : ℕ) (hpos : 0 < i)
    (hlt : (h.a i).key < (h.a (parent i)).key) :
    ∃ q ≤ parent i, ((siftUp h i).a q).key = (h.a i).key ∧ (h.a i).key < (h.a q).key := by
  induction h, i using siftUp.induct with
  | case1 h i _ hle => exact absurd hlt (Nat.not_lt.mpr hle)
  | case2 h i _ hgt ih =>
    have hkey := swapNodes_key_left h (parent i) i
    rw [siftUp, if_pos hpos, if_neg hgt]
    by_cases hmove : 0 < parent i ∧ (h.a i).key < (h.a (parent (parent i))).key
    · obtain ⟨hp, hlt'⟩ := hmove
      have hpp : parent (parent i) < parent i := DaryHeap.parent_lt hp
      have hpi : parent i < i := DaryHeap.parent_lt hpos
      have hsame : ∀ q ≤ parent (parent i), (swapNodes h (parent i) i).a q = h.a q := by
        intro q hq
        exact swapNodes_of_ne h (by omega) (by omega)
      obtain ⟨q, hq, hrest, habove⟩ := ih hp (by rw [hkey, hsame _ le_rfl]; exact hlt')
      rw [hkey] at hrest habove
      rw [hsame q hq] at habove
      exact ⟨q, by omega, hrest, habove⟩
    · refine ⟨parent i, le_rfl, ?_, hlt⟩
      have hpi : parent i < i := DaryHeap.parent_lt hpos
      rw [siftUp_stop, hkey]
      intro hp
      have hpp : parent (parent i) < parent i := DaryHeap.parent_lt hp
      rw [hkey, swapNodes_of_ne h hpp.ne (hpp.trans hpi).ne]
      exact not_lt.mp (not_and.mp hmove hp)
  | case3 h i hz => exact absurd hpos hz

/-- A sift from outside leaves the queue alone exactly when the node does not rise into it. -/
theorem siftUp_sameEntries_iff (h : MinHeap α) (i : ℕ) (hi : h.len ≤ i) :
    SameEntries h (siftUp h i) ↔ ¬ Rises h (h.a i).key i := by
  induction h, i using siftUp.induct with
  | case1 h i hpos hle =>
    rw [siftUp, if_pos hpos, if_pos hle, rises_iff hi]
    exact iff_of_true (.refl h) fun hr => absurd hr.1 (Nat.not_lt.mpr hle)
  | case2 h i hpos hgt ih =>
    have hlt : (h.a i).key < (h.a (parent i)).key := lt_of_not_ge hgt
    have hpi : parent i < i := DaryHeap.parent_lt hpos
    obtain hp | hp := Nat.lt_or_ge (parent i) h.len
    · refine iff_of_false ?_ (not_not.mpr ((rises_iff hi).mpr ⟨hlt, .inl hp⟩))
      intro hsame
      obtain ⟨q, hq, hrest, habove⟩ := siftUp_lowers h i hpos hlt
      rw [hsame.node q (by omega)] at hrest
      omega
    · have hswap : ∀ x, x < parent i → (swapNodes h (parent i) i).a x = h.a x := by
        intro x hx
        exact swapNodes_of_ne h hx.ne (hx.trans hpi).ne
      have hsteps : Rises h (h.a i).key i ↔ Rises h (h.a i).key (parent i) := by
        rw [rises_iff hi]
        exact ⟨fun hr => hr.2.resolve_left (Nat.not_lt.mpr hp), fun hr => ⟨hlt, .inr hr⟩⟩
      have hcongr : Rises (swapNodes h (parent i) i) (h.a i).key (parent i) ↔
          Rises h (h.a i).key (parent i) := rises_congr rfl hp hswap
      have hrest := ih hp
      rw [swapNodes_key_left, hcongr, ← hsteps] at hrest
      rw [siftUp, if_pos hpos, if_neg hgt, ← hrest]
      have hset : SameEntries h (swapNodes h (parent i) i) :=
        ⟨rfl, rfl, fun j hj => hswap j (hj.trans_le hp)⟩
      exact ⟨hset.symm.trans, hset.trans⟩
  | case3 h i hz =>
    rw [siftUp, if_neg hz]
    refine iff_of_true (.refl h) fun hr => ?_
    have := hr.len_pos
    omega

end

/-! ## Updates through any slot that has held an entry -/

/-- What an update through the slot `i` should do: nothing if the queue has left the slot, and
else lower, or raise, the key of its entry and no more. `same` is what counts as no change. -/
structure UpdatesRespect (same : MinHeap α → MinHeap α → Prop) (h : MinHeap α) (i key : ℕ) :
    Prop where
  left : h.len ≤ i → same h (heapDecreaseKey h i key) ∧ same h (heapIncreaseKey h i key)
  live : i < h.len → KeyChanged h (heapDecreaseKey h i key) i (min key (h.a i).key) ∧
    KeyChanged h (heapIncreaseKey h i key) i (max key (h.a i).key)

section
variable {h : MinHeap α} {i key : ℕ}

theorem heapDecreaseKey_noop (hn : (h.a i).idx = sizeMax ∨ (h.a i).key ≤ key) :
    heapDecreaseKey h i key = h := by
  unfold heapDecreaseKey
  dsimp only
  split_ifs with hmax hle
  · rfl
  · rfl
  · exact absurd hn (not_or.mpr ⟨hmax, hle⟩)

theorem heapIncreaseKey_noop (hn : (h.a i).idx = sizeMax ∨ key ≤ (h.a i).key) :
    heapIncreaseKey h i key = h := by
  unfold heapIncreaseKey
  dsimp only
  split_ifs with hmax hle
  · rfl
  · rfl
  · exact absurd hn (not_or.mpr ⟨hmax, hle⟩)

theorem heapDecreaseKey_lower (hidx : (h.a i).idx = i) (hmax : i ≠ sizeMax)
    (hlt : key < (h.a i).key) : heapDecreaseKey h i key = siftUp (h.setKey i key) i := by
  unfold heapDecreaseKey
  rw [hidx]
  exact (if_neg hmax).trans (if_neg (Nat.not_le.mpr hlt))

/-- A sift from outside towards the leaves has nowhere to go. -/
theorem heapIncreaseKey_stale (hidx : (h.a i).idx = i) (hmax : i ≠ sizeMax) (hi : h.len ≤ i)
    (hlt : (h.a i).key < key) : heapIncreaseKey h i key = h.setKey i key := by
  have hnone : ¬ child i 0 < (h.setKey i key).len := by
    rw [setKey_len]
    simp only [child, heapD]
    omega
  unfold heapIncreaseKey
  rw [hidx]
  refine (if_neg hmax).trans ((if_neg (Nat.not_le.mpr hlt)).trans ?_)
  rw [siftDown, if_neg hnone]

theorem setKey_ne (hk : key ≠ (h.a i).key) : h.setKey i key ≠ h := by
  intro he
  apply hk
  rw [← setKey_self h i key, he]

theorem setKey_sameEntries (hi : h.len ≤ i) : SameEntries h (h.setKey i key) :=
  ⟨rfl, rfl, fun _ hj => setKey_of_ne h key (hj.trans_le hi).ne⟩

/-- A decrease outside the queue leaves a trace, wherever the node comes to rest. -/
theorem siftUp_setKey_ne (hlt : key < (h.a i).key) : siftUp (h.setKey i key) i ≠ h := by
  intro he
  by_cases hmove : 0 < i ∧ key < (h.a (parent i)).key
  · obtain ⟨hpos, hp⟩ := hmove
    have hpi : parent i < i := DaryHeap.parent_lt hpos
    obtain ⟨q, hq, hrest, habove⟩ := siftUp_lowers (h.setKey i key) i hpos
      (by rw [setKey_self, setKey_of_ne h key hpi.ne]; exact hp)
    rw [setKey_self, setKey_of_ne h key (by omega)] at habove
    rw [he, setKey_self] at hrest
    omega
  · rw [siftUp_stop] at he
    · exact setKey_ne hlt.ne he
    · intro hpos
      have hpi : parent i < i := DaryHeap.parent_lt hpos
      rw [setKey_self, setKey_of_ne h key hpi.ne]
      exact not_lt.mp (not_and.mp hmove hpos)

/-- A slot of the queue is never a problem. -/
theorem updatesRespect_live {same : MinHeap α → MinHeap α → Prop} (hw : Wf h) (hi : i < h.len)
    (hmax : i ≠ sizeMax) : UpdatesRespect same h i key where
  left hle := absurd hi (Nat.not_lt.mpr hle)
  live _ := ⟨heapDecreaseKey_live hw hi hmax, heapIncreaseKey_live hw hi hmax⟩

theorem updatesRespect_eq_iff (hidx : (h.a i).idx = i) (hmax : i ≠ sizeMax) (hi : h.len ≤ i) :
    UpdatesRespect Eq h i key ↔ key = (h.a i).key := by
  constructor
  · intro hu
    obtain ⟨hdec, hinc⟩ := hu.left hi
    obtain hlt | heq | hgt := lt_trichotomy key (h.a i).key
    · rw [heapDecreaseKey_lower hidx hmax hlt] at hdec
      exact absurd hdec.symm (siftUp_setKey_ne hlt)
    · exact heq
    · rw [heapIncreaseKey_stale hidx hmax hi hgt] at hinc
      exact absurd hinc.symm (setKey_ne hgt.ne')
  · intro heq
    refine ⟨fun _ => ?_, fun hlt => absurd hi (Nat.not_le.mpr hlt)⟩
    rw [heapDecreaseKey_noop (.inr heq.ge), heapIncreaseKey_noop (.inr heq.le)]
    exact ⟨rfl, rfl⟩

/-- An increase outside the queue never reaches it. -/
theorem heapIncreaseKey_sameEntries (hidx : (h.a i).idx = i) (hmax : i ≠ sizeMax)
    (hi : h.len ≤ i) : SameEntries h (heapIncreaseKey h i key) := by
  obtain hlt | hle := Nat.lt_or_ge (h.a i).key key
  · rw [heapIncreaseKey_stale hidx hmax hi hlt]
    exact setKey_sameEntries hi
  · rw [heapIncreaseKey_noop (.inr hle)]
    exact .refl h

theorem heapDecreaseKey_sameEntries_iff (hidx : (h.a i).idx = i) (hmax : i ≠ sizeMax)
    (hi : h.len ≤ i) :
    SameEntries h (heapDecreaseKey h i key) ↔ (h.a i).key ≤ key ∨ ¬ Rises h key i := by
  obtain hlt | hle := Nat.lt_or_ge key (h.a i).key
  · have hcongr : Rises (h.setKey i key) key i ↔ Rises h key i :=
      rises_congr rfl hi fun x hx => setKey_of_ne h key hx.ne
    have hsift := siftUp_sameEntries_iff (h.setKey i key) i hi
    rw [setKey_self, hcongr] at hsift
    have hset : SameEntries h (h.setKey i key) := setKey_sameEntries hi
    rw [heapDecreaseKey_lower hidx hmax hlt, or_iff_right (Nat.not_le.mpr hlt), ← hsift]
    exact ⟨hset.symm.trans, hset.trans⟩
  · rw [heapDecreaseKey_noop (.inr hle)]
    exact iff_of_true (.refl h) (.inl hle)

theorem updatesRespect_sameEntries_iff (hidx : (h.a i).idx = i) (hmax : i ≠ sizeMax)
    (hi : h.len ≤ i) :
    UpdatesRespect SameEntries h i key ↔ (h.a i).key ≤ key ∨ ¬ Rises h key i := by
  rw [← heapDecreaseKey_sameEntries_iff hidx hmax hi]
  constructor
  · exact fun hu => (hu.left hi).1
  · intro hdec
    exact ⟨fun _ => ⟨hdec, heapIncreaseKey_sameEntries hidx hmax hi⟩,
      fun hlt => absurd hi (Nat.not_le.mpr hlt)⟩

/-- The root of an empty queue says that it is not in it. -/
theorem updatesRespect_root {same : MinHeap α → MinHeap α → Prop} (hsame : same h h)
    (hidx : (h.a 0).idx = sizeMax) (hz : h.len ≤ 0) : UpdatesRespect same h 0 key where
  left _ := by
    rw [heapDecreaseKey_noop (.inl hidx), heapIncreaseKey_noop (.inl hidx)]
    exact ⟨hsame, hsame⟩
  live hlt := absurd hz (Nat.not_le.mpr hlt)

end

/-- In every state of every run, through every slot that has held an entry, the updates do what
they should. With the whole storage counted, exactly when the slot is in the queue, is the root
of an empty queue, or has the new key already. With the entries of the queue counted, exactly
when the slot is in it or no decrease makes its node rise into it. -/
theorem keyUpdates_iff (storage : ℕ → HeapNode α) (cap : ℕ) (ops : List (Op α)) (i key : ℕ)
    (hcap : cap ≤ sizeMax) (hheld : Held storage cap ops i) :
    (UpdatesRespect Eq (heapRun storage cap ops) i key ↔
      i < (heapRun storage cap ops).len ∨ i = 0 ∨ key = ((heapRun storage cap ops).a i).key) ∧
    (UpdatesRespect SameEntries (heapRun storage cap ops) i key ↔
      i < (heapRun storage cap ops).len ∨ ((heapRun storage cap ops).a i).key ≤ key ∨
        ¬ Rises (heapRun storage cap ops) key i) := by
  have hmax : i ≠ sizeMax := (hheld.lt_cap.trans_le hcap).ne
  obtain ⟨hw, -⟩ := heapRun_wf storage cap ops
  obtain hlive | hleft := Nat.lt_or_ge i (heapRun storage cap ops).len
  · exact ⟨iff_of_true (updatesRespect_live hw hlive hmax) (.inl hlive),
      iff_of_true (updatesRespect_live hw hlive hmax) (.inl hlive)⟩
  · have hstale := heapRun_staleIdx hheld hleft
    rw [or_iff_right hleft.not_gt, or_iff_right hleft.not_gt]
    by_cases hroot : i = 0
    · subst hroot
      have hnone : ¬ Rises (heapRun storage cap ops) key 0 := by
        intro hr
        exact absurd hr.len_pos (Nat.not_lt.mpr hleft)
      exact ⟨iff_of_true (updatesRespect_root rfl hstale hleft) (.inl rfl),
        iff_of_true (updatesRespect_root (.refl _) hstale hleft) (.inr hnone)⟩
    · have hidx : ((heapRun storage cap ops).a i).idx = i := hstale.trans (if_neg hroot)
      rw [or_iff_right hroot]
      exact ⟨updatesRespect_eq_iff hidx hmax hleft, updatesRespect_sameEntries_iff hidx hmax hleft⟩

/-- Three entries arrive and the first one leaves. -/
def threeThenPop : List (Op Char) := [.push 5 'a', .push 7 'b', .push 9 'c', .pop]

/-- The queue holds `b` and `c`, and the third slot a copy of `c`. -/
def threeHeap : MinHeap Char := heapRun (fun _ => ⟨0, 'z', 0⟩) 8 threeThenPop

theorem held_threeThenPop {i : ℕ} (hi : i < 3) : Held (fun _ => ⟨0, 'z', 0⟩) 8 threeThenPop i := by
  have hlen : (heapRun (fun _ => ⟨0, 'z', 0⟩) 8
      [.push 5 'a', .push 7 'b', .push 9 'c']).len = 3 := by decide +kernel
  exact ⟨[.push 5 'a', .push 7 'b', .push 9 'c'], ⟨[.pop], rfl⟩, hlen.symm ▸ hi⟩

/-- The copy rises to the root and `b` is lost. -/
theorem keyUpdates_stale :
    Held (fun _ => ⟨0, 'z', 0⟩) 8 threeThenPop 2 ∧ threeHeap.len = 2 ∧
      contents threeHeap = {(7, 'b'), (9, 'c')} ∧
      contents (heapDecreaseKey threeHeap 2 1) = {(1, 'c'), (9, 'c')} ∧
      ¬ UpdatesRespect SameEntries threeHeap 2 1 ∧ ¬ UpdatesRespect Eq threeHeap 2 1 := by
  have hlen : threeHeap.len = 2 := by decide +kernel
  have hroot : (heapDecreaseKey threeHeap 2 1).a 0 ≠ threeHeap.a 0 := by decide +kernel
  refine ⟨held_threeThenPop (by decide), hlen, by decide +kernel, by decide +kernel, ?_, ?_⟩
  · intro hu
    exact hroot ((hu.left hlen.le).1.node 0 (by rw [hlen]; decide))
  · intro hu
    exact hroot (congrArg (fun h => h.a 0) (hu.left hlen.le).1.symm)

/-- An entry of the queue gets a smaller key. -/
theorem keyUpdates_live : UpdatesRespect Eq threeHeap 1 3 ∧
    UpdatesRespect SameEntries threeHeap 1 3 := by
  have hiff := keyUpdates_iff (fun _ => ⟨0, 'z', 0⟩) 8 threeThenPop 1 3 (by decide)
    (held_threeThenPop (by decide))
  have hlive : 1 < threeHeap.len := by decide +kernel
  exact ⟨hiff.1.mpr (.inl hlive), hiff.2.mpr (.inl hlive)⟩

end JanusRT.Heap
