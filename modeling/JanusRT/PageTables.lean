import JanusRT.Mmu

/-!
# What the mapping functions do to a translation

The tables below a root are a radix tree of depth three whose values are the page
descriptors. Each mapping function gets one specification: how the walk of every
address changes, which pages it takes from the allocator, and that the pages it did
not take itself stay as they were.
-/
namespace JanusRT
open RadixTree Outcome

/-- What the source relies on: a page that is not NULL is aligned, fits the address
field of a descriptor, and is not handed out already. -/
structure IdealPages (pick : List ℕ → ℕ) : Prop where
  aligned : ∀ used, pick used % 4096 = 0
  bound : ∀ used, pick used < 2 ^ 48
  fresh : ∀ used, pick used ≠ 0 → pick used ∉ used

/-! ## Descriptors -/

theorem and_pageMask {b : ℕ} (hb : b % 4096 = 0) (hlt : b < 2 ^ 64) : b &&& pageMask = b := by
  rw [pageMask, Masks.and_field, Nat.mod_eq_of_lt hlt]
  omega

theorem and_outMask {b : ℕ} (hb : b % 4096 = 0) (hlt : b < 2 ^ 48) : b &&& outMask = b := by
  rw [outMask, Masks.and_field, Nat.mod_eq_of_lt hlt]
  omega

theorem and_low {b : ℕ} (hb : b % 4096 = 0) (hlt : b < 2 ^ 48) {k : ℕ} (hk : outMask &&& k = 0) :
    b &&& k = 0 :=
  Masks.and_eq_zero_of_and_eq (and_outMask hb hlt) hk

theorem descTable_eq {b : ℕ} (hb : b % 4096 = 0) (hlt : b < 2 ^ 48) : descTable b = b ||| 3 := by
  rw [descTable, and_pageMask hb (hlt.trans (by norm_num)), Nat.or_assoc]
  rfl

/-- What a table descriptor says, to the code and to the hardware. -/
theorem descTable_fields {b : ℕ} (hb : b % 4096 = 0) (hlt : b < 2 ^ 48) :
    valid (descTable b) = true ∧ descTable b &&& pageMask = b ∧ descTable b &&& 3 = 3 ∧
      descTable b &&& outMask = b := by
  rw [descTable_eq hb hlt]
  refine ⟨?_, ?_, ?_, ?_⟩
  · have h1 : b &&& pteValid = 0 := and_low hb hlt (by decide)
    rw [valid, Nat.and_or_distrib_right, h1]
    decide
  · exact Masks.and_or_of_disjoint (and_pageMask hb (hlt.trans (by norm_num))) (by decide)
  · rw [Nat.and_or_distrib_right, and_low hb hlt (by decide)]
    decide
  · exact Masks.and_or_of_disjoint (and_outMask hb hlt) (by decide)

/-- The attributes a page descriptor can carry next to its address. -/
structure GoodAttrs (attrs : ℕ) : Prop where
  page : attrs &&& 3 = descPageBits
  noAddr : attrs &&& outMask = 0
  word : attrs &&& attrMask = attrs

theorem goodAttrs_proc : GoodAttrs pteProcRwx := ⟨by decide, by decide, by decide⟩

theorem goodAttrs_kern : GoodAttrs pteKernRwx := ⟨by decide, by decide, by decide⟩

theorem goodAttrs_dev : GoodAttrs pteDevRwG := ⟨by decide, by decide, by decide⟩

theorem descPage_fields {pa attrs : ℕ} (hb : pa % 4096 = 0) (hlt : pa < 2 ^ 48)
    (ha : GoodAttrs attrs) :
    descPage pa attrs &&& 3 = descPageBits ∧ descPage pa attrs &&& outMask = pa ∧
      descPage pa attrs &&& attrMask = attrs := by
  rw [descPage, and_pageMask hb (hlt.trans (by norm_num))]
  refine ⟨?_, Masks.and_or_of_disjoint (and_outMask hb hlt) ha.noAddr, ?_⟩
  · rw [Nat.and_or_distrib_right, and_low hb hlt (by decide), ha.page, Nat.zero_or]
  · rw [Nat.and_or_distrib_right, and_low hb hlt (by decide), ha.word, Nat.zero_or]

/-! ## The tables as a tree -/

/-- The link `ensure_next` follows. -/
def nextTable (d : ℕ) : Option ℕ := if valid d then some (d &&& pageMask) else none

/-- Entries of the upper three levels. -/
def Inner (d : ℕ) : Prop := d = 0 ∨ ∃ b, b % 4096 = 0 ∧ b < 2 ^ 48 ∧ d = descTable b

/-- Entries of the last level. -/
def leaf (d : ℕ) : Option (ℕ × ℕ) :=
  if d &&& 3 = descPageBits then some (d &&& outMask, d &&& attrMask) else none

/-- The indices that lead to the last table. -/
def path (va : ℕ) : List ℕ := [idxL0 va, idxL1 va, idxL2 va]

theorem Inner.tableNext_eq {d : ℕ} (h : Inner d) : tableNext d = nextTable d ∧ d &&& 3 ≠ descBlock := by
  obtain rfl | ⟨b, hb, hlt, rfl⟩ := h
  · decide
  · obtain ⟨hv, hp, ht, ho⟩ := descTable_fields hb hlt
    rw [tableNext, nextTable, hv, hp, ht, ho]
    exact ⟨rfl, by decide⟩

theorem output_page (d va : ℕ) : output 12 d va = ((d &&& outMask) + va % 4096, d &&& attrMask) := by
  rw [output, outMask, Masks.and_field, Nat.mul_div_cancel _ (Nat.two_pow_pos 12)]
  rfl

/-- The hardware finds what the tree stores. -/
theorem walk_eq_find {m : PageMem} {root : ℕ} {own : List ℕ}
    (h : Tree nextTable Inner 3 m.table root own) (va : ℕ) :
    walk m root va = (find nextTable leaf m.table root (path va) (idxL3 va)).map
      fun o => (o.1 + va % 4096, o.2) := by
  have hg0 := (h.inner [] root (idxL0 va) (by decide) rfl).tableNext_eq
  rw [walk, hg0.1, find, path, descend]
  cases h0 : nextTable (m.table root (idxL0 va)) with
  | none => rfl
  | some l1 =>
    have hd1 : descend nextTable m.table root [idxL0 va] = some l1 := by simp [descend, h0]
    have hg1 := (h.inner _ l1 (idxL1 va) (by simp) hd1).tableNext_eq
    rw [Option.bind_some, Option.bind_some, descend]
    dsimp only
    rw [if_neg hg1.2, hg1.1]
    cases h1 : nextTable (m.table l1 (idxL1 va)) with
    | none => rfl
    | some l2 =>
      have hd2 : descend nextTable m.table root [idxL0 va, idxL1 va] = some l2 := by
        simp [descend, h0, h1]
      have hg2 := (h.inner _ l2 (idxL2 va) (by simp) hd2).tableNext_eq
      rw [Option.bind_some, Option.bind_some, descend, if_neg hg2.2, hg2.1]
      cases h2 : nextTable (m.table l2 (idxL2 va)) with
      | none => rfl
      | some l3 =>
        rw [Option.bind_some, Option.bind_some, descend, Option.bind_some, leaf]
        split_ifs
        · rw [output_page, Option.map_some]
        · rfl

theorem idx_eq (va : ℕ) :
    idxL0 va = va / 2 ^ 39 % 512 ∧ idxL1 va = va / 2 ^ 30 % 512 ∧ idxL2 va = va / 2 ^ 21 % 512 ∧
      idxL3 va = va / 2 ^ 12 % 512 := by
  have h : ∀ x, x &&& 0x1FF = x % 512 := fun x => Nat.and_two_pow_sub_one_eq_mod x 9
  simp only [idxL0, idxL1, idxL2, idxL3, Nat.shiftRight_eq_div_pow, h, and_self]

theorem idx_lt (va : ℕ) :
    idxL0 va < 512 ∧ idxL1 va < 512 ∧ idxL2 va < 512 ∧ idxL3 va < 512 := by
  obtain ⟨h0, h1, h2, h3⟩ := idx_eq va
  omega

/-- Addresses share a descriptor exactly when they share a page. -/
theorem path_eq_iff {x va : ℕ} (hx : x < 2 ^ 48) (hva : va < 2 ^ 48) :
    (path x = path va ∧ idxL3 x = idxL3 va) ↔ x / 4096 = va / 4096 := by
  have hpage : ∀ y < 2 ^ 48, y / 4096 =
      ((idxL0 y * 512 + idxL1 y) * 512 + idxL2 y) * 512 + idxL3 y := by
    intro y hy
    obtain ⟨y0, y1, y2, y3⟩ := idx_eq y
    rw [y0, y1, y2, y3]
    omega
  have hidx : ∀ y, idxL0 y = y / 4096 / 2 ^ 27 % 512 ∧ idxL1 y = y / 4096 / 2 ^ 18 % 512 ∧
      idxL2 y = y / 4096 / 2 ^ 9 % 512 ∧ idxL3 y = y / 4096 % 512 := by
    intro y
    obtain ⟨y0, y1, y2, y3⟩ := idx_eq y
    simp only [y0, y1, y2, y3, Nat.div_div_eq_div_mul]
    exact ⟨rfl, rfl, rfl, rfl⟩
  simp only [path, List.cons.injEq, and_true]
  constructor
  · rintro ⟨⟨h0, h1, h2⟩, h3⟩
    rw [hpage x hx, hpage va hva, h0, h1, h2, h3]
  · intro h
    obtain ⟨x0, x1, x2, x3⟩ := hidx x
    obtain ⟨v0, v1, v2, v3⟩ := hidx va
    rw [x0, x1, x2, x3, v0, v1, v2, v3, h]
    exact ⟨⟨rfl, rfl, rfl⟩, rfl⟩

/-- A write of the page descriptor of `va`, seen by the walk. -/
theorem walk_written {m m' : PageMem} {root : ℕ} {own own' : List ℕ}
    (h : Tree nextTable Inner 3 m.table root own) (h' : Tree nextTable Inner 3 m'.table root own')
    {va pa attrs : ℕ} (hva : va < 2 ^ 48) (hpa : pa % 4096 = 0) (hlt : pa < 2 ^ 48)
    (ha : GoodAttrs attrs)
    (hfind : ∀ q i, q.length = 3 → find nextTable leaf m'.table root q i =
      if q = path va ∧ i = idxL3 va then leaf (descPage pa attrs)
      else find nextTable leaf m.table root q i) {x : ℕ} (hx : x < 2 ^ 48) :
    walk m' root x =
      if x / 4096 = va / 4096 then some (pa + x % 4096, attrs) else walk m root x := by
  obtain ⟨hbits, hout, hattr⟩ := descPage_fields hpa hlt ha
  have hleaf : leaf (descPage pa attrs) = some (pa, attrs) := by
    rw [leaf, if_pos hbits, hout, hattr]
  rw [walk_eq_find h', walk_eq_find h, hfind _ _ rfl, hleaf]
  by_cases hpage : x / 4096 = va / 4096
  · rw [if_pos ((path_eq_iff hx hva).mpr hpage), if_pos hpage, Option.map_some]
  · rw [if_neg (fun he => hpage ((path_eq_iff hx hva).mp he)), if_neg hpage]

/-- One more page at the end of a range. -/
theorem range_succ {va pa attrs k x : ℕ} (hva : va % 4096 = 0) (w : Option (ℕ × ℕ)) :
    (if x / 4096 = (va + 4096 * k) / 4096 then some (pa + 4096 * k + x % 4096, attrs)
      else if va ≤ x ∧ x < va + 4096 * k then some (pa + (x - va), attrs) else w) =
    if va ≤ x ∧ x < va + 4096 * (k + 1) then some (pa + (x - va), attrs) else w := by
  by_cases hlast : x / 4096 = (va + 4096 * k) / 4096
  · have hoff : pa + 4096 * k + x % 4096 = pa + (x - va) := by omega
    rw [if_pos hlast, if_pos (by omega), hoff]
  · rw [if_neg hlast]
    by_cases hin : va ≤ x ∧ x < va + 4096 * k
    · rw [if_pos hin, if_pos (by omega)]
    · rw [if_neg hin, if_neg (by omega)]

/-! ## Counting table pages -/

variable {pick : List ℕ → ℕ} {α β : Type}

/-- The pages handed out after `n` more requests. -/
def grow (pick : List ℕ → ℕ) : ℕ → List ℕ → List ℕ
  | 0, used => used
  | n + 1, used => grow pick n (pick used :: used)

theorem grow_add (i j : ℕ) (used : List ℕ) :
    grow pick (i + j) used = grow pick j (grow pick i used) := by
  induction i generalizing used with
  | zero => rw [Nat.zero_add, grow]
  | succ i ih => rw [Nat.succ_add, grow, grow, ih]

/-- One of the next `n` requests gets NULL, which the code answers with a panic. -/
def NoPage (pick : List ℕ → ℕ) (used : List ℕ) (n : ℕ) (e : Halt) : Prop :=
  e = .panic .eassert ∧ ∃ j, j < n ∧ pick (grow pick j used) = 0

/-- The computation takes at most `n` pages and stops only for want of one. -/
def Allocs (pick : List ℕ → ℕ) (used : List ℕ) (n : ℕ) (mem : α → PageMem) (P : α → Prop)
    (x : Except Halt α) : Prop :=
  Holds (NoPage pick used n) (fun a => (∃ j, j ≤ n ∧ (mem a).pages = grow pick j used) ∧ P a) x

theorem NoPage.mono {used : List ℕ} {n n' : ℕ} {e : Halt} (h : NoPage pick used n e)
    (hn : n ≤ n') : NoPage pick used n' e := by
  obtain ⟨he, j, hj, hz⟩ := h
  exact ⟨he, j, hj.trans_le hn, hz⟩

theorem NoPage.after {used : List ℕ} {i k n : ℕ} {e : Halt} (h : NoPage pick (grow pick i used) k e)
    (hi : i ≤ n) : NoPage pick used (n + k) e := by
  obtain ⟨he, j, hj, hz⟩ := h
  refine ⟨he, i + j, by omega, ?_⟩
  rwa [grow_add]

theorem allocs_pure {used : List ℕ} {mem : α → PageMem} {P : α → Prop} {a : α}
    (hu : (mem a).pages = used) (h : P a) : Allocs pick used 0 mem P (pure a) :=
  ⟨⟨0, le_rfl, hu⟩, h⟩

theorem Allocs.mono {used : List ℕ} {n n' : ℕ} {mem : α → PageMem} {P Q : α → Prop}
    {x : Except Halt α} (h : Allocs pick used n mem P x) (hn : n ≤ n') (hpq : ∀ a, P a → Q a) :
    Allocs pick used n' mem Q x := by
  cases x with
  | error e => exact NoPage.mono h hn
  | ok a =>
    obtain ⟨⟨j, hj, hu⟩, hp⟩ := h
    exact ⟨⟨j, hj.trans hn, hu⟩, hpq a hp⟩

theorem Allocs.bind {used : List ℕ} {n k : ℕ} {mem : α → PageMem} {mem' : β → PageMem}
    {P : α → Prop} {Q : β → Prop} {x : Except Halt α} {f : α → Except Halt β}
    (h : Allocs pick used n mem P x) (hf : ∀ a, P a → Allocs pick (mem a).pages k mem' Q (f a)) :
    Allocs pick used (n + k) mem' Q (x >>= f) := by
  cases x with
  | error e => exact NoPage.mono h (Nat.le_add_right _ _)
  | ok a =>
    obtain ⟨⟨i, hi, hu⟩, hp⟩ := h
    have hfa := hf a hp
    rw [hu] at hfa
    change Allocs pick used (n + k) mem' Q (f a)
    cases hx : f a with
    | error e =>
      rw [hx] at hfa
      exact NoPage.after hfa hi
    | ok b =>
      rw [hx] at hfa
      obtain ⟨⟨j, hj, hu'⟩, hq⟩ := hfa
      exact ⟨⟨i + j, by omega, by rw [hu', grow_add]⟩, hq⟩

/-! ## Specifications -/

/-- A tree of pages taken since the pages `old` were handed out, which still hold
what `table` says. -/
structure Built (m : PageMem) (root : ℕ) (own old : List ℕ) (table : ℕ → ℕ → ℕ) : Prop where
  tree : Tree nextTable Inner 3 m.table root own
  pages : m.pages = own ++ old
  disjoint : ∀ a ∈ own, a ∉ old
  frame : ∀ a ∈ old, m.table a = table a

variable {m : PageMem} {root : ℕ} {own old : List ℕ} {table : ℕ → ℕ → ℕ}

theorem ptAllocPageOrDie_spec (hpick : IdealPages pick) (m : PageMem) :
    Allocs pick m.pages 1 Prod.snd (fun r => r.1 % 4096 = 0 ∧ r.1 < 2 ^ 48 ∧ r.1 ∉ m.pages ∧
      r.2 = ⟨Function.update m.table r.1 fun _ => 0, r.1 :: m.pages⟩)
      (ptAllocPageOrDie pick m) := by
  unfold ptAllocPageOrDie
  by_cases hz : pick m.pages = 0
  · rw [if_pos hz]
    exact ⟨rfl, 0, Nat.one_pos, hz⟩
  · have hlow : pick m.pages &&& (pageSize - 1) = 0 :=
      and_low (hpick.aligned _) (hpick.bound _) (by decide)
    rw [if_neg hz, if_neg (not_not.mpr hlow)]
    exact ⟨⟨1, le_rfl, rfl⟩, hpick.aligned _, hpick.bound _, hpick.fresh _ hz, rfl⟩

theorem ensureNext_spec (hpick : IdealPages pick) (h : Built m root own old table) {p : List ℕ}
    {lvl : ℕ} (hlen : p.length < 3) (hp : descend nextTable m.table root p = some lvl) (idx : ℕ) :
    Allocs pick m.pages 1 Prod.snd (fun r => (∃ own', Built r.2 root own' old table) ∧
      descend nextTable r.2.table root (p ++ [idx]) = some r.1 ∧
      ∀ q i, q.length = 3 → find nextTable leaf r.2.table root q i =
        find nextTable leaf m.table root q i) (ensureNext pick m lvl idx) := by
  unfold ensureNext
  by_cases hv : valid (m.table lvl idx) = false
  · rw [if_pos hv]
    refine ((ptAllocPageOrDie_spec hpick m).bind (k := 0) ?_).mono le_rfl fun _ => id
    rintro ⟨b, m'⟩ ⟨hb, hlt, hfresh, hm'⟩
    dsimp only at hb hlt hfresh hm'
    subst hm'
    have hnone : nextTable (m.table lvl idx) = none := by rw [nextTable, hv]; rfl
    have hown : b ∉ own := fun hmem => hfresh (by rw [h.pages]; exact List.mem_append_left _ hmem)
    have hold : b ∉ old := fun hmem => hfresh (by rw [h.pages]; exact List.mem_append_right _ hmem)
    have hnext : nextTable (descTable b) = some b := by
      obtain ⟨hv', hm', _⟩ := descTable_fields hb hlt
      rw [nextTable, hv', hm']
      rfl
    have hlvl := h.tree.mem p lvl hlen.le hp
    refine allocs_pure rfl ⟨⟨b :: own, ?_, ?_, ?_, ?_⟩, ?_, ?_⟩
    · exact h.tree.link_tree rfl (Or.inl rfl) hnext (Or.inr ⟨b, hb, hlt, rfl⟩) hlen hp hnone hown
    · rw [h.pages]
      rfl
    · intro a ha
      obtain rfl | ha := List.mem_cons.mp ha
      · exact hold
      · exact h.disjoint a ha
    · intro a ha
      have hab : a ≠ b := fun hab => hold (hab ▸ ha)
      have hal : a ≠ lvl := fun hal => h.disjoint lvl hlvl (hal ▸ ha)
      change write (Function.update m.table b fun _ => 0) lvl idx (descTable b) a = _
      rw [write, Function.update_of_ne hal, Function.update_of_ne hab, h.frame a ha]
    · have hd := h.tree.descend_link (i := idx) (show nextTable 0 = none from rfl) hnext hlen hp hnone hown (p ++ [idx])
        (by rw [List.length_append]; exact hlen)
      rw [if_pos rfl] at hd
      exact hd
    · intro q i hq
      exact h.tree.find_link rfl rfl hnext hlen hp hnone hown q hq i
  · rw [if_neg hv]
    have hnext : nextTable (m.table lvl idx) = some (m.table lvl idx &&& pageMask) := by
      rw [nextTable, if_pos (Bool.eq_true_of_not_eq_false hv)]
    refine Allocs.mono (n := 0) (allocs_pure rfl ?_) (Nat.zero_le _) fun _ => id
    refine ⟨⟨own, h⟩, ?_, fun _ _ _ => rfl⟩
    rw [descend_concat, hp, Option.bind_some, hnext]

theorem ensureNext_allocs (hpick : IdealPages pick) (m : PageMem) (lvl idx : ℕ) :
    Allocs pick m.pages 1 Prod.snd (fun _ => True) (ensureNext pick m lvl idx) := by
  unfold ensureNext
  by_cases hv : valid (m.table lvl idx) = false
  · rw [if_pos hv]
    refine ((ptAllocPageOrDie_spec hpick m).bind (k := 0) ?_).mono le_rfl fun _ => id
    intro r _
    exact allocs_pure rfl trivial
  · rw [if_neg hv]
    exact Allocs.mono (n := 0) (allocs_pure rfl trivial) (Nat.zero_le _) fun _ => id

theorem mapPage_allocs (hpick : IdealPages pick) (m : PageMem) (r : PtRoot) (va pa attrs : ℕ) :
    Allocs pick m.pages 3 id (fun _ => True) (mapPage pick m r va pa attrs) := by
  unfold mapPage
  refine (ensureNext_allocs hpick m r.l0 (idxL0 va)).bind (k := 2) fun l1 _ => ?_
  refine (ensureNext_allocs hpick l1.2 l1.1 (idxL1 va)).bind (k := 1) fun l2 _ => ?_
  refine (ensureNext_allocs hpick l2.2 l2.1 (idxL2 va)).bind (k := 0) fun l3 _ => ?_
  exact allocs_pure rfl trivial

/-- One page: its addresses translate to the frame, all others as before. -/
theorem mapPage_spec (hpick : IdealPages pick) {r : PtRoot} (h : Built m r.l0 own old table)
    {va pa attrs : ℕ} (hva : va < 2 ^ 48) (hpa : pa % 4096 = 0) (hlt : pa < 2 ^ 48)
    (ha : GoodAttrs attrs) :
    Allocs pick m.pages 3 id (fun m' => (∃ own', Built m' r.l0 own' old table) ∧
      ∀ x, x < 2 ^ 48 → walk m' r.l0 x =
        if x / 4096 = va / 4096 then some (pa + x % 4096, attrs) else walk m r.l0 x)
      (mapPage pick m r va pa attrs) := by
  unfold mapPage
  refine ((ensureNext_spec hpick h (p := []) (by simp) rfl (idxL0 va)).bind (k := 2) ?_)
  rintro ⟨l1, m1⟩ ⟨⟨own1, h1⟩, hd1, hf1⟩
  refine ((ensureNext_spec hpick h1 (by simp) hd1 (idxL1 va)).bind (k := 1) ?_)
  rintro ⟨l2, m2⟩ ⟨⟨own2, h2⟩, hd2, hf2⟩
  refine ((ensureNext_spec hpick h2 (by simp) hd2 (idxL2 va)).bind (k := 0) ?_)
  rintro ⟨l3, m3⟩ ⟨⟨own3, h3⟩, hd3, hf3⟩
  have hd3 : descend nextTable m3.table r.l0 (path va) = some l3 := hd3
  have htree := h3.tree.write_leaf (p := path va) rfl hd3 (idxL3 va) (descPage pa attrs)
  refine allocs_pure rfl ⟨⟨own3, htree, h3.pages, h3.disjoint, ?_⟩, ?_⟩
  · intro a hold
    have hne : a ≠ l3 := fun he => h3.disjoint l3 (h3.tree.mem _ l3 (by simp [path]) hd3) (he ▸ hold)
    change write _ _ _ _ a = _
    rw [write, Function.update_of_ne hne, h3.frame a hold]
  · intro x hx
    apply walk_written h.tree htree hva hpa hlt ha ?_ hx
    intro q i hq
    rw [h3.tree.find_write rfl hd3 _ _ q hq i, hf3 q i hq, hf2 q i hq, hf1 q i hq]

/-- The loop as an invariant rule: `J k` holds when `k` pages are mapped. -/
theorem mapLoop_rule {E : Halt → Prop} (J : ℕ → PageMem → Prop) {r : PtRoot} {attrs va pa n : ℕ}
    (hstep : ∀ k m, k < n → J k m →
      Holds E (J (k + 1)) (mapPage pick m r (va + 4096 * k) ((pa + 4096 * k) % u64) attrs))
    (hend : va + 4096 * n < 2 ^ 64) {fuel : ℕ} (hfuel : n < fuel) (h : J 0 m) :
    Holds E (J n) (mapLoop pick r (va + 4096 * n) attrs fuel m va (pa % u64)) := by
  have hrest : ∀ j k fuel m, k + j = n → j < fuel → J k m → Holds E (J n)
      (mapLoop pick r (va + 4096 * n) attrs fuel m (va + 4096 * k) ((pa + 4096 * k) % u64)) := by
    intro j
    induction j with
    | zero =>
      rintro k (_ | fuel) m hk hfuel hm
      · omega
      · rw [mapLoop, if_neg (by omega)]
        rwa [← hk]
    | succ j ih =>
      rintro k (_ | fuel) m hk hfuel hm
      · omega
      · have hsize : pageSize = 4096 := rfl
        have hlt : va + 4096 * k + 4096 < 2 ^ 64 := lt_of_le_of_lt (by omega) hend
        have hva : (va + 4096 * k + pageSize) % u64 = va + 4096 * (k + 1) := by
          rw [hsize, u64, Nat.mod_eq_of_lt hlt, Nat.mul_succ, Nat.add_assoc]
        have hpa : ((pa + 4096 * k) % u64 + pageSize) % u64 = (pa + 4096 * (k + 1)) % u64 := by
          rw [Nat.mod_add_mod, hsize, Nat.mul_succ, Nat.add_assoc]
        rw [mapLoop, if_pos (by omega), hva, hpa]
        apply (hstep k m (by omega) hm).bind
        intro m' hm'
        exact ih (k + 1) fuel m' (by omega) (by omega) hm'
  exact hrest n 0 fuel m (by omega) hfuel h

/-- `n` consecutive pages. -/
theorem mapLoop_spec (hpick : IdealPages pick) {r : PtRoot} {attrs : ℕ} (ha : GoodAttrs attrs)
    (n : ℕ) {fuel va pa : ℕ} (h : Built m r.l0 own old table) (hva : va % 4096 = 0)
    (hpa : pa % 4096 = 0) (hend : va + 4096 * n ≤ 2 ^ 48) (hpend : pa + 4096 * n ≤ 2 ^ 48)
    (hfuel : n < fuel) :
    Allocs pick m.pages (3 * n) id (fun m' => (∃ own', Built m' r.l0 own' old table) ∧
      ∀ x, x < 2 ^ 48 → walk m' r.l0 x =
        if va ≤ x ∧ x < va + 4096 * n then some (pa + (x - va), attrs) else walk m r.l0 x)
      (mapLoop pick r (va + 4096 * n) attrs fuel m va pa) := by
  have hword : ∀ k, k ≤ n → (pa + 4096 * k) % u64 = pa + 4096 * k := by
    intro k hk
    exact Nat.mod_eq_of_lt (by unfold u64; omega)
  have hfirst : pa % u64 = pa := hword 0 (Nat.zero_le n)
  rw [← hfirst]
  apply mapLoop_rule (fun k m' => (∃ j, j ≤ 3 * k ∧ m'.pages = grow pick j m.pages) ∧
      (∃ own', Built m' r.l0 own' old table) ∧ ∀ x, x < 2 ^ 48 → walk m' r.l0 x =
        if va ≤ x ∧ x < va + 4096 * k then some (pa % u64 + (x - va), attrs) else walk m r.l0 x)
    ?_ (by omega) hfuel ⟨⟨0, le_rfl, rfl⟩, ⟨own, h⟩, ?_⟩
  · intro k m₁ hk hm₁
    obtain ⟨⟨j, hj, hpages⟩, ⟨own₁, h₁⟩, hwalk⟩ := hm₁
    rw [hword k hk.le]
    have hpage := mapPage_spec hpick h₁ (show va + 4096 * k < 2 ^ 48 by omega)
      (show (pa + 4096 * k) % 4096 = 0 by omega) (by omega) ha
    rw [hpages] at hpage
    apply hpage.weaken
    · intro e he
      exact (he.after hj).mono (by omega)
    · intro m₂ hm₂
      obtain ⟨⟨j', hj', hpages'⟩, hbuilt, hwalk'⟩ := hm₂
      refine ⟨⟨j + j', by omega, hpages'.trans (grow_add j j' m.pages).symm⟩, hbuilt, ?_⟩
      intro x hx
      rw [hwalk' x hx, hwalk x hx, hfirst]
      exact range_succ hva _
  · intro x _
    rw [if_neg (by omega)]

/-- The end of a range rounded up to a page. -/
def roundUp (x : ℕ) : ℕ := (x + 4095) / 4096 * 4096

/-- The start of a page. -/
def roundDown (x : ℕ) : ℕ := x / 4096 * 4096

theorem and_pageMask_eq {x : ℕ} (hx : x < 2 ^ 64) : x &&& pageMask = roundDown x := by
  rw [pageMask, Masks.and_field, Nat.mod_eq_of_lt hx]
  rfl

theorem exists_pages (va len : ℕ) : ∃ n, roundUp (va + len) = roundDown va + 4096 * n :=
  ⟨(roundUp (va + len) - roundDown va) / 4096, by unfold roundUp roundDown; omega⟩

/-- Below `2 ^ 48` nothing wraps, and the rounds suffice. -/
theorem mapRangePages_eq (r : PtRoot) {va pa len n : ℕ} (attrs : ℕ) (hva : va + len ≤ 2 ^ 48)
    (hpa : pa < 2 ^ 48) (hn : roundUp (va + len) = roundDown va + 4096 * n) :
    mapRangePages pick m r va pa len attrs =
      mapLoop pick r (roundDown va + 4096 * n) attrs (2 ^ 52 + 1) m (roundDown va) (roundDown pa) := by
  have hend : ((va + len) % u64 + pageSize - 1) % u64 &&& pageMask = roundUp (va + len) := by
    have h1 : (va + len) % u64 = va + len := Nat.mod_eq_of_lt (by unfold u64; omega)
    have h2 : (va + len + pageSize - 1) % u64 = va + len + 4095 :=
      Nat.mod_eq_of_lt (by unfold u64 pageSize; omega)
    rw [h1, h2, and_pageMask_eq (by omega)]
    rfl
  have hfuel : u64 / pageSize + 1 = 2 ^ 52 + 1 := rfl
  unfold mapRangePages
  dsimp only
  rw [hend, and_pageMask_eq (by omega), and_pageMask_eq (by omega), hn, hfuel]

/-- A range of addresses: both ends are rounded outwards to pages, and the physical
start is rounded down as well. -/
theorem mapRangePages_spec (hpick : IdealPages pick) {r : PtRoot} (h : Built m r.l0 own old table)
    (va pa len : ℕ) {attrs : ℕ} (ha : GoodAttrs attrs) (hva : va + len ≤ 2 ^ 48) (hpa : pa < 2 ^ 48)
    (hpend : roundDown pa + (roundUp (va + len) - roundDown va) ≤ 2 ^ 48) :
    Allocs pick m.pages (3 * ((roundUp (va + len) - roundDown va) / 4096)) id
      (fun m' => (∃ own', Built m' r.l0 own' old table) ∧
        ∀ x, x < 2 ^ 48 → walk m' r.l0 x =
          if roundDown va ≤ x ∧ x < roundUp (va + len) then
            some (roundDown pa + (x - roundDown va), attrs)
          else walk m r.l0 x)
      (mapRangePages pick m r va pa len attrs) := by
  obtain ⟨n, hn⟩ := exists_pages va len
  rw [mapRangePages_eq r attrs hva hpa hn, hn]
  rw [hn] at hpend
  have hcount : (roundDown va + 4096 * n - roundDown va) / 4096 = n := by omega
  rw [hcount]
  refine mapLoop_spec hpick ha n h ?_ ?_ ?_ (by omega) ?_
  · unfold roundDown; omega
  · unfold roundDown; omega
  · unfold roundUp roundDown at hn; unfold roundDown; omega
  · omega

/-- Whatever the tables hold, a range of `n` pages takes at most three table pages for each,
and the mapping only stops when one of them is not there. -/
theorem mapRangePages_allocs (hpick : IdealPages pick) (m : PageMem) (r : PtRoot)
    {va pa len n : ℕ} (attrs : ℕ) (hva : va + len ≤ 2 ^ 48) (hpa : pa < 2 ^ 48)
    (hn : roundUp (va + len) = roundDown va + 4096 * n) :
    Allocs pick m.pages (3 * n) id (fun _ => True) (mapRangePages pick m r va pa len attrs) := by
  have hend : roundDown va + 4096 * n ≤ 2 ^ 48 := by
    unfold roundUp roundDown at hn
    unfold roundDown
    omega
  have hword : roundDown pa % u64 = roundDown pa :=
    Nat.mod_eq_of_lt (by unfold u64 roundDown; omega)
  rw [mapRangePages_eq r attrs hva hpa hn, ← hword]
  apply mapLoop_rule (fun k m' => (∃ j, j ≤ 3 * k ∧ m'.pages = grow pick j m.pages) ∧ True)
    ?_ (by omega) (by omega) ⟨⟨0, le_rfl, rfl⟩, trivial⟩
  intro k m₁ hk hm₁
  obtain ⟨⟨j, hj, hpages⟩, -⟩ := hm₁
  have hpage := mapPage_allocs hpick m₁ r (roundDown va + 4096 * k)
    ((roundDown pa + 4096 * k) % u64) attrs
  rw [hpages] at hpage
  apply hpage.weaken
  · intro e he
    exact (he.after hj).mono (by omega)
  · intro m₂ hm₂
    obtain ⟨⟨j', hj', hpages'⟩, -⟩ := hm₂
    exact ⟨⟨j + j', by omega, hpages'.trans (grow_add j j' m.pages).symm⟩, trivial⟩

/-- A fresh root translates nothing. -/
theorem ptRootNew_spec (hpick : IdealPages pick) (m : PageMem) :
    Allocs pick m.pages 1 Prod.snd
      (fun r => (∃ own, Built r.2 r.1.l0 own m.pages m.table) ∧ r.1.l0Pa = r.1.l0 ∧
        ∀ x, walk r.2 r.1.l0 x = none) (ptRootNew pick m) := by
  unfold ptRootNew
  refine ((ptAllocPageOrDie_spec hpick m).bind (k := 0) ?_).mono le_rfl fun _ => id
  rintro ⟨b, m'⟩ ⟨_, _, hfresh, hm'⟩
  dsimp only at hfresh hm'
  subst hm'
  have hrow : ∀ i, Function.update m.table b (fun _ => 0) b i = 0 := by
    intro i
    rw [Function.update_self]
  have htree : Tree nextTable Inner 3 (Function.update m.table b fun _ => 0) b [b] :=
    Tree.empty (show nextTable 0 = none from rfl) (Or.inl rfl) hrow
  refine allocs_pure rfl ⟨⟨[b], htree, rfl, ?_, ?_⟩, rfl, ?_⟩
  · intro a ha
    rw [List.mem_singleton.mp ha]
    exact hfresh
  · intro a ha
    have hab : a ≠ b := fun he => hfresh (he ▸ ha)
    exact Function.update_of_ne hab _ _
  · intro x
    rw [walk_eq_find htree, find_empty (show nextTable 0 = none from rfl)
      (show leaf 0 = none from rfl) hrow]
    rfl

end JanusRT
