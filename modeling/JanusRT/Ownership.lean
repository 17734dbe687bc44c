import JanusRT.IdealHeap
import JanusRT.States

/-!
# Who owns which block

Between two events every block that is out belongs to exactly one owner: the kernel map,
or a process that is ready, waiting or running, which owns its memory and the tables of its
map. Creating a process takes fresh blocks for it, and its exit returns all of them.
-/
namespace JanusRT
open Heap Outcome RadixTree

/-! ## Owners -/

/-- The table pages of a process's map. -/
def mapBlocks (m : IdealMem) (q : Proc) : Multiset ℕ := tablePages m.table 3 q.ctx.mmap.root.l0

/-- The memory of a process, if it has any. -/
def memBlock (q : Proc) : Multiset ℕ := if q.mem = 0 then 0 else {q.mem}

def assets (m : IdealMem) (q : Proc) : Multiset ℕ := memBlock q + mapBlocks m q

/-- The blocks of the kernel map and of all live processes. -/
def owned (k : Kernel IdealMem) : Multiset ℕ :=
  mapBlocks k.mem k.sched.p0 +
    ((liveProcs k.sched).map fun r => assets k.mem (k.sched.proc r)).sum

/-- What is out is owned, and nothing is owned twice. -/
structure Ownership (k : Kernel IdealMem) : Prop where
  exact : (livePtrs k.mem.hist : Multiset ℕ) = owned k
  once : (owned k).Nodup

/-- `q` has memory that `alloc` returned for a request of its size and that is still out. -/
def RealMem (m : IdealMem) (q : Proc) : Prop := q.mem ≠ 0 ∧ ⟨q.mem, q.memSize⟩ ∈ liveBlocks m.hist

/-- Memory that is recorded is real. -/
def MemKnown (k : Kernel IdealMem) : Prop :=
  ∀ r ∈ liveProcs k.sched, (k.sched.proc r).mem ≠ 0 → RealMem k.mem (k.sched.proc r)

/-! ## Live processes and the free stack -/

theorem liveProcs_eq {sc sc' : Sched} (h : Inv 0 sc) (h' : Inv 0 sc')
    (hfree : freeStack sc' = freeStack sc) : liveProcs sc' = liveProcs sc := by
  have heq := h'.free_add_live.trans h.free_add_live.symm
  rw [hfree] at heq
  exact add_left_cancel heq

theorem liveProcs_cons {sc sc' : Sched} {p : ProcRef} (h : Inv 0 sc) (h' : Inv 0 sc')
    (hfree : freeStack sc = p ::ₘ freeStack sc') : liveProcs sc' = p ::ₘ liveProcs sc := by
  have heq := h'.free_add_live.trans h.free_add_live.symm
  rw [hfree, Multiset.cons_add, ← Multiset.add_cons] at heq
  exact add_left_cancel heq

theorem Inv.nodup_live {sc : Sched} (h : Inv 0 sc) : (liveProcs sc).Nodup := by
  have hnd := nodup_allProcs
  rw [← h.free_add_live] at hnd
  exact (Multiset.nodup_add.mp hnd).2.1

theorem Inv.p0_not_live {sc : Sched} (h : Inv 0 sc) : .p0 ∉ liveProcs sc := by
  intro hm
  have hall : ProcRef.p0 ∈ allProcs := by
    rw [← h.free_add_live]
    exact Multiset.mem_add.mpr (Or.inr hm)
  obtain ⟨i, -, hi⟩ := mem_allProcs.mp hall
  cases hi

theorem Creates.liveProcs {sc sc' : Sched} {q : Proc} (hc : Creates sc sc' q) (h : Inv 0 sc)
    (h' : Inv 0 sc') : liveProcs sc' = sc.freeProc sc'.nfreeProc ::ₘ liveProcs sc :=
  liveProcs_cons h h' hc.freeStack_eq

theorem Exits.liveProcs {sc sc' : Sched} {i : ℕ} (he : Exits sc sc' i) (h : Inv 0 sc)
    (h' : Inv 0 sc') : liveProcs sc = .pb i ::ₘ liveProcs sc' :=
  liveProcs_cons h' h he.freeStack_eq

/-! ## Frames -/

/-- The record of a process apart from its state decides what it owns. -/
theorem assets_state (m : IdealMem) (q : Proc) (s : State) :
    assets m { q with state := s } = assets m q := rfl

theorem mapBlocks_state (m : IdealMem) (q : Proc) (s : State) :
    mapBlocks m { q with state := s } = mapBlocks m q := rfl

theorem mapBlocks_congr {m m' : IdealMem} {q : Proc}
    (h : ∀ a ∈ mapBlocks m q, m'.table a = m.table a) : mapBlocks m' q = mapBlocks m q := by
  unfold mapBlocks tablePages at *
  rw [nodes_congr h]

theorem mem_owned_of_live {k : Kernel IdealMem} {r : ProcRef} (hr : r ∈ liveProcs k.sched) {a : ℕ}
    (ha : a ∈ assets k.mem (k.sched.proc r)) : a ∈ owned k := by
  obtain ⟨t, ht⟩ := Multiset.exists_cons_of_mem hr
  rw [owned, ht, Multiset.map_cons, Multiset.sum_cons]
  simp only [Multiset.mem_add]
  exact Or.inr (Or.inl ha)

theorem mem_owned_of_kernel {k : Kernel IdealMem} {a : ℕ} (ha : a ∈ mapBlocks k.mem k.sched.p0) :
    a ∈ owned k := Multiset.mem_add.mpr (Or.inl ha)

/-- If the tables of all owners are unchanged, so is what they own. -/
theorem owned_rest {k k' : Kernel IdealMem} (rs : Multiset ProcRef)
    (hp0 : ∃ s, k'.sched.p0 = { k.sched.p0 with state := s })
    (hprocs : ∀ r ∈ rs, ∃ s, k'.sched.proc r = { k.sched.proc r with state := s })
    (hframe0 : ∀ a ∈ mapBlocks k.mem k.sched.p0, k'.mem.table a = k.mem.table a)
    (hframe : ∀ r ∈ rs, ∀ a ∈ mapBlocks k.mem (k.sched.proc r),
      k'.mem.table a = k.mem.table a) :
    mapBlocks k'.mem k'.sched.p0 + (rs.map fun r => assets k'.mem (k'.sched.proc r)).sum =
      mapBlocks k.mem k.sched.p0 + (rs.map fun r => assets k.mem (k.sched.proc r)).sum := by
  have hkernel : mapBlocks k'.mem k'.sched.p0 = mapBlocks k.mem k.sched.p0 := by
    obtain ⟨s, hs⟩ := hp0
    rw [hs, mapBlocks_state, mapBlocks_congr hframe0]
  have hrest : (rs.map fun r => assets k'.mem (k'.sched.proc r)) =
      rs.map fun r => assets k.mem (k.sched.proc r) := by
    apply Multiset.map_congr rfl
    intro r hr
    obtain ⟨s, hs⟩ := hprocs r hr
    rw [hs, assets_state, assets, assets, mapBlocks_congr (hframe r hr)]
  rw [hkernel, hrest]

/-- Events that only move processes. -/
structure Moves (k k' : Kernel IdealMem) : Prop where
  mem : k'.mem = k.mem
  nfreeProc : k'.sched.nfreeProc = k.sched.nfreeProc
  freeProc : k'.sched.freeProc = k.sched.freeProc
  procs : ∀ r, ∃ u s, k'.sched.proc r = { k.sched.proc r with waitUntil := u, state := s }

theorem Ownership.moved {k k' : Kernel IdealMem} (h : Ownership k) (hinv : Inv 0 k.sched)
    (hinv' : Inv 0 k'.sched) (hm : Moves k k') : Ownership k' := by
  have hlive := liveProcs_eq hinv hinv' (freeStack_congr hm.freeProc hm.nfreeProc)
  have hassets : ∀ r, memBlock (k'.sched.proc r) = memBlock (k.sched.proc r) ∧
      mapBlocks k'.mem (k'.sched.proc r) = mapBlocks k.mem (k.sched.proc r) := by
    intro r
    obtain ⟨u, s, hs⟩ := hm.procs r
    rw [hs, hm.mem]
    exact ⟨rfl, rfl⟩
  have howned : owned k' = owned k := by
    have hp0 : mapBlocks k'.mem k'.sched.p0 = mapBlocks k.mem k.sched.p0 := (hassets .p0).2
    rw [owned, owned, hlive, hp0]
    simp only [assets, hassets]
  exact ⟨by rw [hm.mem, h.exact, howned], by rw [howned]; exact h.once⟩

theorem MemKnown.moved {k k' : Kernel IdealMem} (h : MemKnown k) (hinv : Inv 0 k.sched)
    (hinv' : Inv 0 k'.sched) (hm : Moves k k') : MemKnown k' := by
  intro r hr hne
  rw [liveProcs_eq hinv hinv' (freeStack_congr hm.freeProc hm.nfreeProc)] at hr
  obtain ⟨u, s, hs⟩ := hm.procs r
  rw [hs] at hne ⊢
  rw [hm.mem]
  exact h r hr hne

/-! ## Creation -/

section Create
variable {place : List HeapCall → ℕ → ℕ → ℕ} {k k' : Kernel IdealMem} {q : Proc}

theorem mem_liveBlocks_pageCalls {b : HeapBlock} {hist : List HeapCall} (hb : b ∈ liveBlocks hist)
    (ps : List ℕ) : b ∈ liveBlocks (pageCalls ps hist) := by
  induction ps with
  | nil => exact hb
  | cons p ps ih =>
    have hcons : pageCalls (p :: ps) hist = .alloc pageSize pageSize p :: pageCalls ps hist := rfl
    rw [hcons, liveBlocks]
    split_ifs
    · exact ih
    · exact List.mem_cons_of_mem _ ih

theorem Ownership.mem_live (h : Ownership k) {a : ℕ} : a ∈ owned k ↔ a ∈ livePtrs k.mem.hist := by
  rw [← h.exact, Multiset.mem_coe]

theorem Ownership.nodup_live (h : Ownership k) : (livePtrs k.mem.hist).Nodup := by
  have hnd := h.once
  rwa [← h.exact, Multiset.coe_nodup] at hnd

/-- The blocks of a new process are out beside the old ones. -/
theorem livePtrs_created {hist : List HeapCall} {ps : List ℕ} {len ptr : ℕ}
    (hps : ∀ p ∈ ps, p ≠ 0) (hq : q.mem = ptr) :
    (livePtrs (pageCalls ps (.alloc len 1 ptr :: hist)) : Multiset ℕ) =
      memBlock q + ps + livePtrs hist := by
  rw [livePtrs_pageCalls hps, livePtrs_alloc, ← Multiset.coe_add, memBlock, hq]
  split_ifs with hz
  · rw [zero_add]
  · rw [← Multiset.cons_coe, ← Multiset.singleton_add]
    abel

/-- `alloc`, then the tables, then the process. -/
theorem Ownership.created (h : Ownership k) (hp : IdealAlloc place) (hinv : Inv 0 k.sched)
    (hinv' : Inv 0 k'.sched) (hc : Creates k.sched k'.sched q) {memReq : ℕ} {m : IdealMem}
    (halloc : idealAlloc place k.mem memReq = .ok (q.mem, m)) {ps : List ℕ}
    (htake : TakesPages m k'.mem q.ctx.mmap.root ps) : Ownership k' := by
  simp only [idealAlloc, Except.ok.injEq, Prod.mk.injEq] at halloc
  obtain ⟨hmem, rfl⟩ := halloc
  have hlive := hc.liveProcs hinv hinv'
  generalize hnew : k.sched.freeProc k'.sched.nfreeProc = new at hlive
  have hnd := hinv'.nodup_live
  have hp0 := hinv'.p0_not_live
  rw [hlive] at hnd hp0
  have hne0 : ProcRef.p0 ≠ new := fun he => hp0 (he ▸ Multiset.mem_cons_self _ _)
  have hne : ∀ r ∈ liveProcs k.sched, r ≠ new := by
    rintro r hr rfl
    exact (Multiset.nodup_cons.mp hnd).1 hr
  have hold : ∀ r, r ≠ new → ∃ s, k'.sched.proc r = { k.sched.proc r with state := s } := by
    rw [← hnew]
    exact hc.others
  have hz : ∀ p ∈ ps, p ≠ 0 := fun p hm => (htake.fresh p hm).1
  -- the tables of every old owner are out, so they are not among the fresh pages
  have hframe : ∀ a, a ∈ owned k → k'.mem.table a = k.mem.table a := by
    intro a ha
    apply htake.frame a
    intro hap
    apply (htake.fresh a hap).2
    rw [livePtrs_alloc]
    have ha' := h.mem_live.mp ha
    split_ifs
    · exact ha'
    · exact List.mem_cons_of_mem _ ha'
  have hrest := owned_rest (liveProcs k.sched) (hold .p0 hne0)
    (fun r hr => hold r (hne r hr)) (fun a ha => hframe a (mem_owned_of_kernel ha))
    (fun r hr a ha => hframe a (mem_owned_of_live hr (Multiset.mem_add.mpr (Or.inr ha))))
  have hassets : assets k'.mem (k'.sched.proc new) = memBlock q + ps := by
    obtain ⟨s, hs⟩ := hc.created
    rw [hnew] at hs
    rw [hs, assets_state, assets, mapBlocks, Multiset.coe_eq_coe.mpr htake.pages]
  have howned : owned k' = memBlock q + ps + owned k := by
    rw [owned, hlive, Multiset.map_cons, Multiset.sum_cons, hassets, add_left_comm, hrest, owned]
  have hexact : (livePtrs k'.mem.hist : Multiset ℕ) = owned k' := by
    rw [htake.hist, livePtrs_created hz hmem.symm, h.exact, howned]
  refine ⟨hexact, ?_⟩
  rw [← hexact, Multiset.coe_nodup, htake.hist, livePtrs_pageCalls hz, List.nodup_append]
  refine ⟨htake.nodup, ?_, ?_⟩
  · rw [livePtrs_alloc]
    split_ifs with hzero
    · exact h.nodup_live
    · refine List.nodup_cons.mpr ⟨?_, h.nodup_live⟩
      exact hp.not_mem hzero
  · rintro a ha b hb rfl
    exact (htake.fresh a ha).2 hb

theorem MemKnown.created (h : MemKnown k) (hinv : Inv 0 k.sched) (hinv' : Inv 0 k'.sched)
    (hc : Creates k.sched k'.sched q) {m : IdealMem}
    (halloc : idealAlloc place k.mem q.memSize = .ok (q.mem, m)) {ps : List ℕ}
    (htake : TakesPages m k'.mem q.ctx.mmap.root ps) : MemKnown k' := by
  simp only [idealAlloc, Except.ok.injEq, Prod.mk.injEq] at halloc
  obtain ⟨hmem, rfl⟩ := halloc
  have hnd := hinv'.nodup_live
  rw [hc.liveProcs hinv hinv'] at hnd
  intro r hr hne
  rw [hc.liveProcs hinv hinv', Multiset.mem_cons] at hr
  have hgrow : ∀ b ∈ liveBlocks (.alloc q.memSize 1 q.mem :: k.mem.hist),
      b ∈ liveBlocks k'.mem.hist := by
    intro b hb
    rw [htake.hist]
    refine mem_liveBlocks_pageCalls ?_ ps
    rwa [← hmem] at hb
  obtain rfl | hr := hr
  · obtain ⟨s, hs⟩ := hc.created
    rw [hs] at hne ⊢
    refine ⟨hne, hgrow _ ?_⟩
    rw [liveBlocks, if_neg hne]
    exact List.mem_cons_self
  · have hnew : r ≠ k.sched.freeProc k'.sched.nfreeProc := by
      rintro rfl
      exact (Multiset.nodup_cons.mp hnd).1 hr
    obtain ⟨s, hs⟩ := hc.others r hnew
    rw [hs] at hne ⊢
    obtain ⟨-, hb⟩ := h r hr hne
    refine ⟨hne, hgrow _ ?_⟩
    rw [liveBlocks]
    split_ifs
    · exact hb
    · exact List.mem_cons_of_mem _ hb

end Create

/-! ## Exit -/

section Exit
variable {k k' : Kernel IdealMem} {ignoresNull : Bool}

theorem zero_not_live (hist : List HeapCall) : 0 ∉ livePtrs hist := by
  induction hist with
  | nil => simp [livePtrs, liveBlocks]
  | cons c hist ih =>
    cases c with
    | alloc len align ptr =>
      rw [livePtrs_alloc]
      split_ifs with hz
      · exact ih
      · rw [List.mem_cons, not_or]
        exact ⟨fun he => hz he.symm, ih⟩
    | free ptr =>
      rw [livePtrs_free, List.mem_filter, not_and]
      exact fun h0 => absurd h0 ih

/-- The memory after the block of `q` was returned. -/
def afterFree (m : IdealMem) (q : Proc) : IdealMem :=
  if q.mem = 0 then m else { m with hist := .free q.mem :: m.hist }

theorem afterFree_table (m : IdealMem) (q : Proc) : (afterFree m q).table = m.table := by
  unfold afterFree
  split_ifs <;> rfl

theorem liveBlocks_afterFree (m : IdealMem) (q : Proc) :
    liveBlocks (afterFree m q).hist = (liveBlocks m.hist).filter fun b => b.ptr ∉ memBlock q := by
  unfold afterFree memBlock
  split_ifs with hz
  · simp
  · rw [liveBlocks]
    apply List.filter_congr
    intro b _
    simp

theorem livePtrs_afterFree (m : IdealMem) (q : Proc) :
    livePtrs (afterFree m q).hist = (livePtrs m.hist).filter (· ∉ memBlock q) := by
  unfold livePtrs
  rw [liveBlocks_afterFree, List.filter_map]
  rfl

/-- The blocks of a live process and those of all others make up what is owned. -/
theorem owned_split {r : ProcRef} (hr : r ∈ liveProcs k.sched) :
    ∃ rest, owned k = assets k.mem (k.sched.proc r) + rest := by
  obtain ⟨t, ht⟩ := Multiset.exists_cons_of_mem hr
  refine ⟨mapBlocks k.mem k.sched.p0 +
    (t.map fun r => assets k.mem (k.sched.proc r)).sum, ?_⟩
  rw [owned, ht, Multiset.map_cons, Multiset.sum_cons, add_left_comm]

theorem Ownership.assets_nodup (h : Ownership k) {r : ProcRef} (hr : r ∈ liveProcs k.sched) :
    (assets k.mem (k.sched.proc r)).Nodup := by
  obtain ⟨rest, hrest⟩ := owned_split hr
  have hnd := h.once
  rw [hrest] at hnd
  exact (Multiset.nodup_add.mp hnd).1

/-- `free` accepts the memory of a live process, unless it is NULL and `free` does not. -/
theorem Ownership.free_mem (h : Ownership k) {r : ProcRef} (hr : r ∈ liveProcs k.sched) :
    Holds Lawful (fun m => m = afterFree k.mem (k.sched.proc r))
      (idealFree ignoresNull k.mem (k.sched.proc r).mem) := by
  unfold idealFree afterFree
  by_cases hz : (k.sched.proc r).mem = 0
  · rw [if_pos hz, if_pos hz]
    split_ifs
    · rfl
    · exact lawful_panic (by decide)
  · have hmem : (k.sched.proc r).mem ∈ livePtrs k.mem.hist := by
      refine h.mem_live.mp (mem_owned_of_live hr ?_)
      simp [assets, memBlock, hz]
    rw [if_neg hz, if_pos hmem, if_neg hz]
    rfl

/-- Afterwards the tables of the process can be returned. -/
theorem Ownership.returnable (h : Ownership k) {r : ProcRef} (hr : r ∈ liveProcs k.sched) :
    Returnable (afterFree k.mem (k.sched.proc r))
      (tablePages (afterFree k.mem (k.sched.proc r)).table 3 (k.sched.proc r).ctx.mmap.root.l0) := by
  obtain ⟨-, hnd, hdis⟩ := Multiset.nodup_add.mp (h.assets_nodup hr)
  rw [afterFree_table]
  refine ⟨Multiset.coe_nodup.mp hnd, ?_⟩
  intro a ha
  have hlive : a ∈ livePtrs k.mem.hist :=
    h.mem_live.mp (mem_owned_of_live hr (Multiset.mem_add.mpr (Or.inr (Multiset.mem_coe.mpr ha))))
  refine ⟨fun hz => zero_not_live _ (hz ▸ hlive), ?_⟩
  rw [livePtrs_afterFree, List.mem_filter, decide_eq_true_eq]
  exact ⟨hlive, fun hb => Multiset.disjoint_left.mp hdis hb (Multiset.mem_coe.mpr ha)⟩

/-- What is out after an exit: everything but the blocks of the process. -/
theorem Ownership.exit_blocks (h : Ownership k) {r : ProcRef} (hr : r ∈ liveProcs k.sched)
    {m' : IdealMem}
    (hroot : ptRootFree ignoresNull (afterFree k.mem (k.sched.proc r))
      (k.sched.proc r).ctx.mmap.root = .ok m') :
    liveBlocks m'.hist =
        (liveBlocks k.mem.hist).filter (fun b => b.ptr ∉ assets k.mem (k.sched.proc r)) ∧
      ∀ a, a ∉ assets k.mem (k.sched.proc r) → m'.table a = k.mem.table a := by
  obtain ⟨m₁, hok, hfreed⟩ : ∃ m₁, ptRootFree ignoresNull (afterFree k.mem (k.sched.proc r))
      (k.sched.proc r).ctx.mmap.root = .ok m₁ ∧ Freed (afterFree k.mem (k.sched.proc r)) m₁ _ :=
    ptRootFree_spec (h.returnable hr)
  obtain rfl := Except.ok.inj (hok.symm.trans hroot)
  have hhist := hfreed.hist
  have hframe := hfreed.frame
  rw [afterFree_table] at hhist hframe
  constructor
  · rw [hhist, liveBlocks_frees, liveBlocks_afterFree, List.filter_filter]
    apply List.filter_congr
    intro b _
    simp only [assets, mapBlocks, Multiset.mem_add, Multiset.mem_coe, not_or,
      Bool.decide_and]
    exact Bool.and_comm _ _
  · intro a ha
    apply hframe a
    intro hm
    exact ha (Multiset.mem_add.mpr (Or.inr (Multiset.mem_coe.mpr hm)))

/-- An exit returns everything the process owned and nothing else. -/
theorem Ownership.exited (h : Ownership k) (hinv : Inv 0 k.sched) (hinv' : Inv 0 k'.sched) {i : ℕ}
    (hx : Exits k.sched k'.sched i)
    (hroot : ptRootFree ignoresNull (afterFree k.mem (k.sched.pb i)) (k.sched.pb i).ctx.mmap.root =
      .ok k'.mem) : Ownership k' := by
  have hlive := hx.liveProcs hinv hinv'
  have hi : ProcRef.pb i ∈ liveProcs k.sched := hlive ▸ Multiset.mem_cons_self _ _
  obtain ⟨hblocks, hframe⟩ := h.exit_blocks (r := .pb i) hi hroot
  have hnd := hinv.nodup_live
  rw [hlive] at hnd
  have hne : ∀ r ∈ liveProcs k'.sched, r ≠ .pb i := by
    rintro r hr rfl
    exact (Multiset.nodup_cons.mp hnd).1 hr
  have hsplit : owned k = assets k.mem (k.sched.proc (.pb i)) + (mapBlocks k.mem k.sched.p0 +
      ((liveProcs k'.sched).map fun r => assets k.mem (k.sched.proc r)).sum) := by
    rw [owned, hlive, Multiset.map_cons, Multiset.sum_cons, add_left_comm]
  have honce := h.once
  rw [hsplit] at honce
  obtain ⟨-, hrestnd, hdis⟩ := Multiset.nodup_add.mp honce
  -- nothing that another owner has is written
  have hother : ∀ a ∈ mapBlocks k.mem k.sched.p0 +
      ((liveProcs k'.sched).map fun r => assets k.mem (k.sched.proc r)).sum,
      k'.mem.table a = k.mem.table a :=
    fun a ha => hframe a fun hm => Multiset.disjoint_left.mp hdis hm ha
  have hrest := owned_rest (liveProcs k'.sched)
    (hx.others .p0 (by simp)) (fun r hr => hx.others r (hne r hr))
    (fun a ha => hother a (Multiset.mem_add.mpr (Or.inl ha))) ?_
  · have howned : owned k' = mapBlocks k.mem k.sched.p0 +
        ((liveProcs k'.sched).map fun r => assets k.mem (k.sched.proc r)).sum := hrest
    refine ⟨?_, by rw [howned]; exact hrestnd⟩
    have hptrs : livePtrs k'.mem.hist =
        (livePtrs k.mem.hist).filter (· ∉ assets k.mem (k.sched.proc (.pb i))) := by
      unfold livePtrs
      rw [hblocks, List.filter_map]
      rfl
    rw [hptrs, howned, ← Multiset.filter_coe, h.exact, hsplit, Multiset.filter_add]
    have hnone : (assets k.mem (k.sched.proc (.pb i))).filter
        (· ∉ assets k.mem (k.sched.proc (.pb i))) = 0 :=
      Multiset.filter_eq_nil.mpr fun a ha hn => hn ha
    rw [hnone, zero_add]
    exact Multiset.filter_eq_self.mpr fun a ha hm => Multiset.disjoint_left.mp hdis hm ha
  · intro r hr a ha
    refine hother a (Multiset.mem_add.mpr (Or.inr ?_))
    obtain ⟨t, ht⟩ := Multiset.exists_cons_of_mem hr
    rw [ht, Multiset.map_cons, Multiset.sum_cons]
    exact Multiset.mem_add.mpr (Or.inl (Multiset.mem_add.mpr (Or.inr ha)))

theorem MemKnown.exited (hk : MemKnown k) (h : Ownership k) (hinv : Inv 0 k.sched)
    (hinv' : Inv 0 k'.sched) {i : ℕ} (hx : Exits k.sched k'.sched i)
    (hroot : ptRootFree ignoresNull (afterFree k.mem (k.sched.pb i)) (k.sched.pb i).ctx.mmap.root =
      .ok k'.mem) : MemKnown k' := by
  have hlive := hx.liveProcs hinv hinv'
  have hi : ProcRef.pb i ∈ liveProcs k.sched := hlive ▸ Multiset.mem_cons_self _ _
  obtain ⟨hblocks, -⟩ := h.exit_blocks (r := .pb i) hi hroot
  have hnd := hinv.nodup_live
  rw [hlive] at hnd
  intro r hr hne
  have hri : r ≠ .pb i := by
    rintro rfl
    exact (Multiset.nodup_cons.mp hnd).1 hr
  obtain ⟨s, hs⟩ := hx.others r hri
  rw [hs] at hne ⊢
  have hr' : r ∈ liveProcs k.sched := by
    rw [hlive]
    exact Multiset.mem_cons_of_mem hr
  obtain ⟨-, hb⟩ := hk r hr' hne
  refine ⟨hne, ?_⟩
  rw [hblocks, List.mem_filter, decide_eq_true_eq]
  refine ⟨hb, ?_⟩
  -- the block of one process is not a block of another
  intro hm
  have honce := h.once
  obtain ⟨t, ht⟩ := Multiset.exists_cons_of_mem hr
  rw [owned, hlive, ht, Multiset.map_cons, Multiset.map_cons, Multiset.sum_cons,
    Multiset.sum_cons] at honce
  obtain ⟨-, hpair, -⟩ := Multiset.nodup_add.mp honce
  obtain ⟨-, -, hdis⟩ := Multiset.nodup_add.mp hpair
  refine Multiset.disjoint_left.mp hdis hm (Multiset.mem_add.mpr (Or.inl ?_))
  refine Multiset.mem_add.mpr (Or.inl ?_)
  have hne' : (k.sched.proc r).mem ≠ 0 := hne
  rw [memBlock, if_neg hne']
  exact Multiset.mem_singleton_self _

end Exit

end JanusRT
