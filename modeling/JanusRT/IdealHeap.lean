import JanusRT.ProcessMap

/-!
# Page tables over an ideal allocator

Who owns a page can be read off the history of allocator calls. Here `alloc`,
`aligned_alloc` and `free` are ideal: a block that is not NULL is fresh, and returning
what is not out is an error that nothing else raises. The functions of `mmu.c` that build
tables run on top of it unchanged, and `pt_root_free` is added.
-/
namespace JanusRT
open RadixTree Outcome

/-! ## Histories -/

/-- A call of the allocator with its answer. NULL is zero. -/
inductive HeapCall
  | alloc (len align ptr : ℕ)
  | free (ptr : ℕ)
  deriving DecidableEq, Repr

structure HeapBlock where
  ptr : ℕ
  len : ℕ
  deriving DecidableEq, Repr

/-- The blocks that are out after the calls of a history, the last of which comes first. -/
def liveBlocks : List HeapCall → List HeapBlock
  | [] => []
  | .alloc len _ ptr :: hist => if ptr = 0 then liveBlocks hist else ⟨ptr, len⟩ :: liveBlocks hist
  | .free ptr :: hist => (liveBlocks hist).filter fun b => b.ptr ≠ ptr

def livePtrs (hist : List HeapCall) : List ℕ := (liveBlocks hist).map HeapBlock.ptr

/-- `place hist len align` answers a request after the calls `hist`. A block that is not
NULL is aligned, in the physical address space, and apart from all blocks that are out. -/
structure IdealAlloc (place : List HeapCall → ℕ → ℕ → ℕ) : Prop where
  aligned : ∀ hist len align, place hist len align % align = 0
  bound : ∀ hist len align, place hist len align < 2 ^ 48
  fresh : ∀ hist len align, place hist len align ≠ 0 → ∀ b ∈ liveBlocks hist,
    b.ptr ≠ place hist len align ∧
      (b.ptr + b.len ≤ place hist len align ∨ place hist len align + len ≤ b.ptr)

/-- The error of the ideal allocator. -/
def illegalFree : Halt := .panic .eunknown

/-- The calls so far and the contents of the table pages. -/
structure IdealMem where
  hist : List HeapCall
  table : ℕ → ℕ → ℕ

section Calls
variable (place : List HeapCall → ℕ → ℕ → ℕ) (ignoresNull : Bool)

def idealAlloc (m : IdealMem) (len : ℕ) : Except Halt (ℕ × IdealMem) :=
  let p := place m.hist len 1
  .ok (p, { m with hist := .alloc len 1 p :: m.hist })

/-- The standard lets `free` ignore NULL; the assertions of this one do not. -/
def idealFree (m : IdealMem) (ptr : ℕ) : Except Halt IdealMem :=
  if ptr = 0 then (if ignoresNull then .ok m else .error (.panic .eassert))
  else if ptr ∈ livePtrs m.hist then .ok { m with hist := .free ptr :: m.hist }
  else .error illegalFree

/-- The history after `aligned_alloc` has returned the pages `used`. -/
def pageCalls (used : List ℕ) (hist : List HeapCall) : List HeapCall :=
  used.map (HeapCall.alloc pageSize pageSize) ++ hist

/-- The page that `aligned_alloc` returns next to the table code. -/
def idealPick (hist : List HeapCall) (used : List ℕ) : ℕ :=
  place (pageCalls used hist) pageSize pageSize

/-- A function of the table code, run on the pages it takes itself. -/
def onTables (m : IdealMem) (f : PageMem → Except Halt (PtRoot × PageMem)) :
    Except Halt (PtRoot × IdealMem) := do
  let r ← f ⟨m.table, []⟩
  pure (r.1, ⟨pageCalls r.2.pages m.hist, r.2.table⟩)

/-! ## Releasing tables -/

/-- The loop of `free_table_level` and the release of the page itself. `down` is what the
level does with a valid descriptor before it is scrubbed. -/
def freeEntries (down : IdealMem → ℕ → Except Halt IdealMem) (m : IdealMem) (table : ℕ) :
    Except Halt IdealMem := do
  let m ← (List.range 512).foldlM (fun m i =>
    let d := m.table table i
    if d &&& pteValid = 0 then pure m
    else do
      let m ← down m d
      pure { m with table := write m.table table i 0 }) m
  idealFree ignoresNull m table

/-- `free_table_level`, by the number of levels below. -/
def freeTableLevel : ℕ → IdealMem → ℕ → Except Halt IdealMem
  | 0 => freeEntries ignoresNull fun m _ => pure m
  | n + 1 => freeEntries ignoresNull fun m d =>
    if d &&& 3 = descTableBits then freeTableLevel n m (d &&& pageMask) else pure m

def ptRootFree (m : IdealMem) (r : PtRoot) : Except Halt IdealMem :=
  if r.l0 = 0 then pure m else freeTableLevel ignoresNull 3 m r.l0

/-- The scheduler's platform over the ideal allocator. -/
def idealPlatform (kernelEnd : ℕ) (cntpct : ℕ → ℕ) (jrtExit : ℕ) : Platform IdealMem where
  alloc := idealAlloc place
  free := idealFree ignoresNull
  procRoot m base len := onTables m fun t => procRoot (idealPick place m.hist) kernelEnd t base len
  kernRoot m := onTables m fun t => kernRoot (idealPick place m.hist) t
  rootFree := ptRootFree ignoresNull
  cntpct := cntpct
  jrtExit := jrtExit

end Calls

/-! ## What is out after a call -/

theorem livePtrs_alloc (len align ptr : ℕ) (hist : List HeapCall) :
    livePtrs (.alloc len align ptr :: hist) =
      if ptr = 0 then livePtrs hist else ptr :: livePtrs hist := by
  rw [livePtrs, liveBlocks]
  split_ifs <;> rfl

theorem livePtrs_free (ptr : ℕ) (hist : List HeapCall) :
    livePtrs (.free ptr :: hist) = (livePtrs hist).filter (· ≠ ptr) := by
  unfold livePtrs
  rw [liveBlocks, List.filter_map]
  rfl

/-- The history after the blocks `ps` were returned, in this order. -/
def frees (ps : List ℕ) (hist : List HeapCall) : List HeapCall :=
  (ps.map HeapCall.free).reverse ++ hist

theorem frees_append (ps qs : List ℕ) (hist : List HeapCall) :
    frees (ps ++ qs) hist = frees qs (frees ps hist) := by
  simp [frees]

theorem liveBlocks_frees (ps : List ℕ) (hist : List HeapCall) :
    liveBlocks (frees ps hist) = (liveBlocks hist).filter fun b => b.ptr ∉ ps := by
  induction ps using List.reverseRecOn with
  | nil => simp [frees]
  | append_singleton ps p ih =>
    have hcons : frees [p] (frees ps hist) = .free p :: frees ps hist := rfl
    rw [frees_append, hcons, liveBlocks, ih, List.filter_filter]
    apply List.filter_congr
    intro b _
    simp [and_comm]

theorem livePtrs_frees (ps : List ℕ) (hist : List HeapCall) :
    livePtrs (frees ps hist) = (livePtrs hist).filter (· ∉ ps) := by
  unfold livePtrs
  rw [liveBlocks_frees, List.filter_map]
  rfl

/-- Pages taken by the table code are out. -/
theorem livePtrs_pageCalls {used : List ℕ} (h : ∀ p ∈ used, p ≠ 0) (hist : List HeapCall) :
    livePtrs (pageCalls used hist) = used ++ livePtrs hist := by
  induction used with
  | nil => rfl
  | cons p used ih =>
    have hcons : pageCalls (p :: used) hist = .alloc pageSize pageSize p :: pageCalls used hist :=
      rfl
    rw [hcons, livePtrs_alloc, if_neg (h p List.mem_cons_self),
      ih fun q hq => h q (List.mem_cons_of_mem p hq), List.cons_append]

/-! ## Releasing what a walk reaches -/

/-- The link that `free_table_level` follows above the last level. -/
def tableLink (d : ℕ) : Option ℕ := if d &&& 3 = descTableBits then some (d &&& pageMask) else none

/-- The pages of a table with `n` levels below it, in the order in which they are freed. -/
def tablePages (table : ℕ → ℕ → ℕ) (n t : ℕ) : List ℕ := nodes tableLink table 512 n t

/-- The pages `ps` were returned, and no other page was written. -/
structure Freed (m m' : IdealMem) (ps : List ℕ) : Prop where
  hist : m'.hist = frees ps m.hist
  frame : ∀ a, a ∉ ps → m'.table a = m.table a

/-- Every page of `ps` is out once. -/
structure Returnable (m : IdealMem) (ps : List ℕ) : Prop where
  nodup : ps.Nodup
  live : ∀ p ∈ ps, p ≠ 0 ∧ p ∈ livePtrs m.hist

theorem Returnable.left {m : IdealMem} {ps qs : List ℕ} (h : Returnable m (ps ++ qs)) :
    Returnable m ps :=
  ⟨(List.nodup_append.mp h.nodup).1, fun p hp => h.live p (List.mem_append_left _ hp)⟩

/-- Returning some pages leaves the others out. -/
theorem Returnable.right {m m' : IdealMem} {ps qs : List ℕ} (h : Returnable m (ps ++ qs))
    (hf : m'.hist = frees ps m.hist) : Returnable m' qs := by
  obtain ⟨-, hqs, hdis⟩ := List.nodup_append.mp h.nodup
  refine ⟨hqs, ?_⟩
  intro q hq
  obtain ⟨hne, hlive⟩ := h.live q (List.mem_append_right _ hq)
  refine ⟨hne, ?_⟩
  rw [hf, livePtrs_frees, List.mem_filter, decide_eq_true_eq]
  exact ⟨hlive, fun hp => hdis q hp q hq rfl⟩

section Release
variable {ignoresNull : Bool} {down : IdealMem → ℕ → Except Halt IdealMem}
  {below : (ℕ → ℕ → ℕ) → ℕ → List ℕ}

/-- What is assumed of the descent: it returns the pages below a valid descriptor, which
depend on those pages only. -/
structure Descends (down : IdealMem → ℕ → Except Halt IdealMem)
    (below : (ℕ → ℕ → ℕ) → ℕ → List ℕ) : Prop where
  freed : ∀ m d, Returnable m (below m.table d) →
    ∃ m', down m d = .ok m' ∧ Freed m m' (below m.table d)
  congr : ∀ table table' d, (∀ a ∈ below table d, table' a = table a) →
    below table' d = below table d
  invalid : ∀ table d, d &&& pteValid = 0 → below table d = []

/-- One entry after the other. What the later entries lead to is not touched by the
earlier ones. -/
theorem freeEntries_loop (h : Descends down below) (t : ℕ) (is : List ℕ) (hnd : is.Nodup)
    (m : IdealMem) (hps : Returnable m ((is.flatMap fun i => below m.table (m.table t i)) ++ [t])) :
    ∃ m', is.foldlM (fun (m : IdealMem) i =>
        let d := m.table t i
        if d &&& pteValid = 0 then pure m
        else do
          let m ← down m d
          pure { m with table := write m.table t i 0 }) m = .ok m' ∧
      m'.hist = frees (is.flatMap fun i => below m.table (m.table t i)) m.hist ∧
      ∀ a, a ∉ (is.flatMap fun i => below m.table (m.table t i)) → a ≠ t →
        m'.table a = m.table a := by
  induction is generalizing m with
  | nil => exact ⟨m, rfl, rfl, fun _ _ _ => rfl⟩
  | cons i is ih =>
    obtain ⟨hi, hnd'⟩ := List.nodup_cons.mp hnd
    rw [List.flatMap_cons, List.append_assoc] at hps
    -- the pages below entry `i`, those below the later entries, and the table itself
    generalize hps₀ : below m.table (m.table t i) = ps at hps
    generalize hqs₀ : (is.flatMap fun j => below m.table (m.table t j)) = qs at hps
    obtain ⟨-, hq, hdis⟩ := List.nodup_append.mp hps.nodup
    have htq : t ∉ qs := by
      intro ht
      exact (List.nodup_append.mp hq).2.2 t ht t (List.mem_singleton_self t) rfl
    have htp : t ∉ ps := fun ht => hdis t ht t (by simp) rfl
    have hmem : ∀ j ∈ is, ∀ a ∈ below m.table (m.table t j), a ∈ qs := by
      intro j hj a ha
      rw [← hqs₀]
      exact List.mem_flatMap.mpr ⟨j, hj, ha⟩
    -- after any change that spares these pages the rest of the loop does its work
    have hrest : ∀ m₁ : IdealMem, m₁.hist = frees ps m.hist →
        (∀ a, a ∉ ps → a ≠ t → m₁.table a = m.table a) → (∀ j, j ≠ i → m₁.table t j = m.table t j) →
        ∃ m', is.foldlM (fun (m : IdealMem) i =>
            let d := m.table t i
            if d &&& pteValid = 0 then pure m
            else do
              let m ← down m d
              pure { m with table := write m.table t i 0 }) m₁ = .ok m' ∧
          m'.hist = frees (ps ++ qs) m.hist ∧
          ∀ a, a ∉ ps ++ qs → a ≠ t → m'.table a = m.table a := by
      intro m₁ hhist hframe hrow
      have hsame : (is.flatMap fun j => below m₁.table (m₁.table t j)) = qs := by
        rw [← hqs₀]
        apply List.flatMap_congr
        intro j hj
        have hji : j ≠ i := fun he => hi (he ▸ hj)
        rw [hrow j hji]
        apply h.congr _ _ _
        intro a ha
        have haq := hmem j hj a ha
        refine hframe a ?_ (fun he => htq (he ▸ haq))
        intro hap
        exact hdis a hap a (List.mem_append_left _ haq) rfl
      have hret : Returnable m₁ (qs ++ [t]) := hps.right hhist
      rw [← hsame] at hret
      obtain ⟨m', hok, hh, hf⟩ := ih hnd' m₁ hret
      rw [hsame] at hh hf
      refine ⟨m', hok, ?_, ?_⟩
      · rw [hh, hhist, frees_append]
      · intro a ha hat
        rw [List.mem_append, not_or] at ha
        rw [hf a ha.2 hat, hframe a ha.1 hat]
    rw [List.foldlM_cons, List.flatMap_cons, hps₀, hqs₀]
    dsimp only
    split_ifs with hv
    · have hnil : ps = [] := by rw [← hps₀, h.invalid _ _ hv]
      rw [pure_bind]
      refine hrest m ?_ (fun _ _ _ => rfl) (fun _ _ => rfl)
      rw [hnil]
      rfl
    · have hdown := h.freed m (m.table t i)
      rw [hps₀] at hdown
      obtain ⟨m₁, hok₁, hf₁⟩ := hdown hps.left
      rw [hok₁, ok_bind, pure_bind]
      refine hrest _ hf₁.hist ?_ ?_
      · intro a ha hat
        change write m₁.table t i 0 a = m.table a
        rw [write, Function.update_of_ne hat, hf₁.frame a ha]
      · intro j hj
        change write m₁.table t i 0 t j = m.table t j
        rw [write_ne 0 (Or.inr hj), hf₁.frame t htp]

theorem freeEntries_spec (h : Descends down below) (m : IdealMem) (t : ℕ)
    (hps : Returnable m (((List.range 512).flatMap fun i => below m.table (m.table t i)) ++ [t])) :
    ∃ m', freeEntries ignoresNull down m t = .ok m' ∧
      Freed m m' (((List.range 512).flatMap fun i => below m.table (m.table t i)) ++ [t]) := by
  obtain ⟨m₁, hok, hhist, hframe⟩ := freeEntries_loop h t (List.range 512) List.nodup_range m hps
  obtain ⟨hne, hlive⟩ := (hps.right hhist).live t (List.mem_singleton_self t)
  refine ⟨{ m₁ with hist := .free t :: m₁.hist }, ?_, ?_, ?_⟩
  · rw [freeEntries, hok, ok_bind, idealFree, if_neg hne, if_pos hlive]
  · rw [frees_append, ← hhist]
    rfl
  · intro a ha
    rw [List.mem_append, List.mem_singleton, not_or] at ha
    exact hframe a ha.1 ha.2

/-- The pages below an entry of a table with `n` levels below its children. -/
def pagesBelow (n : ℕ) (table : ℕ → ℕ → ℕ) (d : ℕ) : List ℕ :=
  ((tableLink d).map (nodes tableLink table 512 n)).getD []

theorem tableLink_invalid {d : ℕ} (hv : d &&& pteValid = 0) : tableLink d = none := by
  rw [tableLink, if_neg]
  intro hd
  have hbit : d &&& pteValid = (d &&& 3) &&& 1 := by
    have h1 : (3 : ℕ) &&& 1 = 1 := rfl
    rw [Nat.and_assoc, h1]
    rfl
  rw [hbit, hd] at hv
  exact absurd hv (by decide)

theorem pagesBelow_none {n d : ℕ} {table : ℕ → ℕ → ℕ} (h : tableLink d = none) :
    pagesBelow n table d = [] := by
  rw [pagesBelow, h, Option.map_none, Option.getD_none]

theorem pagesBelow_some {n d c : ℕ} {table : ℕ → ℕ → ℕ} (h : tableLink d = some c) :
    pagesBelow n table d = tablePages table n c := by
  rw [pagesBelow, h, Option.map_some, Option.getD_some, tablePages]

theorem descends_level {n : ℕ} (ih : ∀ m t, Returnable m (tablePages m.table n t) →
      ∃ m', freeTableLevel ignoresNull n m t = .ok m' ∧ Freed m m' (tablePages m.table n t)) :
    Descends (fun m d => if d &&& 3 = descTableBits then
      freeTableLevel ignoresNull n m (d &&& pageMask) else pure m) (pagesBelow n) where
  freed m d hret := by
    by_cases hd : d &&& 3 = descTableBits
    · have hlink : tableLink d = some (d &&& pageMask) := by rw [tableLink, if_pos hd]
      rw [pagesBelow_some hlink] at hret ⊢
      rw [if_pos hd]
      exact ih m (d &&& pageMask) hret
    · have hlink : tableLink d = none := by rw [tableLink, if_neg hd]
      rw [pagesBelow_none hlink, if_neg hd]
      exact ⟨m, rfl, rfl, fun _ _ => rfl⟩
  congr table table' d hagree := by
    cases hl : tableLink d with
    | none => rw [pagesBelow_none hl, pagesBelow_none hl]
    | some c =>
      rw [pagesBelow_some hl] at hagree
      rw [pagesBelow_some hl, pagesBelow_some hl]
      exact nodes_congr hagree
  invalid table d hv := pagesBelow_none (tableLink_invalid hv)

/-- `free_table_level` returns exactly the pages it reaches, each once. -/
theorem freeTableLevel_spec (n : ℕ) (m : IdealMem) (t : ℕ)
    (hps : Returnable m (tablePages m.table n t)) :
    ∃ m', freeTableLevel ignoresNull n m t = .ok m' ∧ Freed m m' (tablePages m.table n t) := by
  induction n generalizing m t with
  | zero =>
    have hdesc : Descends (fun m _ => pure m) fun _ _ => [] :=
      ⟨fun m _ _ => ⟨m, rfl, rfl, fun _ _ => rfl⟩, fun _ _ _ _ => rfl, fun _ _ _ => rfl⟩
    have hnil : ((List.range 512).flatMap fun _ => ([] : List ℕ)) = [] :=
      List.flatMap_eq_nil_iff.mpr fun _ _ => rfl
    have hpages : tablePages m.table 0 t =
        ((List.range 512).flatMap fun _ => ([] : List ℕ)) ++ [t] := by
      rw [hnil]
      rfl
    rw [hpages] at hps ⊢
    exact freeEntries_spec hdesc m t hps
  | succ n ih =>
    have hpages : tablePages m.table (n + 1) t =
        ((List.range 512).flatMap fun i => pagesBelow n m.table (m.table t i)) ++ [t] := by
      rw [tablePages, nodes]
      rfl
    rw [hpages] at hps ⊢
    exact freeEntries_spec (descends_level ih) m t hps

theorem ptRootFree_spec {m : IdealMem} {r : PtRoot}
    (hps : Returnable m (tablePages m.table 3 r.l0)) :
    ∃ m', ptRootFree ignoresNull m r = .ok m' ∧ Freed m m' (tablePages m.table 3 r.l0) := by
  have hne : r.l0 ≠ 0 := (hps.live r.l0 self_mem_nodes).1
  rw [ptRootFree, if_neg hne]
  exact freeTableLevel_spec 3 m r.l0 hps

end Release

/-! ## Building tables from fresh pages -/

/-- The stops of the table code itself. -/
def Lawful (e : Halt) : Prop := e ≠ illegalFree

theorem lawful_panic {e : JrtErr} (h : e ≠ .eunknown) : Lawful (.panic e) := by
  unfold Lawful illegalFree
  simpa using h

section Build
variable {place : List HeapCall → ℕ → ℕ → ℕ} {hist : List HeapCall} {m : PageMem} {root : ℕ}
  {table : ℕ → ℕ → ℕ}

theorem mem_livePtrs_pageCalls {used : List ℕ} {p : ℕ} (hp : p ∈ used ∨ p ∈ livePtrs hist)
    (hne : p ≠ 0) : p ∈ livePtrs (pageCalls used hist) := by
  induction used with
  | nil => exact hp.resolve_left (by simp)
  | cons q used ih =>
    have hcons : pageCalls (q :: used) hist = .alloc pageSize pageSize q :: pageCalls used hist :=
      rfl
    rw [hcons, livePtrs_alloc]
    by_cases hpq : p = q
    · subst hpq
      rw [if_neg hne]
      exact List.mem_cons_self
    · have htail := ih (hp.imp_left fun h => (List.mem_cons.mp h).resolve_left hpq)
      split_ifs
      · exact htail
      · exact List.mem_cons_of_mem q htail

theorem IdealAlloc.not_mem (h : IdealAlloc place) {len align : ℕ}
    (hne : place hist len align ≠ 0) : place hist len align ∉ livePtrs hist := by
  intro hmem
  obtain ⟨b, hb, hptr⟩ := List.mem_map.mp hmem
  exact (h.fresh hist len align hne b hb).1 hptr

theorem ptAllocPageOrDie_ideal (h : IdealAlloc place) (m : PageMem) :
    Holds Lawful (fun r => r.1 % 4096 = 0 ∧ r.1 < 2 ^ 48 ∧ r.1 ≠ 0 ∧
      r.1 ∉ m.pages ∧ r.1 ∉ livePtrs hist ∧
      r.2 = ⟨Function.update m.table r.1 fun _ => 0, r.1 :: m.pages⟩)
      (ptAllocPageOrDie (idealPick place hist) m) := by
  have haligned : idealPick place hist m.pages % 4096 = 0 := h.aligned _ _ pageSize
  have hbound : idealPick place hist m.pages < 2 ^ 48 := h.bound _ _ _
  unfold ptAllocPageOrDie
  by_cases hz : idealPick place hist m.pages = 0
  · rw [if_pos hz]
    exact lawful_panic (by decide)
  · have hlow : idealPick place hist m.pages &&& (pageSize - 1) = 0 :=
      and_low haligned hbound (by decide)
    have hfresh := h.not_mem hz
    rw [if_neg hz, if_neg (not_not.mpr hlow)]
    refine ⟨haligned, hbound, hz, ?_, ?_, rfl⟩
    · exact fun hmem => hfresh (mem_livePtrs_pageCalls (Or.inl hmem) hz)
    · exact fun hmem => hfresh (mem_livePtrs_pageCalls (Or.inr hmem) hz)

/-- A tree that consists of the pages `old`, which were out before, and exactly the pages
taken for it since. -/
structure Extended (hist : List HeapCall) (old : List ℕ) (table : ℕ → ℕ → ℕ) (root : ℕ)
    (m : PageMem) : Prop where
  tree : Tree nextTable Inner 3 m.table root (m.pages ++ old)
  nodup : (m.pages ++ old).Nodup
  fresh : ∀ a ∈ m.pages, a ≠ 0 ∧ a ∉ livePtrs hist
  out : ∀ a ∈ old, a ∈ livePtrs hist
  covered : ∀ a ∈ m.pages ++ old, a ∈ nodes nextTable m.table 512 3 root
  frame : ∀ a, a ∉ m.pages ++ old → m.table a = table a

theorem ensureNext_extended (hp : IdealAlloc place) {old : List ℕ}
    (h : Extended hist old table root m) {p : List ℕ} {lvl idx : ℕ} (hlen : p.length < 3)
    (hw : ∀ i ∈ p, i < 512) (hd : descend nextTable m.table root p = some lvl)
    (hidx : idx < 512) :
    Holds Lawful (fun r => Extended hist old table root r.2 ∧
      descend nextTable r.2.table root (p ++ [idx]) = some r.1 ∧
      ∀ q i, q.length = 3 → find nextTable leaf r.2.table root q i =
        find nextTable leaf m.table root q i)
      (ensureNext (idealPick place hist) m lvl idx) := by
  unfold ensureNext
  by_cases hv : valid (m.table lvl idx) = false
  · rw [if_pos hv]
    apply (ptAllocPageOrDie_ideal hp m).bind
    rintro ⟨b, m'⟩ ⟨hb, hlt, hz, hnew, hout, hm'⟩
    dsimp only at hb hlt hz hnew hout hm'
    subst hm'
    have hfresh : b ∉ m.pages ++ old := by
      rw [List.mem_append, not_or]
      exact ⟨hnew, fun hmem => hout (h.out b hmem)⟩
    have hnone : nextTable (m.table lvl idx) = none := by rw [nextTable, hv]; rfl
    have hnext : nextTable (descTable b) = some b := by
      obtain ⟨hv', hm', _⟩ := descTable_fields hb hlt
      rw [nextTable, hv', hm']
      rfl
    have hlvl := h.tree.mem p lvl hlen.le hd
    have hlink := h.tree.descend_link (i := idx) (show nextTable 0 = none from rfl) hnext hlen hd
      hnone hfresh
    have hlast : descend nextTable (Tree.link m.table lvl idx b 0 (descTable b)) root
        (p ++ [idx]) = some b := by
      rw [hlink _ (by rw [List.length_append]; exact hlen), if_pos rfl]
    refine ⟨⟨?_, List.nodup_cons.mpr ⟨hfresh, h.nodup⟩, ?_, h.out, ?_, ?_⟩, hlast, ?_⟩
    · exact h.tree.link_tree rfl (Or.inl rfl) hnext (Or.inr ⟨b, hb, hlt, rfl⟩) hlen hd hnone hfresh
    · intro a ha
      obtain rfl | ha := List.mem_cons.mp ha
      · exact ⟨hz, hout⟩
      · exact h.fresh a ha
    · intro a ha
      apply mem_nodes.mpr
      obtain rfl | ha := List.mem_cons.mp ha
      · refine ⟨p ++ [idx], by rw [List.length_append]; exact hlen, ?_, hlast⟩
        intro i hi
        obtain hi | hi := List.mem_append.mp hi
        · exact hw i hi
        · rw [List.mem_singleton.mp hi]
          exact hidx
      · obtain ⟨q, hq, hwq, hdq⟩ := mem_nodes.mp (h.covered a ha)
        refine ⟨q, hq, hwq, ?_⟩
        have hlq := hlink q hq
        rw [if_neg] at hlq
        · exact hlq.trans hdq
        · rintro rfl
          rw [descend_concat, hd, Option.bind_some, hnone] at hdq
          cases hdq
    · intro a ha
      rw [List.cons_append, List.mem_cons, not_or] at ha
      have hal : a ≠ lvl := fun he => ha.2 (he ▸ hlvl)
      change write (Function.update m.table b fun _ => 0) lvl idx (descTable b) a = _
      rw [write, Function.update_of_ne hal, Function.update_of_ne ha.1, h.frame a ha.2]
    · intro q i hq
      exact h.tree.find_link rfl rfl hnext hlen hd hnone hfresh q hq i
  · rw [if_neg hv]
    have hnext : nextTable (m.table lvl idx) = some (m.table lvl idx &&& pageMask) := by
      rw [nextTable, if_pos (Bool.eq_true_of_not_eq_false hv)]
    refine ⟨h, ?_, fun _ _ _ => rfl⟩
    rw [descend_concat, hd, Option.bind_some, hnext]

/-- Whatever is mapped where: the entries of the last level lead nowhere, and one of them
is written. -/
theorem mapPage_extended (hp : IdealAlloc place) {old : List ℕ} {r : PtRoot}
    (h : Extended hist old table r.l0 m) (va pa attrs : ℕ) :
    Holds Lawful (fun m' => Extended hist old table r.l0 m' ∧
      ∀ q i, q.length = 3 → find nextTable leaf m'.table r.l0 q i =
        if q = path va ∧ i = idxL3 va then leaf (descPage pa attrs)
        else find nextTable leaf m.table r.l0 q i)
      (mapPage (idealPick place hist) m r va pa attrs) := by
  obtain ⟨hi0, hi1, hi2, -⟩ := idx_lt va
  unfold mapPage
  apply (ensureNext_extended hp h (p := []) (by simp) (by simp) rfl hi0).bind
  rintro ⟨l1, m1⟩ ⟨h1, hd1, hf1⟩
  apply (ensureNext_extended hp h1 (by simp) (by simpa using hi0) hd1 hi1).bind
  rintro ⟨l2, m2⟩ ⟨h2, hd2, hf2⟩
  refine (ensureNext_extended hp h2 (by simp) ?_ hd2 hi2).bind ?_
  · intro i hi
    simp only [List.nil_append, List.cons_append, List.mem_cons, List.not_mem_nil, or_false] at hi
    omega
  rintro ⟨l3, m3⟩ ⟨h3, hd3, hf3⟩
  have hd3' : descend nextTable m3.table r.l0 (path va) = some l3 := hd3
  have htree := h3.tree.write_leaf (p := path va) rfl hd3' (idxL3 va) (descPage pa attrs)
  have hl3 := h3.tree.mem _ l3 (by simp [path]) hd3'
  refine ⟨⟨htree, h3.nodup, h3.fresh, h3.out, ?_, ?_⟩, ?_⟩
  · intro a ha
    obtain ⟨q, hq, hwq, hdq⟩ := mem_nodes.mp (h3.covered a ha)
    refine mem_nodes.mpr ⟨q, hq, hwq, ?_⟩
    have hsame := h3.tree.descend_write (p := path va) rfl hd3' (idxL3 va) (descPage pa attrs) q hq
    exact hsame.trans hdq
  · intro a ha
    have hne : a ≠ l3 := fun he => ha (he ▸ hl3)
    change write _ _ _ _ a = _
    rw [write, Function.update_of_ne hne, h3.frame a ha]
  · intro q i hq
    rw [← hf1 q i hq, ← hf2 q i hq, ← hf3 q i hq]
    exact h3.tree.find_write rfl hd3' (idxL3 va) (descPage pa attrs) q hq i

theorem mapLoop_extended (hp : IdealAlloc place) {old : List ℕ} {r : PtRoot} (fuel end_ attrs : ℕ)
    (h : Extended hist old table r.l0 m) (va pa : ℕ) :
    Holds Lawful (Extended hist old table r.l0)
      (mapLoop (idealPick place hist) r end_ attrs fuel m va pa) := by
  induction fuel generalizing m va pa with
  | zero => simp [mapLoop, Lawful, illegalFree]
  | succ fuel ih =>
    rw [mapLoop]
    split_ifs with hlt
    · apply (mapPage_extended hp h va pa attrs).bind
      intro m' h'
      exact ih h'.1 _ _
    · exact h

theorem mapRangePages_extended (hp : IdealAlloc place) {old : List ℕ} {r : PtRoot}
    (h : Extended hist old table r.l0 m) (va pa len attrs : ℕ) :
    Holds Lawful (Extended hist old table r.l0)
      (mapRangePages (idealPick place hist) m r va pa len attrs) := by
  unfold mapRangePages
  exact mapLoop_extended hp _ _ attrs h _ _

/-- Within 48 bits: what the range translates to afterwards. -/
theorem mapRangePages_walks (hp : IdealAlloc place) {old : List ℕ} {r : PtRoot}
    (h : Extended hist old table r.l0 m) {va pa len attrs : ℕ} (ha : GoodAttrs attrs)
    (hva : va + len ≤ 2 ^ 48) (hpa : pa < 2 ^ 48)
    (hpend : roundDown pa + (roundUp (va + len) - roundDown va) ≤ 2 ^ 48) :
    Holds Lawful (fun m' => Extended hist old table r.l0 m' ∧
      ∀ x, x < 2 ^ 48 → walk m' r.l0 x =
        if roundDown va ≤ x ∧ x < roundUp (va + len) then
          some (roundDown pa + (x - roundDown va), attrs)
        else walk m r.l0 x)
      (mapRangePages (idealPick place hist) m r va pa len attrs) := by
  obtain ⟨n, hn⟩ := exists_pages va len
  rw [mapRangePages_eq r attrs hva hpa hn, hn]
  rw [hn] at hpend
  have hva' : roundDown va % 4096 = 0 := by unfold roundDown; omega
  have hpa' : roundDown pa % 4096 = 0 := by unfold roundDown; omega
  have hend : roundDown va + 4096 * n ≤ 2 ^ 48 := by
    unfold roundUp roundDown at hn
    unfold roundDown
    omega
  generalize roundDown va = va at *
  generalize roundDown pa = pa at *
  have hword : ∀ k, k ≤ n → (pa + 4096 * k) % u64 = pa + 4096 * k := by
    intro k hk
    exact Nat.mod_eq_of_lt (by unfold u64; omega)
  have hfirst : pa % u64 = pa := hword 0 (Nat.zero_le n)
  rw [← hfirst]
  apply mapLoop_rule (fun k m' => Extended hist old table r.l0 m' ∧ ∀ x, x < 2 ^ 48 →
      walk m' r.l0 x =
        if va ≤ x ∧ x < va + 4096 * k then some (pa % u64 + (x - va), attrs) else walk m r.l0 x)
    ?_ (by omega) (by omega) ⟨h, ?_⟩
  · intro k m₁ hk hm₁
    obtain ⟨h₁, hwalk⟩ := hm₁
    rw [hword k hk.le]
    apply (mapPage_extended hp h₁ _ _ attrs).mono
    intro m₂ hm₂
    refine ⟨hm₂.1, ?_⟩
    intro x hx
    rw [walk_written h₁.tree hm₂.1.tree (by omega) (by omega) (by omega) ha hm₂.2 hx, hwalk x hx,
      hfirst]
    exact range_succ hva' _
  · intro x _
    rw [if_neg (by omega)]

theorem ptRootNew_extended (hp : IdealAlloc place) (table : ℕ → ℕ → ℕ) :
    Holds Lawful (fun r => Extended hist [] table r.1.l0 r.2)
      (ptRootNew (idealPick place hist) ⟨table, []⟩) := by
  unfold ptRootNew
  apply (ptAllocPageOrDie_ideal hp _).bind
  rintro ⟨b, m'⟩ ⟨_, _, hz, hfresh, hout, hm'⟩
  dsimp only at hz hfresh hout hm'
  subst hm'
  have hrow : ∀ i, Function.update table b (fun _ => 0) b i = 0 := by
    intro i
    rw [Function.update_self]
  refine ⟨Tree.empty (show nextTable 0 = none from rfl) (Or.inl rfl) hrow, by simp, ?_, by simp,
    ?_, ?_⟩
  · intro a ha
    rw [List.mem_singleton.mp ha]
    exact ⟨hz, hout⟩
  · intro a ha
    rw [List.mem_singleton.mp ha]
    exact self_mem_nodes
  · intro a ha
    exact Function.update_of_ne (by simpa using ha) _ _

/-- A tree that consists of exactly the pages taken for it. -/
structure Grown (hist : List HeapCall) (table : ℕ → ℕ → ℕ) (root : ℕ) (m : PageMem) : Prop where
  tree : Tree nextTable Inner 3 m.table root m.pages
  nodup : m.pages.Nodup
  fresh : ∀ a ∈ m.pages, a ≠ 0 ∧ a ∉ livePtrs hist
  covered : ∀ a ∈ m.pages, a ∈ nodes nextTable m.table 512 3 root
  frame : ∀ a, a ∉ m.pages → m.table a = table a

theorem grown_iff : Grown hist table root m ↔ Extended hist [] table root m := by
  constructor
  · intro h
    refine ⟨?_, ?_, h.fresh, by simp, ?_, ?_⟩
    all_goals rw [List.append_nil]
    · exact h.tree
    · exact h.nodup
    · exact h.covered
    · exact h.frame
  · intro h
    obtain ⟨htree, hnodup, hfresh, -, hcovered, hframe⟩ := h
    rw [List.append_nil] at htree hnodup hcovered hframe
    exact ⟨htree, hnodup, hfresh, hcovered, hframe⟩

theorem mapRangePages_grown (hp : IdealAlloc place) {r : PtRoot} (h : Grown hist table r.l0 m)
    (va pa len attrs : ℕ) :
    Holds Lawful (Grown hist table r.l0)
      (mapRangePages (idealPick place hist) m r va pa len attrs) := by
  apply (mapRangePages_extended hp (grown_iff.mp h) va pa len attrs).mono
  exact fun m => grown_iff.mpr

theorem ptRootNew_grown (hp : IdealAlloc place) (table : ℕ → ℕ → ℕ) :
    Holds Lawful (fun r => Grown hist table r.1.l0 r.2)
      (ptRootNew (idealPick place hist) ⟨table, []⟩) := by
  apply (ptRootNew_extended hp table).mono
  exact fun r => grown_iff.mpr

theorem buildProcessMap_grown (hp : IdealAlloc place) {r : PtRoot} (h : Grown hist table r.l0 m)
    (kernelEnd base len : ℕ) :
    Holds Lawful (Grown hist table r.l0)
      (buildProcessMap (idealPick place hist) kernelEnd m r base len) := by
  unfold buildProcessMap
  apply (mapRangePages_grown hp h _ _ _ _).bind
  intro m₁ h₁
  dsimp only
  refine Holds.bind (P := Grown hist table r.l0) ?_ ?_
  · split_ifs
    · exact mapRangePages_grown hp h₁ _ _ _ _
    · exact h₁
    · exact mapRangePages_grown hp h₁ _ _ _ _
    · exact h₁
  · intro m₂ h₂
    apply (mapRangePages_grown hp h₂ _ _ _ _).bind
    intro m₃ h₃
    exact mapRangePages_grown hp h₃ _ _ _ _

theorem buildKernelMap_grown (hp : IdealAlloc place) {r : PtRoot} (h : Grown hist table r.l0 m) :
    Holds Lawful (Grown hist table r.l0) (buildKernelMap (idealPick place hist) m r) := by
  unfold buildKernelMap mapGic
  apply (mapRangePages_grown hp h _ _ _ _).bind
  intro m₁ h₁
  apply (mapRangePages_grown hp h₁ _ _ _ _).bind
  intro m₂ h₂
  apply (mapRangePages_grown hp h₂ _ _ _ _).bind
  intro m₃ h₃
  exact Holds.foldlM (fun m i hm => mapRangePages_grown hp hm _ _ _ _) _ m₃ h₃

/-- The two readings of an upper entry agree. -/
theorem Inner.tableLink_eq {d : ℕ} (h : Inner d) : tableLink d = nextTable d := by
  obtain rfl | ⟨b, hb, hlt, rfl⟩ := h
  · decide
  · obtain ⟨hv, hp, ht, -⟩ := descTable_fields hb hlt
    rw [tableLink, nextTable, hv, hp, ht]
    rfl

/-- A tree that consists of exactly the pages `ps`. -/
structure Rooted (table : ℕ → ℕ → ℕ) (root : ℕ) (ps : List ℕ) : Prop where
  tree : Tree nextTable Inner 3 table root ps
  covered : ∀ a ∈ ps, a ∈ nodes nextTable table 512 3 root

/-- The walk that releases the tables reaches exactly the pages taken for them. -/
theorem Rooted.perm {ps : List ℕ} (h : Rooted table root ps)
    (hnodup : ps.Nodup) : (tablePages table 3 root).Perm ps := by
  have hsame : tablePages table 3 root = nodes nextTable table 512 3 root := by
    apply nodes_child_congr
    intro p x i hlen hd
    exact (h.tree.inner p x i hlen hd).tableLink_eq
  rw [hsame]
  apply (List.perm_ext_iff_of_nodup (PathsApart.nodup_nodes h.tree.inj) hnodup).mpr
  intro a
  refine ⟨?_, h.covered a⟩
  intro ha
  obtain ⟨p, hlen, -, hd⟩ := mem_nodes.mp ha
  exact h.tree.mem p a hlen hd

theorem Grown.perm (h : Grown hist table root m) :
    (tablePages m.table 3 root).Perm m.pages :=
  Rooted.perm ⟨h.tree, h.covered⟩ h.nodup

/-- A map creation takes fresh pages, all reached from its root, and writes no other. -/
structure TakesPages (m m' : IdealMem) (r : PtRoot) (ps : List ℕ) : Prop where
  hist : m'.hist = pageCalls ps m.hist
  nodup : ps.Nodup
  fresh : ∀ a ∈ ps, a ≠ 0 ∧ a ∉ livePtrs m.hist
  pages : (tablePages m'.table 3 r.l0).Perm ps
  frame : ∀ a, a ∉ ps → m'.table a = m.table a

theorem onTables_spec {m : IdealMem} {f : PageMem → Except Halt (PtRoot × PageMem)}
    (h : Holds Lawful (fun r => Grown m.hist m.table r.1.l0 r.2) (f ⟨m.table, []⟩)) :
    Holds Lawful (fun r => ∃ ps, TakesPages m r.2 r.1 ps) (onTables m f) := by
  unfold onTables
  apply h.bind
  rintro ⟨r, m'⟩ hg
  exact ⟨m'.pages, rfl, hg.nodup, hg.fresh, hg.perm, hg.frame⟩

theorem procRoot_grown (hp : IdealAlloc place) (kernelEnd base len : ℕ) :
    Holds Lawful (fun r => Grown hist table r.1.l0 r.2)
      (procRoot (idealPick place hist) kernelEnd ⟨table, []⟩ base len) := by
  unfold procRoot
  apply (ptRootNew_grown hp table).bind
  rintro ⟨r, m₀⟩ h₀
  apply (buildProcessMap_grown hp h₀ kernelEnd base len).bind
  intro m₁ h₁
  exact h₁

theorem kernRoot_grown (hp : IdealAlloc place) :
    Holds Lawful (fun r => Grown hist table r.1.l0 r.2)
      (kernRoot (idealPick place hist) ⟨table, []⟩) := by
  unfold kernRoot
  apply (ptRootNew_grown hp table).bind
  rintro ⟨r, m₀⟩ h₀
  apply (buildKernelMap_grown hp h₀).bind
  intro m₁ h₁
  exact h₁

end Build

/-! ## A bump allocator -/

/-- The end of the highest block ever handed out. -/
def heapTop : List HeapCall → ℕ
  | [] => 0x51800000
  | .alloc len _ ptr :: hist => if ptr = 0 then heapTop hist else max (ptr + len) (heapTop hist)
  | .free _ :: hist => heapTop hist

/-- The next aligned address above all blocks, while there is room below `2 ^ 48`. As in `alloc.c`,
whose block sizes are words (`Alloc.Shape.alloc_too_long`), no block has `2 ^ 32` bytes. -/
@[irreducible] def bumpPlace (hist : List HeapCall) (len align : ℕ) : ℕ :=
  if len < 2 ^ 32 ∧ (heapTop hist / align + 1) * align + len < 2 ^ 48 then
    (heapTop hist / align + 1) * align
  else 0

theorem le_heapTop {hist : List HeapCall} {b : HeapBlock} (hb : b ∈ liveBlocks hist) :
    b.ptr + b.len ≤ heapTop hist := by
  induction hist with
  | nil => simp [liveBlocks] at hb
  | cons c hist ih =>
    cases c with
    | alloc len align ptr =>
      rw [liveBlocks] at hb
      rw [heapTop]
      split_ifs at hb ⊢ with hz
      · exact ih hb
      · obtain rfl | hb := List.mem_cons.mp hb
        · exact le_max_left _ _
        · exact (ih hb).trans (le_max_right _ _)
    | free ptr =>
      rw [liveBlocks, List.mem_filter] at hb
      exact ih hb.1

theorem bumpPlace_ideal : IdealAlloc bumpPlace where
  aligned hist len align := by
    unfold bumpPlace
    split_ifs
    · exact Nat.mul_mod_left _ _
    · exact Nat.zero_mod align
  bound hist len align := by
    unfold bumpPlace
    split_ifs with h
    · omega
    · decide
  fresh hist len align hne b hb := by
    have hle := le_heapTop hb
    revert hne
    unfold bumpPlace
    split_ifs with h
    · intro hne
      have hpos : 0 < align := by
        rw [Nat.pos_iff_ne_zero]
        rintro rfl
        exact hne (Nat.mul_zero _)
      have hlt : heapTop hist < (heapTop hist / align + 1) * align := by
        rw [Nat.mul_comm]
        exact Nat.lt_mul_div_succ _ hpos
      omega
    · intro hne
      exact absurd rfl hne

theorem IdealAlloc.pages {place : List HeapCall → ℕ → ℕ → ℕ} (h : IdealAlloc place)
    (hist : List HeapCall) : IdealPages (idealPick place hist) where
  aligned _ := h.aligned _ _ pageSize
  bound _ := h.bound _ _ _
  fresh _ hne hmem := h.not_mem hne (mem_livePtrs_pageCalls (Or.inl hmem) hne)

/-- The number of pages that a process map takes, whatever the allocator. -/
theorem procRoot_allocs {place : List HeapCall → ℕ → ℕ → ℕ} (h : IdealAlloc place)
    (hist : List HeapCall) (m : PageMem) {kernelEnd base len : ℕ}
    (hk : kernelEnd ≤ code0 + jrtCodeSize) (hbase : base < code0 + jrtCodeSize)
    (hlen : len ≤ jrtCodeSize) :
    Allocs (idealPick place hist) m.pages mapPages Prod.snd (fun _ => True)
      (procRoot (idealPick place hist) kernelEnd m base len) :=
  (procRoot_spec (h.pages hist) m base len hk hbase hlen).mono le_rfl fun _ _ => trivial

/-- Each page moves the top by two pages at most. -/
theorem heapTop_grow (n : ℕ) (hist : List HeapCall) (used : List ℕ) :
    heapTop (pageCalls (grow (idealPick bumpPlace hist) n used) hist) ≤
      heapTop (pageCalls used hist) + 8192 * n := by
  induction n generalizing used with
  | zero => exact le_rfl
  | succ n ih =>
    rw [grow]
    apply (ih _).trans
    have hcons : pageCalls (idealPick bumpPlace hist used :: used) hist =
        .alloc pageSize pageSize (idealPick bumpPlace hist used) :: pageCalls used hist := rfl
    have hpick : idealPick bumpPlace hist used ≤ heapTop (pageCalls used hist) + 4096 := by
      have hsize : pageSize = 4096 := rfl
      unfold idealPick bumpPlace
      rw [hsize]
      split_ifs <;> omega
    have hsize : pageSize = 4096 := rfl
    rw [hcons, heapTop, hsize]
    split_ifs <;> omega

/-- The bump allocator has `n` more pages while there is room for them. -/
theorem bumpPlace_pages {hist : List HeapCall} {n : ℕ} (hroom : heapTop hist + 8192 * (n + 1) < 2 ^ 48)
    (e : Halt) : ¬ NoPage (idealPick bumpPlace hist) [] n e := by
  rintro ⟨-, j, hj, hz⟩
  have hgrow := heapTop_grow j hist []
  have hnil : pageCalls [] hist = hist := rfl
  have hsize : pageSize = 4096 := rfl
  rw [hnil] at hgrow
  rw [idealPick] at hz
  generalize pageCalls (grow (idealPick bumpPlace hist) j []) hist = hist' at hgrow hz
  unfold bumpPlace at hz
  rw [hsize] at hz
  split_ifs at hz
  omega

/-- Table code that takes at most `n` pages returns while there is room for them. -/
theorem onTables_returns {m : IdealMem} {f : PageMem → Except Halt (PtRoot × PageMem)} {n : ℕ}
    {P : PtRoot × PageMem → Prop}
    (h : Allocs (idealPick bumpPlace m.hist) [] n Prod.snd P (f ⟨m.table, []⟩))
    (hroom : heapTop m.hist + 8192 * (n + 1) < 2 ^ 48) :
    ∃ r, onTables m f = .ok r ∧ heapTop r.2.hist ≤ heapTop m.hist + 8192 * n := by
  unfold onTables
  cases hf : f ⟨m.table, []⟩ with
  | ok r =>
    rw [hf] at h
    obtain ⟨⟨j, hj, hpages⟩, -⟩ := h
    refine ⟨_, rfl, ?_⟩
    dsimp only
    rw [hpages]
    have hgrow := heapTop_grow j m.hist []
    have hnil : pageCalls [] m.hist = m.hist := rfl
    rw [hnil] at hgrow
    omega
  | error e =>
    rw [hf] at h
    exact absurd h (bumpPlace_pages hroom e)

end JanusRT
