import JanusRT.PageTables
import JanusRT.Sched

/-!
# The address space of a process

`build_process_map` is four ranges over a fresh root. The first belongs to the
process, the others are the same identity mapping in every process, so that the
translation of a process is known exactly, and with it what it cannot reach.
-/
namespace JanusRT
open RadixTree Outcome

/-- The ranges every process shares: the kernel image up to `kEnd`, the allocator's
memory and the UART, each mapped to itself. -/
def sharedSpace (kEnd va : ℕ) : Option (ℕ × ℕ) :=
  if code0 ≤ va ∧ va < roundUp kEnd then some (va, pteKernRwx)
  else if mem0 ≤ va ∧ va ≤ memEnd then some (va, pteKernRwx)
  else if uartPaBase ≤ va ∧ va < uartPaBase + uartPaSize then some (va, pteDevRwG)
  else none

/-- The whole translation of a process whose image starts at `base`. -/
def processSpace (kernelEnd base len va : ℕ) : Option (ℕ × ℕ) :=
  if va < roundUp len then some (base + va, pteProcRwx)
  else sharedSpace (min kernelEnd base) va

/-- Whether the translations of a page are shared between address spaces. -/
def isGlobal (attrs : ℕ) : Bool := decide (attrs &&& pteNG = 0)

section Spec
variable {pick : List ℕ → ℕ} {m : PageMem} {own old : List ℕ} {table : ℕ → ℕ → ℕ} {kernelEnd : ℕ}

/-- An identity range from a page boundary. -/
theorem mapIdentity_spec (hpick : IdealPages pick) {r : PtRoot} (h : Built m r.l0 own old table)
    (base size : ℕ) {attrs : ℕ} (ha : GoodAttrs attrs) (hbase : base % 4096 = 0) (hlt : base < 2 ^ 48)
    (hend : base + size ≤ 2 ^ 48) :
    Allocs pick m.pages (3 * ((roundUp (base + size) - base) / 4096)) id
      (fun m' => (∃ own', Built m' r.l0 own' old table) ∧
        ∀ x, x < 2 ^ 48 → walk m' r.l0 x =
          if base ≤ x ∧ x < roundUp (base + size) then some (x, attrs) else walk m r.l0 x)
      (mapRangePages pick m r base base size attrs) := by
  have hdown : roundDown base = base := by unfold roundDown; omega
  have hup : roundUp (base + size) ≤ 2 ^ 48 := by unfold roundUp; omega
  have hge : base ≤ roundUp (base + size) := by unfold roundUp; omega
  have hspec := mapRangePages_spec hpick h base base size ha hend hlt
    (by rw [hdown]; omega)
  rw [hdown] at hspec
  apply hspec.mono le_rfl
  intro m' hm'
  obtain ⟨hb, hw⟩ := hm'
  refine ⟨hb, ?_⟩
  intro x hx
  rw [hw x hx]
  by_cases hin : base ≤ x ∧ x < roundUp (base + size)
  · have hx' : base + (x - base) = x := by omega
    rw [if_pos hin, if_pos hin, hx']
  · rw [if_neg hin, if_neg hin]

/-- The identity range of the kernel image, which is empty for an image at its start. -/
theorem mapKernel_spec (hpick : IdealPages pick) {r : PtRoot} (h : Built m r.l0 own old table)
    (kEnd : ℕ) (hk : kEnd ≤ code0 + jrtCodeSize) :
    Allocs pick m.pages (3 * 4096) id (fun m' => (∃ own', Built m' r.l0 own' old table) ∧
      ∀ x, x < 2 ^ 48 → walk m' r.l0 x =
        if code0 ≤ x ∧ x < roundUp kEnd then some (x, pteKernRwx) else walk m r.l0 x)
      (if code0 < kEnd then mapRangePages pick m r code0 code0 (kEnd - code0) pteKernRwx
        else pure m) := by
  have hsize : code0 = 0x50000000 ∧ jrtCodeSize = 0x1000000 := ⟨rfl, rfl⟩
  split_ifs with hlt
  · have hsum : code0 + (kEnd - code0) = kEnd := by omega
    have hspec := mapIdentity_spec hpick h code0 (kEnd - code0) goodAttrs_kern (by decide)
      (by decide) (by omega)
    rw [hsum] at hspec
    exact hspec.mono (by unfold roundUp; omega) fun _ => id
  · refine Allocs.mono (n := 0) (allocs_pure rfl ⟨⟨own, h⟩, ?_⟩) (Nat.zero_le _) fun _ => id
    intro x _
    rw [if_neg (by unfold roundUp; omega)]

/-- Table pages that one process map can need: three for each page of the code window,
of the kernel image and of the memory window, and for the UART, and the root. -/
def mapPages : ℕ := 1 + 3 * (4096 + 4096 + 4096 + 1)

/-- The tables of `proc_map_create`, for any image start in the code window. -/
theorem procRoot_spec (hpick : IdealPages pick) (m : PageMem) (base len : ℕ)
    (hk : kernelEnd ≤ code0 + jrtCodeSize) (hbase : base < code0 + jrtCodeSize)
    (hlen : len ≤ jrtCodeSize) :
    Allocs pick m.pages mapPages Prod.snd
      (fun r => (∃ own, Built r.2 r.1.l0 own m.pages m.table) ∧ r.1.l0Pa = r.1.l0 ∧
        ∀ x, x < 2 ^ 48 → walk r.2 r.1.l0 x =
          if x < roundUp len then some (roundDown base + x, pteProcRwx)
          else sharedSpace (min kernelEnd base) x)
      (procRoot pick kernelEnd m base len) := by
  have hsize : code0 = 0x50000000 ∧ jrtCodeSize = 0x1000000 := ⟨rfl, rfl⟩
  have hmem : mem0 = 0x51000000 ∧ memEnd = 0x51FFFFFF := ⟨rfl, rfl⟩
  have huart : uartPaBase = 0x9000000 ∧ uartPaSize = 0x1000 := ⟨rfl, rfl⟩
  have hup : roundUp len ≤ jrtCodeSize := by unfold roundUp; omega
  unfold procRoot buildProcessMap
  refine ((ptRootNew_spec hpick m).bind (k := 3 * (4096 + 4096 + 4096 + 1)) ?_)
  rintro ⟨r, m₀⟩ ⟨⟨own₀, h₀⟩, hpa, hw₀⟩
  dsimp only at h₀ hpa hw₀ ⊢
  rw [if_pos (show len < code0 by omega)]
  have hlow := mapRangePages_spec hpick h₀ 0 base len goodAttrs_proc
    (by omega) (by omega) (by rw [Nat.zero_add]; unfold roundDown at *; omega)
  have hz : roundDown 0 = 0 := rfl
  rw [Nat.zero_add, hz] at hlow
  have hkEnd : (if base < kernelEnd then base else kernelEnd) = min kernelEnd base := by
    split_ifs <;> omega
  rw [hkEnd]
  simp only [bind_assoc]
  refine ((hlow.mono (show _ ≤ 3 * 4096 by omega) fun _ => id).bind
    (k := 3 * (4096 + 4096 + 1)) ?_).mono (by omega) fun _ => id
  intro m₁ hm₁
  obtain ⟨⟨own₁, h₁⟩, hw₁⟩ := hm₁
  refine ((mapKernel_spec hpick h₁ (min kernelEnd base) (by omega)).bind
    (k := 3 * (4096 + 1)) ?_).mono (by omega) fun _ => id
  intro m₂ hm₂
  obtain ⟨⟨own₂, h₂⟩, hw₂⟩ := hm₂
  refine ((mapIdentity_spec hpick h₂ _ _ goodAttrs_kern (by decide) (by decide) (by decide)).bind
    (k := 3 * 1) ?_).mono (by decide) fun _ => id
  intro m₃ hm₃
  obtain ⟨⟨own₃, h₃⟩, hw₃⟩ := hm₃
  refine ((mapIdentity_spec hpick h₃ _ _ goodAttrs_dev (by decide) (by decide) (by decide)).bind
    (k := 0) ?_).mono (by decide) fun _ => id
  intro m₄ hm₄
  obtain ⟨hb₄, hw₄⟩ := hm₄
  refine allocs_pure rfl ⟨hb₄, hpa, ?_⟩
  intro x hx
  have hup₃ : roundUp (mem0 + (memEnd + 1 - mem0)) = memEnd + 1 := rfl
  have hup₄ : roundUp (uartPaBase + uartPaSize) = uartPaBase + uartPaSize := rfl
  rw [hw₄ x hx, hw₃ x hx, hw₂ x hx, hw₁ x hx, hw₀ x, hup₃, hup₄]
  -- the four ranges are pairwise disjoint, so their order does not matter
  have hkup : roundUp (min kernelEnd base) ≤ code0 + jrtCodeSize := by unfold roundUp; omega
  unfold sharedSpace
  by_cases h1 : x < roundUp len
  · rw [if_neg (by omega), if_neg (by omega), if_neg (by omega), if_pos (by omega), if_pos h1,
      Nat.sub_zero]
  simp only [h1, and_false, if_false]
  by_cases h2 : code0 ≤ x ∧ x < roundUp (min kernelEnd base)
  · rw [if_neg (by omega), if_neg (by omega), if_pos h2, if_pos h2]
  rw [if_neg h2, if_neg h2]
  by_cases h3 : mem0 ≤ x ∧ x ≤ memEnd
  · rw [if_neg (by omega), if_pos (by omega), if_pos h3]
  · rw [if_neg (show ¬ (mem0 ≤ x ∧ x < memEnd + 1) by omega), if_neg h3]

/-- The translation of the kernel map: code and memory windows, the UART and the
interrupt controller, each to itself. -/
def kernelSpace (va : ℕ) : Option (ℕ × ℕ) :=
  if code0 ≤ va ∧ va ≤ memEnd then some (va, pteKernRwx)
  else if uartPaBase ≤ va ∧ va < uartPaBase + uartPaSize then some (va, pteDevRwG)
  else if gicdPaBase ≤ va ∧ va < gicdPaBase + gicdPaSize then some (va, pteDevRwG)
  else if gicrPaBase0 ≤ va ∧ va < gicrPaBase0 + gicrNumCpus * gicrFrameSize then
    some (va, pteDevRwG)
  else none

/-- Table pages that the kernel map can need. -/
def kernelMapPages : ℕ := 1 + 3 * (8192 + 1 + 16 + 32 * 4)

/-- The loop over the redistributor frames, which follow each other without a gap. -/
theorem mapFrames_spec (hpick : IdealPages pick) {r : PtRoot} (h : Built m r.l0 own old table)
    (n : ℕ) (hn : n ≤ gicrNumCpus) :
    Allocs pick m.pages (3 * (32 * n)) id
      (fun m' => (∃ own', Built m' r.l0 own' old table) ∧
        ∀ x, x < 2 ^ 48 → walk m' r.l0 x =
          if gicrPaBase0 ≤ x ∧ x < gicrPaBase0 + n * gicrFrameSize then some (x, pteDevRwG)
          else walk m r.l0 x)
      ((List.range n).foldlM (fun m i => mapRangePages pick m r (gicrPaBase0 + i * gicrFrameSize)
        (gicrPaBase0 + i * gicrFrameSize) gicrFrameSize pteDevRwG) m) := by
  have hgic : gicrPaBase0 = 0x80A0000 ∧ gicrFrameSize = 0x20000 ∧ gicrNumCpus = 4 := ⟨rfl, rfl, rfl⟩
  have hmul : ∀ i, i * gicrFrameSize = i * 0x20000 := fun _ => rfl
  induction n with
  | zero =>
    refine allocs_pure rfl ⟨⟨own, h⟩, ?_⟩
    intro x _
    rw [if_neg (by omega)]
  | succ n ih =>
    rw [List.range_succ, List.foldlM_append]
    refine ((ih (by omega)).bind (k := 3 * 32) ?_).mono (by omega) fun _ => id
    intro m₁ hm₁
    obtain ⟨⟨own₁, h₁⟩, hw₁⟩ := hm₁
    have hn₀ := hmul n
    have hn₁ := hmul (n + 1)
    simp only [List.foldlM_cons, List.foldlM_nil, bind_pure]
    refine (mapIdentity_spec hpick h₁ _ _ goodAttrs_dev (by omega) (by omega) (by omega)).mono
      (by unfold roundUp; omega) ?_
    intro m₂ hm₂
    obtain ⟨hb₂, hw₂⟩ := hm₂
    refine ⟨hb₂, ?_⟩
    intro x hx
    have hup : roundUp (gicrPaBase0 + n * gicrFrameSize + gicrFrameSize) =
        gicrPaBase0 + n * gicrFrameSize + gicrFrameSize := by
      unfold roundUp
      omega
    rw [hw₂ x hx, hw₁ x hx, hup]
    by_cases hlast : gicrPaBase0 + n * gicrFrameSize ≤ x ∧
        x < gicrPaBase0 + n * gicrFrameSize + gicrFrameSize
    · rw [if_pos hlast, if_pos (by omega)]
    · rw [if_neg hlast]
      by_cases hin : gicrPaBase0 ≤ x ∧ x < gicrPaBase0 + n * gicrFrameSize
      · rw [if_pos hin, if_pos (by omega)]
      · rw [if_neg hin, if_neg (by omega)]

/-- The tables of `kern_map_create`. -/
theorem kernRoot_spec (hpick : IdealPages pick) (m : PageMem) :
    Allocs pick m.pages kernelMapPages Prod.snd
      (fun r => (∃ own, Built r.2 r.1.l0 own m.pages m.table) ∧ r.1.l0Pa = r.1.l0 ∧
        ∀ x, x < 2 ^ 48 → walk r.2 r.1.l0 x = kernelSpace x)
      (kernRoot pick m) := by
  have hsize : code0 = 0x50000000 ∧ memEnd = 0x51FFFFFF := ⟨rfl, rfl⟩
  have huart : uartPaBase = 0x9000000 ∧ uartPaSize = 0x1000 := ⟨rfl, rfl⟩
  have hgicd : gicdPaBase = 0x8000000 ∧ gicdPaSize = 0x10000 := ⟨rfl, rfl⟩
  have hgic : gicrPaBase0 = 0x80A0000 ∧ gicrNumCpus * gicrFrameSize = 0x80000 := ⟨rfl, rfl⟩
  unfold kernRoot buildKernelMap mapGic
  refine ((ptRootNew_spec hpick m).bind (k := 3 * (8192 + 1 + 16 + 32 * 4)) ?_)
  rintro ⟨r, m₀⟩ ⟨⟨own₀, h₀⟩, hpa, hw₀⟩
  dsimp only at h₀ hpa hw₀ ⊢
  simp only [bind_assoc]
  refine ((mapIdentity_spec hpick h₀ _ _ goodAttrs_kern (by decide) (by decide) (by decide)).bind
    (k := 3 * (1 + 16 + 32 * 4)) ?_).mono (by decide) fun _ => id
  intro m₁ hm₁
  obtain ⟨⟨own₁, h₁⟩, hw₁⟩ := hm₁
  refine ((mapIdentity_spec hpick h₁ _ _ goodAttrs_dev (by decide) (by decide) (by decide)).bind
    (k := 3 * (16 + 32 * 4)) ?_).mono (by decide) fun _ => id
  intro m₂ hm₂
  obtain ⟨⟨own₂, h₂⟩, hw₂⟩ := hm₂
  refine ((mapIdentity_spec hpick h₂ _ _ goodAttrs_dev (by decide) (by decide) (by decide)).bind
    (k := 3 * (32 * 4)) ?_).mono (by decide) fun _ => id
  intro m₃ hm₃
  obtain ⟨⟨own₃, h₃⟩, hw₃⟩ := hm₃
  refine ((mapFrames_spec hpick h₃ gicrNumCpus le_rfl).bind (k := 0) ?_).mono (by decide) fun _ => id
  intro m₄ hm₄
  obtain ⟨hb₄, hw₄⟩ := hm₄
  refine allocs_pure rfl ⟨hb₄, hpa, ?_⟩
  intro x hx
  have hup₁ : roundUp (code0 + (memEnd + 1 - code0)) = memEnd + 1 := rfl
  have hup₂ : roundUp (uartPaBase + uartPaSize) = uartPaBase + uartPaSize := rfl
  have hup₃ : roundUp (gicdPaBase + gicdPaSize) = gicdPaBase + gicdPaSize := rfl
  rw [hw₄ x hx, hw₃ x hx, hw₂ x hx, hw₁ x hx, hw₀ x, hup₁, hup₂, hup₃, kernelSpace]
  by_cases h1 : code0 ≤ x ∧ x ≤ memEnd
  · rw [if_neg (by omega), if_neg (by omega), if_neg (by omega), if_pos (by omega), if_pos h1]
  rw [if_neg (show ¬ (code0 ≤ x ∧ x < memEnd + 1) by omega), if_neg h1]
  by_cases h2 : uartPaBase ≤ x ∧ x < uartPaBase + uartPaSize
  · rw [if_neg (by omega), if_neg (by omega), if_pos h2, if_pos h2]
  rw [if_neg h2, if_neg h2]
  by_cases h3 : gicdPaBase ≤ x ∧ x < gicdPaBase + gicdPaSize
  · rw [if_neg (by omega), if_pos h3, if_pos h3]
  · rw [if_neg h3, if_neg h3]

end Spec

/-! ## Many processes -/

/-- The scheduler's platform over these tables. -/
def mmuPlatform (pf : Platform PageMem) (pick : List ℕ → ℕ) (kernelEnd : ℕ) : Platform PageMem :=
  { pf with procRoot := procRoot pick kernelEnd, kernRoot := kernRoot pick }

/-- The arguments of `proc_map_create`. -/
structure MapReq where
  base : ℕ
  len : ℕ
  asid : ℕ
  deriving DecidableEq, Repr

/-- Calls of `proc_map_create`, one after the other. -/
def createMaps (pf : Platform PageMem) : List MapReq → PageMem →
    Except Stop (List MmuMap × PageMem)
  | [], m => pure ([], m)
  | q :: qs, m => do
    let r ← procMapCreate pf m q.base q.len q.asid
    let rs ← createMaps pf qs r.2
    pure (r.1 :: rs.1, rs.2)

/-- A page-aligned image start in the code window, with a length up to its size. -/
structure MapReq.Ok (q : MapReq) : Prop where
  aligned : q.base % 4096 = 0
  ge : code0 ≤ q.base
  lt : q.base < code0 + jrtCodeSize
  pos : 1 ≤ q.len
  len_le : q.len ≤ jrtCodeSize

/-- The pages of an image. -/
def MapReq.image (q : MapReq) (pa : ℕ) : Prop := q.base ≤ pa ∧ pa < q.base + roundUp q.len

/-- Two images in the code window above the kernel that share no page. -/
structure Apart (kernelEnd : ℕ) (p q : MapReq) : Prop where
  kernel_le : kernelEnd ≤ p.base ∧ kernelEnd ≤ q.base
  inside : p.base + p.len ≤ code0 + jrtCodeSize ∧ q.base + q.len ≤ code0 + jrtCodeSize
  disjoint : p.base + roundUp p.len ≤ q.base ∨ q.base + roundUp q.len ≤ p.base

/-- The map a request gets: its own identifier, and the walk of its tables is the
address space of the request. -/
structure Translates (m : PageMem) (kernelEnd : ℕ) (q : MapReq) (map : MmuMap) : Prop where
  asid : map.asid = q.asid
  root : map.root.l0Pa = map.root.l0
  exact : ∀ va, va < 2 ^ 48 → walk m map.root.l0 va = processSpace kernelEnd q.base q.len va

theorem processSpace_apart {kernelEnd : ℕ} {p q : MapReq} (hq : q.Ok) (h : Apart kernelEnd p q) {va : ℕ} {o : ℕ × ℕ}
    (ho : processSpace kernelEnd p.base p.len va = some o) : ¬ q.image o.1 := by
  have hsize : code0 = 0x50000000 ∧ jrtCodeSize = 0x1000000 := ⟨rfl, rfl⟩
  have hmem : mem0 = 0x51000000 ∧ memEnd = 0x51FFFFFF := ⟨rfl, rfl⟩
  have huart : uartPaBase = 0x9000000 ∧ uartPaSize = 0x1000 := ⟨rfl, rfl⟩
  obtain ⟨⟨hkp, hkq⟩, ⟨hip, hiq⟩, hdis⟩ := h
  have haq := hq.aligned
  have hgq := hq.ge
  rintro ⟨hlo, hhi⟩
  unfold processSpace sharedSpace at ho
  rw [min_eq_left hkp] at ho
  -- the rounded kernel end is not above a page-aligned image, nor the rounded image end
  -- above the window
  have hkup : roundUp kernelEnd ≤ q.base := by unfold roundUp; omega
  have hend : q.base + roundUp q.len ≤ code0 + jrtCodeSize := by unfold roundUp; omega
  split_ifs at ho with h1 h2 h3 h4 <;> obtain rfl := Option.some.inj ho <;> dsimp only at hlo hhi <;>
    omega

/-- Creating maps takes fresh pages only: the tables of earlier maps stay as they are. -/
theorem createMaps_spec {pf : Platform PageMem} {pick : List ℕ → ℕ} {kernelEnd : ℕ}
    (hpick : IdealPages pick) (hk : kernelEnd ≤ code0 + jrtCodeSize) (qs : List MapReq)
    (hqs : ∀ q ∈ qs, q.Ok) (m : PageMem) :
    Holds (fun e => ∃ h, e = .halt h ∧ NoPage pick m.pages (mapPages * qs.length) h)
      (fun out => List.Forall₂ (Translates out.2 kernelEnd) qs out.1 ∧
        (∀ a ∈ m.pages, a ∈ out.2.pages ∧ out.2.table a = m.table a))
      (createMaps (mmuPlatform pf pick kernelEnd) qs m) := by
  induction qs generalizing m with
  | nil => exact ⟨.nil, fun a ha => ⟨ha, rfl⟩⟩
  | cons q qs ih =>
    have hq := hqs q List.mem_cons_self
    have hspec := procRoot_spec hpick m q.base q.len hk hq.lt
      hq.len_le
    rw [createMaps, procMapCreate]
    change Holds _ _ (call (procRoot pick kernelEnd m q.base q.len) >>= _ >>= _)
    cases hr : procRoot pick kernelEnd m q.base q.len with
    | error e =>
      rw [hr] at hspec
      refine ⟨e, rfl, NoPage.mono hspec ?_⟩
      rw [List.length_cons, Nat.mul_succ]
      exact Nat.le_add_left _ _
    | ok r =>
      rw [hr] at hspec
      obtain ⟨⟨j, hj, hpages⟩, ⟨own, hb⟩, hpa, hw⟩ := hspec
      change Holds _ _ (createMaps (mmuPlatform pf pick kernelEnd) qs r.2 >>=
        fun rs => pure ((⟨r.1, q.asid⟩ : MmuMap) :: rs.1, rs.2))
      refine Holds.bind (P := fun out => List.Forall₂ (Translates out.2 kernelEnd) qs out.1 ∧
        ∀ a ∈ r.2.pages, a ∈ out.2.pages ∧ out.2.table a = r.2.table a) ?_ ?_
      · have hrest := ih (fun p hp => hqs p (List.mem_cons_of_mem q hp)) r.2
        cases hx : createMaps (mmuPlatform pf pick kernelEnd) qs r.2 with
        | ok out =>
          rw [hx] at hrest
          exact hrest
        | error e =>
          rw [hx] at hrest
          obtain ⟨h, rfl, hno⟩ := hrest
          refine ⟨h, rfl, ?_⟩
          rw [hpages] at hno
          apply (NoPage.after hno hj).mono
          rw [List.length_cons, Nat.mul_succ, Nat.add_comm]
      · intro out hout
        obtain ⟨hmaps, hframe⟩ := hout
        have hown : ∀ a ∈ own, out.2.table a = r.2.table a := by
          intro a ha
          exact (hframe a (by rw [hb.pages]; exact List.mem_append_left _ ha)).2
        refine ⟨.cons ⟨rfl, hpa, ?_⟩ hmaps, ?_⟩
        · intro va hva
          have hsame : walk out.2 r.1.l0 va = walk r.2 r.1.l0 va := by
            rw [walk_eq_find (hb.tree.congr hown), walk_eq_find hb.tree,
              hb.tree.find_congr hown _ (by simp [path])]
          have hdown : roundDown q.base = q.base := by
            have := hq.aligned
            unfold roundDown
            omega
          change walk out.2 r.1.l0 va = _
          rw [hsame, hw va hva, hdown, processSpace]
        · intro a ha
          have hmem : a ∈ r.2.pages := by rw [hb.pages]; exact List.mem_append_right _ ha
          exact ⟨(hframe a hmem).1, (hframe a hmem).2.trans (hb.frame a ha)⟩

theorem processSpace_global {kernelEnd base len va : ℕ} {o : ℕ × ℕ}
    (ho : processSpace kernelEnd base len va = some o) :
    isGlobal o.2 = false ↔ va < roundUp len := by
  have hattrs : isGlobal pteProcRwx = false ∧ isGlobal pteKernRwx = true ∧
      isGlobal pteDevRwG = true := by decide
  unfold processSpace sharedSpace at ho
  split_ifs at ho with h1 h2 h3 h4 <;> obtain rfl := Option.some.inj ho
  · exact iff_of_true hattrs.1 h1
  · exact iff_of_false (by rw [hattrs.2.1]; decide) h1
  · exact iff_of_false (by rw [hattrs.2.1]; decide) h1
  · exact iff_of_false (by rw [hattrs.2.2]; decide) h1

/-- What the tables of any number of processes mean together: each translation is
exactly the address space of its process, only the process's own pages are not
global, and nothing reaches the image of a process it shares no page with. -/
structure MapsExact (kernelEnd : ℕ) (qs : List MapReq) (out : List MmuMap × PageMem) : Prop where
  translates : List.Forall₂ (Translates out.2 kernelEnd) qs out.1
  global : ∀ x ∈ qs.zip out.1, ∀ va, va < 2 ^ 48 → ∀ o, walk out.2 x.2.root.l0 va = some o →
    (isGlobal o.2 = false ↔ va < roundUp x.1.len)
  isolated : ∀ x ∈ qs.zip out.1, ∀ q ∈ qs, Apart kernelEnd x.1 q → ∀ va, va < 2 ^ 48 →
    ∀ o, walk out.2 x.2.root.l0 va = some o → ¬ q.image o.1

/-- Maps created one after the other are exact in the memory they all share, unless
the allocator runs out of pages. -/
theorem createMaps_exact {pf : Platform PageMem} {pick : List ℕ → ℕ} {kernelEnd : ℕ}
    (hpick : IdealPages pick) (hk : kernelEnd ≤ code0 + jrtCodeSize) (qs : List MapReq)
    (hqs : ∀ q ∈ qs, q.Ok) (m : PageMem) :
    Holds (fun e => ∃ h, e = .halt h ∧ NoPage pick m.pages (mapPages * qs.length) h)
      (MapsExact kernelEnd qs) (createMaps (mmuPlatform pf pick kernelEnd) qs m) := by
  apply (createMaps_spec hpick hk qs hqs m).mono
  intro out hout
  obtain ⟨hmaps, _⟩ := hout
  have hzip : ∀ x ∈ qs.zip out.1, Translates out.2 kernelEnd x.1 x.2 :=
    fun x hx => (List.forall₂_iff_zip.mp hmaps).2 hx
  refine ⟨hmaps, ?_, ?_⟩
  · intro x hx va hva o ho
    rw [(hzip x hx).exact va hva] at ho
    exact processSpace_global ho
  · intro x hx q hq hapart va hva o ho
    rw [(hzip x hx).exact va hva] at ho
    exact processSpace_apart (hqs q hq) hapart ho

/-- The first page above all pages handed out, from the middle of the memory window. -/
def nextPage (used : List ℕ) : ℕ :=
  if (used.foldr max 0x51800000 / 4096 + 1) * 4096 < 2 ^ 48 then
    (used.foldr max 0x51800000 / 4096 + 1) * 4096
  else 0

/-- The calls other than those for page tables, each without effect. -/
def inertPlatform : Platform PageMem where
  alloc m _ := .ok (0, m)
  free m _ := .ok m
  procRoot m _ _ := .ok (⟨0, 0⟩, m)
  kernRoot m := .ok (⟨0, 0⟩, m)
  rootFree m _ := .ok m
  cntpct n := n
  jrtExit := 0

theorem le_foldr_max (used : List ℕ) (b : ℕ) : ∀ a ∈ used, a ≤ used.foldr max b := by
  induction used with
  | nil => nofun
  | cons x used ih =>
    intro a ha
    obtain rfl | ha := List.mem_cons.mp ha
    · exact le_max_left _ _
    · exact (ih a ha).trans (le_max_right _ _)

theorem nextPage_ideal : IdealPages nextPage where
  aligned used := by
    unfold nextPage
    split_ifs <;> omega
  bound used := by
    unfold nextPage
    split_ifs <;> omega
  fresh used hne hmem := by
    have hle := le_foldr_max used 0x51800000 _ hmem
    revert hne hle
    unfold nextPage
    split_ifs <;> omega

/-- A few million pages do not exhaust the addresses of a descriptor. -/
theorem nextPage_ne_zero (n : ℕ) {used : List ℕ} {k : ℕ} (hk : n + k ≤ 2 ^ 24)
    (hu : used.foldr max 0x51800000 ≤ 0x51800000 + 4096 * k) :
    nextPage (grow nextPage n used) ≠ 0 := by
  induction n generalizing used k with
  | zero =>
    unfold grow nextPage
    split_ifs <;> omega
  | succ n ih =>
    apply ih (k := k + 1) (by omega)
    have hp : nextPage used ≤ 0x51800000 + 4096 * (k + 1) := by
      unfold nextPage
      split_ifs <;> omega
    rw [List.foldr_cons]
    omega

/-- The pages handed out stay below a bound that grows with their number. -/
theorem foldr_grow_nextPage (n : ℕ) {used : List ℕ} {k : ℕ}
    (hu : used.foldr max 0x51800000 ≤ 0x51800000 + 4096 * k) :
    (grow nextPage n used).foldr max 0x51800000 ≤ 0x51800000 + 4096 * (n + k) := by
  induction n generalizing used k with
  | zero => simpa [grow] using hu
  | succ n ih =>
    have hp : nextPage used ≤ 0x51800000 + 4096 * (k + 1) := by
      unfold nextPage
      split_ifs <;> omega
    have hu' : (nextPage used :: used).foldr max 0x51800000 ≤ 0x51800000 + 4096 * (k + 1) := by
      rw [List.foldr_cons]
      omega
    have hstep := ih hu'
    rw [grow]
    omega

/-- A computation that takes no more than `2 ^ 24` pages returns. -/
theorem Allocs.returns {α : Type} {used : List ℕ} {k n : ℕ} {mem : α → PageMem} {P : α → Prop}
    {x : Except Halt α} (h : Allocs nextPage used n mem P x) (hn : n + k ≤ 2 ^ 24)
    (hu : used.foldr max 0x51800000 ≤ 0x51800000 + 4096 * k) :
    ∃ a, x = .ok a ∧ (mem a).pages.foldr max 0x51800000 ≤ 0x51800000 + 4096 * (n + k) := by
  cases x with
  | ok a =>
    obtain ⟨⟨j, hj, hpages⟩, _⟩ := h
    have hgrow := foldr_grow_nextPage j hu
    exact ⟨a, rfl, by rw [hpages]; omega⟩
  | error e =>
    obtain ⟨_, j, hj, hz⟩ := h
    exact absurd hz (nextPage_ne_zero j (k := k) (by omega) hu)

/-- Two programs of two pages, with the kernel image below them. -/
theorem createMaps_exact_two :
    ∃ out, createMaps (mmuPlatform inertPlatform nextPage 0x50020000)
      [⟨0x50100000, 5000, 1⟩, ⟨0x50102000, 8192, 2⟩] ⟨fun _ _ => 0, []⟩ = .ok out ∧
      ∀ x ∈ out.1.head?, walk out.2 x.root.l0 0x1004 = some (0x50101004, pteProcRwx) := by
  have hqs : ∀ q ∈ ([⟨0x50100000, 5000, 1⟩, ⟨0x50102000, 8192, 2⟩] : List MapReq), q.Ok := by
    intro q hq
    simp only [List.mem_cons, List.not_mem_nil, or_false] at hq
    obtain rfl | rfl := hq
    all_goals exact ⟨by decide, by decide, by decide, by decide, by decide⟩
  have hread : ∀ x : Except Stop (List MmuMap × PageMem),
      Holds (fun e => ∃ h, e = .halt h ∧ NoPage nextPage [] (mapPages * 2) h)
        (MapsExact 0x50020000 [⟨0x50100000, 5000, 1⟩, ⟨0x50102000, 8192, 2⟩]) x →
      ∃ out, x = .ok out ∧
        ∀ y ∈ out.1.head?, walk out.2 y.root.l0 0x1004 = some (0x50101004, pteProcRwx) := by
    intro x hx
    cases x with
    | error e =>
      obtain ⟨_, _, _, j, hj, hz⟩ := hx
      have hj' : j < 2 ^ 24 := hj.trans_le (by decide)
      exact absurd hz (nextPage_ne_zero j (k := 0) (by omega) (by decide))
    | ok out =>
      refine ⟨out, rfl, ?_⟩
      intro y hy
      obtain ⟨map, maps, hfirst, _, hout⟩ := List.forall₂_cons_left_iff.mp hx.translates
      rw [hout, List.head?_cons] at hy
      obtain rfl := Option.mem_some_iff.mp hy
      rw [hfirst.exact _ (by decide)]
      decide
  exact hread _ (createMaps_exact nextPage_ideal (by decide) _ hqs ⟨fun _ _ => 0, []⟩)

end JanusRT
