import JanusRT.AllocRuns

/-!
# One allocation, exactly

The heap before and after a single `alloc`, block by block and byte by byte: which block
is given out, what becomes of the others, that `free` takes it back without a trace when
it came from above the first hole, and when a byte outside the region is written.
-/
namespace JanusRT.Alloc

open LinkedSet Outcome ByteStore

/-- A well-formed heap with its blocks and the unused ones among them. Its region does not
start at `NULL`. -/
structure Layout where
  arena : Arena
  blocks : Finset ℕ
  unused : Finset ℕ
  shape : Shape arena blocks unused
  real : 0 < arena.base

/-- A well-formed heap from its parts. -/
theorem Shape.layout {s : Arena} {B F : Finset ℕ} (h : Shape s B F) (hreal : 0 < s.base) :
    ∃ h' : Layout, h'.arena = s ∧ h'.blocks = B ∧ h'.unused = F :=
  ⟨⟨s, B, F, h, hreal⟩, rfl, rfl, rfl⟩

/-- The blocks once `b` has been cut to size. -/
def blocksAfter (s : Arena) (B : Finset ℕ) (b xlen : ℕ) : Finset ℕ :=
  if Cuts s b xlen then insert (b + xlen) B else B

/-- What `alloc` does to the heap when it gives out `b`. -/
structure Allocated (h h' : Layout) (b xlen : ℕ) : Prop where
  base : h'.arena.base = h.arena.base
  endAddr : h'.arena.endAddr = h.arena.endAddr
  blocks : h'.blocks = blocksAfter h.arena h.blocks b xlen
  unused : h'.unused = (blocksAfter h.arena h.unused b xlen).erase b
  taken : h'.arena.get b .used = 1
  size : h'.arena.get b .next = if Cuts h.arena b xlen then xlen else h.arena.get b .next
  rest : Cuts h.arena b xlen → h'.arena.get (b + xlen) .used = 0 ∧
    h'.arena.get (b + xlen) .next = h.arena.get b .next - xlen
  others : ∀ c ∈ h.blocks, c ≠ b →
    h'.arena.get c .next = h.arena.get c .next ∧ h'.arena.get c .used = h.arena.get c .used
  payload : ∀ c ∈ h.blocks, c ∉ h.unused → ∀ x, c + usedHeaderSize ≤ x →
    x < c + h.arena.get c .next → h'.arena.mem x = h.arena.mem x

namespace Shape
variable {s : Arena} {B F : Finset ℕ} {b c x xlen : ℕ}

/-- Cutting the chosen block to size. -/
theorem cutTail (h : Shape s B F) (hb : b ∈ F) (hx : unusedHeaderSize ≤ xlen)
    (hfit : xlen ≤ s.get b .next) :
    Shape (cutTail s b xlen) (blocksAfter s B b xlen) (blocksAfter s F b xlen) ∧
      (∀ c ∈ B, (Alloc.cutTail s b xlen).get c .next =
        if c = b ∧ Cuts s b xlen then xlen else s.get c .next) ∧
      (Cuts s b xlen → (Alloc.cutTail s b xlen).get (b + xlen) .next = s.get b .next - xlen) := by
  have hhdr : unusedHeaderSize = 20 ∧ minSplitThreshold = 40 := ⟨rfl, rfl⟩
  rw [cutTail_eq hfit, blocksAfter, blocksAfter]
  split_ifs with hcut
  · obtain ⟨h', hnext, hr⟩ := h.split hb rfl hx (by unfold Cuts at hcut; omega)
    refine ⟨h', ?_, fun _ => hr⟩
    intro c hc
    simp only [hnext c hc, hcut, and_true]
  · refine ⟨h, ?_, fun hc => absurd hc hcut⟩
    intro c _
    rw [if_neg fun hc => hcut hc.2]

theorem subset_blocksAfter (s : Arena) (B : Finset ℕ) (b xlen : ℕ) :
    B ⊆ blocksAfter s B b xlen := by
  unfold blocksAfter
  split_ifs
  · exact Finset.subset_insert _ _
  · exact Finset.Subset.refl _

/-- There is no header yet where the block is cut. -/
theorem notMem_of_cuts (h : Shape s B F) (hb : b ∈ B) (hx : unusedHeaderSize ≤ xlen)
    (hcut : Cuts s b xlen) : b + xlen ∉ B := by
  have hhdr : unusedHeaderSize = 20 ∧ minSplitThreshold = 40 := ⟨rfl, rfl⟩
  unfold Cuts at hcut
  intro hmem
  have := h.le_of_lt hb (mem_headers hmem) (by omega)
  omega

/-- A used block stays used when another one is cut. -/
theorem notMem_blocksAfter (h : Shape s B F) (hb : b ∈ F) (hx : unusedHeaderSize ≤ xlen)
    (hc : c ∈ B) (hcF : c ∉ F) : c ∉ blocksAfter s F b xlen := by
  unfold blocksAfter
  split_ifs with hcut
  · rw [Finset.mem_insert, not_or]
    refine ⟨?_, hcF⟩
    rintro rfl
    exact h.notMem_of_cuts (h.sub hb) hx hcut hc
  · exact hcF

/-- A byte outside the region, or in the payload of a used block, is not written when an
unused block is split, and is still part of no header. -/
theorem split_keeps (h : Shape s B F) {size r : ℕ} (hb : b ∈ F) (hr : b + size = r)
    (hsize : unusedHeaderSize ≤ size) (hrest : size + unusedHeaderSize ≤ s.get b .next)
    (hkeep : x < s.base ∨ s.endAddr ≤ x ∨ ∃ c ∈ B, c ∉ F ∧ c + usedHeaderSize ≤ x ∧
      x < c + s.get c .next) :
    (Alloc.split s b size).mem x = s.mem x ∧ OffHeaders (insert r B) (insert r F) x := by
  have hhdr : usedHeaderSize = 12 ∧ unusedHeaderSize = 20 := ⟨rfl, rfl⟩
  have hB := h.sub hb
  have hlow := h.low b hB
  have hle := h.next_le hB
  -- the byte is not inside the block that is split
  have hside : x < b ∨ b + s.get b .next ≤ x := by
    rcases hkeep with hlt | hge | ⟨c, hc, hcF, hcx, hxc⟩
    · omega
    · omega
    · have hne : c ≠ b := fun he => hcF (he ▸ hb)
      have h₁ := fun hlt : b < c => h.le_of_lt hB (mem_headers hc) hlt
      have h₂ := fun hlt : c < b => h.le_of_lt hc (mem_headers hB) hlt
      omega
  have hoff := h.offHeaders_kept hkeep
  have hxr : x < r ∨ r + unusedHeaderSize ≤ x := by omega
  refine ⟨h.split_mem hb hr hsize hrest hoff hxr, ?_, ?_⟩
  · intro c hc
    rcases Finset.mem_insert.mp hc with rfl | hc
    · omega
    · exact hoff.block c hc
  · intro c hc
    rcases Finset.mem_insert.mp hc with rfl | hc
    · exact hxr
    · exact hoff.unused c hc

/-- The same while the chosen block is cut to size. -/
theorem cutTail_mem (h : Shape s B F) (hb : b ∈ F) (hx : unusedHeaderSize ≤ xlen)
    (hfit : xlen ≤ s.get b .next)
    (hkeep : x < s.base ∨ s.endAddr ≤ x ∨ ∃ c ∈ B, c ∉ F ∧ c + usedHeaderSize ≤ x ∧
      x < c + s.get c .next) :
    (Alloc.cutTail s b xlen).mem x = s.mem x ∧
      OffHeaders (blocksAfter s B b xlen) (blocksAfter s F b xlen) x := by
  have hhdr : unusedHeaderSize = 20 ∧ minSplitThreshold = 40 := ⟨rfl, rfl⟩
  rw [cutTail_eq hfit]
  unfold blocksAfter
  split_ifs with hcut
  · unfold Cuts at hcut
    exact h.split_keeps hb rfl hx (by omega) hkeep
  · exact ⟨rfl, h.offHeaders_kept hkeep⟩

end Shape

namespace Layout
variable {h : Layout} {b len x : ℕ}

/-- The heap after `alloc` has given out `b`. -/
theorem take (h : Layout) {xlen : ℕ} (hb : b ∈ h.unused) (hx : unusedHeaderSize ≤ xlen)
    (hfit : xlen ≤ h.arena.get b .next) :
    ∃ h' : Layout, h'.arena = useBlock (cutTail h.arena b xlen) b ∧ Allocated h h' b xlen := by
  obtain ⟨hcut, hnext, hrest⟩ := h.shape.cutTail hb hx hfit
  have hB := h.shape.sub hb
  have hbcut : b ∈ blocksAfter h.arena h.unused b xlen := Shape.subset_blocksAfter _ _ _ _ hb
  have hin : ∀ c ∈ h.blocks, c ∈ blocksAfter h.arena h.blocks b xlen :=
    fun c hc => Shape.subset_blocksAfter _ _ _ _ hc
  obtain ⟨huse, hnext'⟩ := hcut.useBlock hbcut
  have hbase : (useBlock (cutTail h.arena b xlen) b).base = h.arena.base := by simp
  refine ⟨⟨_, _, _, huse, ?_⟩, rfl, hbase, by simp, rfl, rfl, ?_, ?_, ?_, ?_, ?_⟩
  · rw [hbase]
    exact h.real
  · rw [huse.used b (hin b hB), if_neg (Finset.notMem_erase b _)]
  · rw [hnext' b (hin b hB), hnext b hB]
    simp
  · intro hc
    have hmem : ∀ S, b + xlen ∈ blocksAfter h.arena S b xlen := by
      intro S
      rw [blocksAfter, if_pos hc]
      exact Finset.mem_insert_self _ _
    have hhdr : unusedHeaderSize = 20 := rfl
    refine ⟨?_, ?_⟩
    · rw [huse.used _ (hmem _), if_pos (Finset.mem_erase.mpr ⟨by omega, hmem _⟩)]
    · rw [hnext' _ (hmem _), hrest hc]
  · intro c hc hcb
    refine ⟨?_, ?_⟩
    · rw [hnext' c (hin c hc), hnext c hc, if_neg fun he => hcb he.1]
    · rw [huse.used c (hin c hc), h.shape.used c hc]
      by_cases hcF : c ∈ h.unused
      · rw [if_pos hcF, if_pos (Finset.mem_erase.mpr ⟨hcb, Shape.subset_blocksAfter _ _ _ _ hcF⟩)]
      · rw [if_neg hcF, if_neg fun hm =>
          h.shape.notMem_blocksAfter hb hx hc hcF (Finset.mem_of_mem_erase hm)]
  · intro c hc hcF x hcx hxc
    obtain ⟨hmem, hoff⟩ := h.shape.cutTail_mem hb hx hfit (.inr (.inr ⟨c, hc, hcF, hcx, hxc⟩))
    rw [hcut.useBlock_mem hbcut hoff, hmem]
    intro _
    have := h.shape.next_le hc
    rw [cutTail_endAddr]
    exact .inl (by omega)

end Layout

/-- `alloc` is a best-fit allocation. -/
theorem alloc_bestFit (h : Layout) {len : ℕ} (hlen : 8 ≤ len)
    (hmax : len + usedHeaderSize < u64) :
    ∃ p s', alloc h.arena len = .ok (p, s') ∧
      (p = 0 ↔ ∀ b ∈ h.unused, h.arena.get b .next < len + usedHeaderSize) ∧
      (p = 0 → s' = h.arena) ∧
      (p ≠ 0 → ∃ b, Best h.arena h.unused (len + usedHeaderSize) b ∧ p = b + usedHeaderSize ∧
        ∃ h' : Layout, h'.arena = s' ∧ Allocated h h' b (len + usedHeaderSize)) := by
  have hhdr : usedHeaderSize = 12 ∧ unusedHeaderSize = 20 := ⟨rfl, rfl⟩
  rcases h.shape.alloc_eq h.real hmax with ⟨hnone, hrun⟩ | ⟨b, hbest, hrun⟩
  · exact ⟨0, h.arena, hrun, iff_of_true rfl hnone, fun _ => rfl, fun hp => absurd rfl hp⟩
  · have hp0 : b + usedHeaderSize ≠ 0 := by omega
    refine ⟨_, _, hrun, iff_of_false hp0 fun hnone => ?_, fun hp => absurd hp hp0, fun _ => ?_⟩
    · exact absurd (hnone b hbest.1) (Nat.not_lt.mpr hbest.2.1)
    · exact ⟨b, hbest, rfl, h.take hbest.1 (by omega) hbest.2.1⟩

/-- A region right after `alloc_init`. -/
def onePiece (mem : Store) {base size : ℕ} (hsize : unusedHeaderSize ≤ size) (hlt : size < u32)
    (hspace : base + size < u64) (hpos : 0 < base) : Layout :=
  ⟨allocInit mem base size, {base}, {base}, (allocInit_shape mem hsize hlt hspace).1, hpos⟩

/-- A hundred bytes in one piece. -/
def hundredBytes : Layout :=
  onePiece (fun _ => 0) (show unusedHeaderSize ≤ 100 by decide) (by decide)
    (show 0x1000 + 100 < u64 by decide) (by decide)

theorem hundredBytes_bestFit : 8 ≤ 30 ∧ 30 + usedHeaderSize < u64 ∧
    ∃ p s', alloc hundredBytes.arena 30 = .ok (p, s') ∧
      (p = 0 ↔ ∀ b ∈ hundredBytes.unused, hundredBytes.arena.get b .next < 30 + usedHeaderSize) ∧
      (p = 0 → s' = hundredBytes.arena) ∧
      (p ≠ 0 → ∃ b, Best hundredBytes.arena hundredBytes.unused (30 + usedHeaderSize) b ∧
        p = b + usedHeaderSize ∧
        ∃ h' : Layout, h'.arena = s' ∧ Allocated hundredBytes h' b (30 + usedHeaderSize)) :=
  ⟨by decide, by decide, alloc_bestFit hundredBytes (by decide) (by decide)⟩

/-- The headers of the heap are as they were. -/
structure Restored (h : Layout) (s : Arena) : Prop where
  base : s.base = h.arena.base
  endAddr : s.endAddr = h.arena.endAddr
  free : s.free = h.arena.free
  shape : Shape s h.blocks h.unused
  block : ∀ b ∈ h.blocks, s.get b .prev = h.arena.get b .prev ∧
    s.get b .next = h.arena.get b .next ∧ s.get b .used = h.arena.get b .used
  links : ∀ b ∈ h.unused, s.get b .nextFree = h.arena.get b .nextFree ∧
    s.get b .prevFree = h.arena.get b .prevFree

/-- Two heaps with the same blocks start their free lists at the same place. -/
theorem Shape.free_unique {s s' : Arena} {B F : Finset ℕ} (h : Shape s B F) (h' : Shape s' B F)
    (hend : s'.endAddr = s.endAddr) : s'.free = s.free := by
  rcases h.head with hf | hf
  · have hle := h'.lowest _ hf
    rcases h'.head with hf' | hf'
    · exact Nat.le_antisymm hle (h.lowest _ hf')
    · have := h.frees.lt _ hf
      omega
  · rcases h'.head with hf' | hf'
    · have := h.lowest _ hf'
      have := h.frees.lt _ hf'
      omega
    · rw [hf, hf', hend]

/-- The blocks determine the headers. -/
theorem Layout.restored {h : Layout} {s : Arena} (hs : Shape s h.blocks h.unused)
    (hbase : s.base = h.arena.base) (hend : s.endAddr = h.arena.endAddr) : Restored h s := by
  have hblocks := hs.blocks
  have hfrees := hs.frees
  rw [hend] at hblocks hfrees
  refine ⟨hbase, hend, h.shape.free_unique hs hend, hs, ?_, ?_⟩
  · intro b hb
    obtain ⟨hnext, hprev⟩ := h.shape.blocks.unique hblocks hb
    exact ⟨hprev, hnext, by rw [hs.used b hb, h.shape.used b hb]⟩
  · intro b hb
    exact h.shape.frees.unique hfrees hb

namespace Shape
variable {s : Arena} {B F : Finset ℕ} {b n : ℕ}

/-- A round of the coalescing loop on blocks that are not adjacent. -/
theorem joinNext_apart (h : Shape s B F) (hb : b ∈ B)
    (hn : n ≠ s.endAddr → b + s.get b .next ≠ n) : Alloc.joinNext s b n = s := by
  refine if_neg fun hc => hn hc.1 ?_
  rw [← h.next_eq hb, hc.2]

/-- The next unused block is the one right above, if that one is unused. -/
theorem next_eq_of_gap (h : Shape s B F) (hb : b ∈ B) (hgap : Gap F b n)
    (hn : n ∈ F ∨ n = s.endAddr) (htop : b + s.get b .next ∈ F) : b + s.get b .next = n := by
  have hgap' := (h.blocks.next b hb).1
  have hlt := h.frees.lt _ htop
  have h₁ := hgap.2 _ htop
  have h₂ := hgap'.1
  rcases hn with hn | rfl
  · have h₃ := hgap'.2 n (h.sub hn)
    have h₄ := hgap.1
    omega
  · omega

/-- `free` of a block above the first hole that has a used block right below it: an unused
block right above joins it. -/
theorem free_above (h : Shape s B F) (hpos : 0 < s.base) (hb : b ∈ B) (hbF : b ∉ F)
    (hfb : s.free < b) (hbelow : ∀ c ∈ F, c + s.get c .next ≠ b) :
    ∃ s', Alloc.free s (b + usedHeaderSize) = .ok s' ∧ s'.base = s.base ∧ s'.endAddr = s.endAddr ∧
      (b + s.get b .next ∈ F →
        Shape s' (B.erase (b + s.get b .next)) ((insert b F).erase (b + s.get b .next))) ∧
      (b + s.get b .next ∉ F → Shape s' B (insert b F)) := by
  obtain ⟨n, hn, hgap, hnF⟩ := h.findNext hb
  obtain ⟨p, hp, hpF⟩ := h.findPrev hpos hb hbF (.inl hfb) hgap hnF
  have hrun := h.free_eq hb hbF hn hp
  obtain ⟨h₂, hnext₂⟩ := h.relink hpos hb hbF hgap hnF hpF
  have hhead : s.free ∈ F := h.head.resolve_right (hfb.trans (h.blocks.lt b hb)).ne
  have hpF' : p ∈ F ∧ Gap F p b := by
    rcases hpF with ⟨_, hmin⟩ | hpF
    · exact absurd (hmin _ hhead) (by omega)
    · exact hpF
  have hpB := h.sub hpF'.1
  have hpb : p ≠ b := hpF'.2.1.ne
  have hpn : p ≠ n := (hpF'.2.1.trans hgap.1).ne
  rw [if_pos (h.pos_of_mem hpos hpB).ne'] at hrun
  refine ⟨_, hrun, by simp, by simp, ?_, ?_⟩
  · intro htop
    have hbn := h.next_eq_of_gap hb hgap hnF htop
    rw [hbn] at htop ⊢
    obtain ⟨h₃, hnext₃⟩ := h₂.joinNext (Finset.mem_insert_self b F)
      (Finset.mem_insert_of_mem htop) (by rw [hnext₂ b hb, hbn])
    rw [h₃.joinNext_apart (Finset.mem_erase.mpr ⟨hpn, hpB⟩)]
    · exact h₃
    · rw [hnext₃ p hpB, if_neg hpb, hnext₂ p hpB]
      exact fun _ => hbelow p hpF'.1
  · intro htop
    have hstay : Alloc.joinNext (Alloc.relink (unuse s b) b n p) b n =
        Alloc.relink (unuse s b) b n p := by
      refine h₂.joinNext_apart hb fun hne hbn => htop ?_
      rw [relink_endAddr, unuse_endAddr] at hne
      rw [hnext₂ b hb] at hbn
      rw [hbn]
      exact hnF.resolve_right hne
    rw [hstay, h₂.joinNext_apart hpB]
    · exact h₂
    · rw [hnext₂ p hpB]
      exact fun _ => hbelow p hpF'.1

end Shape

/-- `free` of a block that came from above the first hole undoes its `alloc`, whatever was
written into it. -/
theorem free_undoes_alloc (h : Layout) (hco : Coalesced h.arena h.unused) {len p : ℕ} {s' : Arena}
    (hlen : 8 ≤ len) (hmax : len + usedHeaderSize < u64) (hrun : alloc h.arena len = .ok (p, s'))
    (hp : p ≠ 0) (habove : p ≠ h.arena.free + usedHeaderSize) {m : Store}
    (hm : ∀ x, x < p ∨ p + len ≤ x → m x = s'.mem x) :
    ∃ s'', free { s' with mem := m } p = .ok s'' ∧ Restored h s'' := by
  have hhdr : usedHeaderSize = 12 ∧ unusedHeaderSize = 20 := ⟨rfl, rfl⟩
  rcases h.shape.alloc_eq h.real hmax with ⟨_, hnone⟩ | ⟨b, ⟨hb, hfit, _⟩, hsome⟩
  · rw [hnone] at hrun
    cases hrun
    exact absurd rfl hp
  rw [hsome] at hrun
  cases hrun
  obtain ⟨xlen, hxlen⟩ : ∃ xlen, len + usedHeaderSize = xlen := ⟨_, rfl⟩
  rw [hxlen] at hfit hm ⊢
  have hx : unusedHeaderSize ≤ xlen := by omega
  have hB := h.shape.sub hb
  have hfb : h.arena.free < b := by
    have := h.shape.lowest b hb
    omega
  obtain ⟨h', harena, hall⟩ := h.take hb hx hfit
  have hfree : h'.arena.free = h.arena.free := by
    rw [harena, useBlock_free, cutTail_free, if_neg hfb.ne']
  rw [← harena] at hm ⊢
  have hbB' : b ∈ h'.blocks := by
    rw [hall.blocks]
    exact Shape.subset_blocksAfter _ _ _ _ hB
  have hbF' : b ∉ h'.unused := by
    rw [hall.unused]
    exact Finset.notMem_erase b _
  have hback : insert b h'.unused = blocksAfter h.arena h.unused b xlen := by
    rw [hall.unused, Finset.insert_erase (Shape.subset_blocksAfter _ _ _ _ hb)]
  obtain ⟨ht, hnext⟩ := h'.shape.payload hbB' hbF' (m := m) (by
    intro x hx
    apply hm
    have hsize := hall.size
    split_ifs at hsize <;> omega)
  -- the block below `b` was used before, and no other one ends at `b` now
  have hbelow : ∀ c ∈ h'.unused, c + Arena.get { h'.arena with mem := m } c .next ≠ b := by
    intro c hc he
    have hcB' := h'.shape.sub hc
    rw [hnext c hcB'] at he
    rw [hall.unused, Finset.mem_erase] at hc
    by_cases hcF : c ∈ h.unused
    · rw [(hall.others c (h.shape.sub hcF) hc.1).1] at he
      exact hco c hcF (he ▸ hb)
    · have hcut : c = b + xlen := by
        have := hc.2
        unfold blocksAfter at this
        split_ifs at this
        · exact (Finset.mem_insert.mp this).resolve_right hcF
        · exact absurd this hcF
      omega
  obtain ⟨s'', hrun, hbase, hend, hjoin, hstay⟩ :=
    ht.free_above h'.real hbB' hbF' (show h'.arena.free < b by omega) hbelow
  refine ⟨s'', hrun, h.restored ?_ (hbase.trans hall.base) (hend.trans hall.endAddr)⟩
  have hsize := hall.size
  rw [hnext b hbB', hback, hall.blocks] at hjoin hstay
  by_cases hcut : Cuts h.arena b xlen
  · have hrB := h.shape.notMem_of_cuts hB hx hcut
    rw [if_pos hcut] at hsize
    simp only [hsize, blocksAfter, if_pos hcut, hall.unused] at hjoin
    rw [Finset.erase_insert hrB, Finset.erase_insert fun hm => hrB (h.shape.sub hm)] at hjoin
    exact hjoin (Finset.mem_erase.mpr ⟨by omega, Finset.mem_insert_self _ _⟩)
  · rw [if_neg hcut] at hsize
    simp only [hsize, blocksAfter, if_neg hcut, hall.unused] at hstay
    exact hstay fun hm => hco b hb (Finset.mem_of_mem_erase hm)

/-- Three blocks fill the region; the first and the last come back. -/
def twoHoles : List Event := [.alloc 8, .alloc 8, .alloc 50, .free 0x100C, .free 0x1034]

theorem twoHoles_restored : ∃ (h : Layout) (p : ℕ) (s' : Arena),
    alloc h.arena 30 = .ok (p, s') ∧ p ≠ 0 ∧ p ≠ h.arena.free + usedHeaderSize ∧
      ∃ s'', free { s' with mem := Function.update s'.mem p 0xFF } p = .ok s'' ∧
        Restored h s'' := by
  obtain ⟨st, hrun, hpos, B, F, hs, hco, _⟩ := run_wellFormed
    (show 0 < (boot (fun _ => 0) 0x1000 110).arena.base by decide)
    (boot_wellFormed (fun _ => 0) (by decide) (by decide) (by decide)) twoHoles (by decide +kernel)
    (by decide +kernel)
  have hval : ((twoHoles.foldlM step (boot (fun _ => 0) 0x1000 110)).toOption.map fun st =>
      ((alloc st.arena 30).toOption.map Prod.fst, st.arena.free)) =
      some (some 0x1034, 0x1000) := by decide +kernel
  rw [hrun, Except.toOption, Option.map_some, Option.some.injEq, Prod.mk.injEq] at hval
  cases halloc : alloc st.arena 30 with
  | error e =>
    rw [halloc] at hval
    cases hval.1
  | ok r =>
    rw [halloc, Except.toOption, Option.map_some, Option.some.injEq] at hval
    have hp : r.1 ≠ 0 := by
      rw [hval.1]
      decide
    have habove : r.1 ≠ st.arena.free + usedHeaderSize := by
      rw [hval.1, hval.2]
      decide
    refine ⟨⟨st.arena, B, F, hs, hpos⟩, r.1, r.2, halloc, hp, habove, ?_⟩
    refine free_undoes_alloc ⟨st.arena, B, F, hs, hpos⟩ hco (by decide) (by decide) halloc hp habove
      fun x hx => Function.update_of_ne ?_ _ _
    omega

/-- Every byte outside the region and every byte of a payload survives `alloc`. -/
def Stays (h : Layout) (len : ℕ) : Prop :=
  ∃ p s', alloc h.arena len = .ok (p, s') ∧
    (∀ x, x < h.arena.base ∨ h.arena.endAddr ≤ x → s'.mem x = h.arena.mem x) ∧
    ∀ c ∈ h.blocks, c ∉ h.unused → ∀ x, c + usedHeaderSize ≤ x → x < c + h.arena.get c .next →
      s'.mem x = h.arena.mem x

/-- The only unused block is large enough and too small to be cut. -/
def TakesLast (h : Layout) (len : ℕ) : Prop :=
  ∃ b, h.unused = {b} ∧ len + usedHeaderSize ≤ h.arena.get b .next ∧
    ¬ Cuts h.arena b (len + usedHeaderSize)

/-- The link that `use_block` clears at the region's end is zero already. -/
def EndClear (s : Arena) : Prop := ∀ i < 4, s.mem (s.endAddr + Field.prevFree.offset + i) = 0

/-- Only one block is unused after the cut: there was no cut. -/
theorem blocksAfter_eq_singleton {s : Arena} {F : Finset ℕ} {b xlen : ℕ} (hx : 0 < xlen)
    (h : blocksAfter s F b xlen = {b}) : ¬ Cuts s b xlen ∧ F = {b} := by
  unfold blocksAfter at h
  split_ifs at h with hcut
  · have : b + xlen ∈ ({b} : Finset ℕ) := h ▸ Finset.mem_insert_self _ _
    have := Finset.mem_singleton.mp this
    omega
  · exact ⟨hcut, h⟩

/-- Taking the last block clears four bytes above the region. -/
theorem useBlock_last {s : Arena} {B : Finset ℕ} {b i : ℕ} (h : Shape s B {b}) (hi : i < 4) :
    (useBlock s b).mem (s.endAddr + Field.prevFree.offset + i) = 0 := by
  have hb : b ∈ ({b} : Finset ℕ) := Finset.mem_singleton_self b
  have hhead : b = s.free := by
    rcases h.head with hf | hf
    · exact (Finset.mem_singleton.mp hf).symm
    · have := h.lowest b hb
      have := h.frees.lt b hb
      omega
  obtain ⟨hgap, hs⟩ := h.frees.next b hb
  have hnf : s.nfree b = s.endAddr := by
    rw [h.nfree_eq hb]
    exact hs.resolve_left fun hz => hgap.1.ne' (Finset.mem_singleton.mp hz)
  have hoff : Off (s.endAddr + Field.prevFree.offset + i) b .used := by
    have := h.next_le (h.sub hb)
    have := h.room b (h.sub hb)
    have := Field.used.offset_le
    unfold Off
    omega
  unfold useBlock
  rw [if_pos hhead, Arena.set_mem hoff, hnf, Arena.set, ← UInt8.toNat_inj, wr32_byte hi]
  simp

/-- `alloc` keeps to its region unless it takes the last unused block whole. -/
theorem alloc_stays_iff (h : Layout) {len : ℕ} (hlen : 8 ≤ len)
    (hmax : len + usedHeaderSize < u64) :
    Stays h len ↔ ¬ TakesLast h len ∨ EndClear h.arena := by
  have hhdr : usedHeaderSize = 12 ∧ unusedHeaderSize = 20 := ⟨rfl, rfl⟩
  rcases h.shape.alloc_eq h.real hmax with ⟨hnone, hrun⟩ | ⟨b, ⟨hb, hfit, _⟩, hrun⟩
  · refine iff_of_true ⟨_, _, hrun, fun _ _ => rfl, fun _ _ _ _ _ _ => rfl⟩ (.inl ?_)
    rintro ⟨b, hF, hfit, _⟩
    exact absurd (hnone b (hF ▸ Finset.mem_singleton_self b)) (Nat.not_lt.mpr hfit)
  obtain ⟨xlen, hxlen⟩ : ∃ xlen, len + usedHeaderSize = xlen := ⟨_, rfl⟩
  have hx : unusedHeaderSize ≤ xlen := by omega
  rw [hxlen] at hrun hfit
  obtain ⟨hcut, _, _⟩ := h.shape.cutTail hb hx hfit
  have hbcut : b ∈ blocksAfter h.arena h.unused b xlen := Shape.subset_blocksAfter _ _ _ _ hb
  constructor
  · rintro ⟨p, s', hrun', hout, _⟩
    by_contra hno
    rw [not_or, not_not] at hno
    obtain ⟨⟨b', hF, _, hwhole⟩, hend⟩ := hno
    obtain rfl : b = b' := Finset.mem_singleton.mp (hF ▸ hb)
    rw [hxlen] at hwhole
    rw [hrun] at hrun'
    cases hrun'
    apply hend
    intro i hi
    rw [← hout _ (.inr (by omega)), Shape.cutTail_eq hfit, if_neg hwhole]
    exact useBlock_last (hF ▸ h.shape) hi
  · intro hcond
    have hkeep : ∀ x, (x < h.arena.base ∨ h.arena.endAddr ≤ x ∨ ∃ c ∈ h.blocks, c ∉ h.unused ∧
        c + usedHeaderSize ≤ x ∧ x < c + h.arena.get c .next) →
        (useBlock (cutTail h.arena b xlen) b).mem x = h.arena.mem x := by
      intro x hcase
      obtain ⟨hmem, hoff⟩ := h.shape.cutTail_mem hb hx hfit hcase
      by_cases hlast : blocksAfter h.arena h.unused b xlen = {b} ∧ ¬ Off x h.arena.endAddr .prevFree
      · -- the byte is one of the four that are cleared
        obtain ⟨hF, hend⟩ := hlast
        obtain ⟨hwhole, hF'⟩ := blocksAfter_eq_singleton (by omega) hF
        have hclear : EndClear h.arena := by
          refine hcond.resolve_left fun hno => hno ⟨b, hF', ?_⟩
          rw [hxlen]
          exact ⟨hfit, hwhole⟩
        obtain ⟨i, hi, rfl⟩ : ∃ i < 4, h.arena.endAddr + Field.prevFree.offset + i = x := by
          unfold Off at hend
          exact ⟨x - (h.arena.endAddr + Field.prevFree.offset), by omega, by omega⟩
        rw [Shape.cutTail_eq hfit, if_neg hwhole, useBlock_last (hF' ▸ h.shape) hi, hclear i hi]
      · rw [hcut.useBlock_mem hbcut hoff fun hF => ?_, hmem]
        rw [cutTail_endAddr]
        by_contra hend
        exact hlast ⟨hF, hend⟩
    exact ⟨_, _, hrun, fun x hx => hkeep x (hx.imp_right .inl),
      fun c hc hcF x hcx hxc => hkeep x (.inr (.inr ⟨c, hc, hcF, hcx, hxc⟩))⟩

theorem hundredBytes_stays : 8 ≤ 80 ∧ 80 + usedHeaderSize < u64 ∧
    (Stays hundredBytes 80 ↔ ¬ TakesLast hundredBytes 80 ∨ EndClear hundredBytes.arena) :=
  ⟨by decide, by decide, alloc_stays_iff hundredBytes (by decide) (by decide)⟩

/-- Forty bytes in one piece, with ones all around. -/
def fortyBytes : Layout :=
  onePiece (fun _ => 1) (show unusedHeaderSize ≤ 40 by decide) (by decide)
    (show 0x1000 + 40 < u64 by decide) (by decide)

theorem fortyBytes_not_stays : 8 ≤ 20 ∧ 20 + usedHeaderSize < u64 ∧ ¬ Stays fortyBytes 20 := by
  refine ⟨by decide, by decide, ?_⟩
  rintro ⟨p, s', hrun, hout, _⟩
  have hval : ((alloc fortyBytes.arena 20).toOption.map fun r => r.2.mem 0x1038) = some 0 := by
    decide +kernel
  rw [hrun, Except.toOption, Option.map_some, Option.some.injEq,
    hout 0x1038 (.inr (by decide))] at hval
  exact absurd hval (by decide +kernel)

end JanusRT.Alloc
