import JanusRT.AllocExact

/-!
# Resizing a block

`realloc` takes bytes from the unused block right above, if there is one and it is large
enough, or moves the contents to a new block. It does not ask whether the block grows: a
request that is not above the old capacity by at least a header goes through the same
subtraction, and what is copied is always the whole old payload.
-/
namespace JanusRT.Alloc

open LinkedSet Outcome ByteStore

/-- The last writes of `realloc` in place: `n`, which is used by now, becomes part of `b`. -/
def absorb (s : Arena) (b n : ℕ) : Arena :=
  let nn := s.next n
  let s := s.setBlock nn .prev (add32 (s.get nn .prev) (s.get b .next))
  s.set b .next (add32 (s.get b .next) (s.get n .next))

theorem resizeInPlace_eq (s : Arena) (b n nlen : ℕ) :
    resizeInPlace s b n nlen = absorb (useBlock (cutTail s n nlen) n) b n := rfl

@[simp] theorem absorb_base (s : Arena) (b n : ℕ) : (absorb s b n).base = s.base := by
  simp [absorb]

@[simp] theorem absorb_free (s : Arena) (b n : ℕ) : (absorb s b n).free = s.free := by
  simp [absorb]

@[simp] theorem absorb_endAddr (s : Arena) (b n : ℕ) : (absorb s b n).endAddr = s.endAddr := by
  simp [absorb]

/-- The fields after `b` has taken `n` in; `nn` is the block above both. -/
theorem get_absorb {s : Arena} {D : Set ℕ} (hD : ∀ x ∈ D, ∀ y ∈ D, Apart x y) {b n nn c : ℕ}
    (hb : b ∈ D) (hn : n ∈ D) (hnn : nn ∈ D) (hc : c ∈ D) (henn : s.next n = nn) (j : Field) :
    (absorb s b n).get c j = match j with
      | .prev => if c = nn ∧ nn ≠ s.endAddr then add32 (s.get nn .prev) (s.get b .next)
          else s.get c .prev
      | .next => if c = b then add32 (s.get b .next) (s.get n .next) else s.get c .next
      | j => s.get c j := by
  unfold absorb
  simp only [henn]
  cases j <;> simp [Arena.get_set, Arena.get_setBlock, hD, hb, hn, hnn, hc]

/-- The block `c` has its size and its payload. -/
structure Keeps (s s' : Arena) (c : ℕ) : Prop where
  next : s'.get c .next = s.get c .next
  payload : ∀ x, c + usedHeaderSize ≤ x → x < c + s.get c .next → s'.mem x = s.mem x

theorem Keeps.trans {s₁ s₂ s₃ : Arena} {c : ℕ} (h : Keeps s₁ s₂ c) (h' : Keeps s₂ s₃ c) :
    Keeps s₁ s₃ c where
  next := h'.next.trans h.next
  payload x hcx hxc := (h'.payload x hcx (h.next.symm ▸ hxc)).trans (h.payload x hcx hxc)

namespace Shape
variable {s : Arena} {B F : Finset ℕ} {b n x : ℕ}

/-- Two used neighbours become one block. -/
theorem absorb (h : Shape s B F) (hb : b ∈ B) (hn : n ∈ B) (hnF : n ∉ F)
    (hbn : b + s.get b .next = n) :
    Shape (absorb s b n) (B.erase n) F ∧
      (∀ c ∈ B, (Alloc.absorb s b n).get c .next =
        if c = b then s.get b .next + s.get n .next else s.get c .next) ∧
      ∀ x, OffHeaders B F x → (Alloc.absorb s b n).mem x = s.mem x := by
  have hhdr : usedHeaderSize = 12 ∧ unusedHeaderSize = 20 := ⟨rfl, rfl⟩
  have hmem : ∀ c ∈ B, c ∈ headers s B := fun c hc => .inl hc
  obtain ⟨nn, hnn⟩ : ∃ nn, n + s.get n .next = nn := ⟨_, rfl⟩
  have hnnD : nn ∈ headers s B := hnn ▸ h.next_mem hn
  have henn : s.next n = nn := by rw [h.next_eq hn, hnn]
  have hroom := h.room b hb
  have hle := h.next_le hn
  have hlow := h.low b hb
  have hspan := h.span
  have hget : ∀ c ∈ B, ∀ j, (Alloc.absorb s b n).get c j = _ :=
    fun c hc => get_absorb h.apart (hmem b hb) (hmem n hn) hnnD (hmem c hc) henn
  have hnext : ∀ c ∈ B, (Alloc.absorb s b n).get c .next =
      if c = b then s.get b .next + s.get n .next else s.get c .next := by
    intro c hc
    simp only [hget c hc, add32_eq (show s.get b .next + s.get n .next < u32 by omega)]
  refine ⟨h.of_links (absorb_base _ _ _) (absorb_endAddr _ _ _) ?_ ?_ ?_ ?_ ?_ ?_ ?_ ?_ ?_, hnext, ?_⟩
  · exact Finset.mem_erase.mpr ⟨by omega, h.bottom⟩
  · intro c hc
    exact h.low c (Finset.mem_of_mem_erase hc)
  · exact linked_join h.blocks hb hn hbn hnn (by omega) (fun c hc => hget c hc .next)
      fun c hc => hget c hc .prev
  · intro c hc
    have hcB := Finset.mem_of_mem_erase hc
    have := h.room c hcB
    rw [hnext c hcB]
    split_ifs <;> omega
  · intro c hc
    exact Finset.mem_erase.mpr ⟨fun he => hnF (he ▸ hc), h.sub hc⟩
  · intro c hc
    have hcB := Finset.mem_of_mem_erase hc
    simp only [hget c hcB]
    exact h.used c hcB
  · exact h.frees.congr (fun c hc => hget c (h.sub hc) .nextFree)
      fun c hc => hget c (h.sub hc) .prevFree
  · rw [absorb_free]
    exact h.head
  · intro c hc
    rw [absorb_free]
    exact h.lowest c hc
  · intro x hx
    have hoff : Off x b .next := by
      have hk : Field.next.offset = 4 := rfl
      have := hx.block b hb
      unfold Off
      omega
    unfold Alloc.absorb
    simp only [henn]
    rw [Arena.set_mem hoff, Arena.setBlock_mem]
    exact fun hne => hx.off_block (hnnD.resolve_right hne)

/-- A round of the coalescing loop writes headers only. -/
theorem joinNext_mem (h : Shape s B F) (hb : b ∈ F) (hn : n ∈ F) (hx : OffHeaders B F x) :
    (Alloc.joinNext s b n).mem x = s.mem x := by
  have hnB := h.sub hn
  have hoffnf : s.nfree n ≠ s.endAddr → Off x (s.nfree n) .prevFree := by
    rw [h.nfree_eq hn]
    exact fun hne => hx.off_unused ((h.frees.next n hn).2.resolve_right hne) _
  have hoffnn : s.next n ≠ s.endAddr → Off x (s.next n) .prev := by
    rw [h.next_eq hnB]
    exact fun hne => hx.off_block ((h.next_mem hnB).resolve_right hne)
  have hsame : ∀ v, (s.setBlock (s.nfree n) .prevFree v).next n = s.next n := by
    intro v
    have hnf := h.nextFree_mem hn
    rw [← h.nfree_eq hn] at hnf
    rw [Arena.next, Arena.get_setBlock (h.apart _ hnf n (mem_headers hnB)), if_neg (by simp)]
    rfl
  unfold Alloc.joinNext
  split_ifs with hjoin
  · simp only [hsame]
    rw [Arena.set_mem (hx.off_unused hb _), Arena.set_mem (hx.off_unused hb _),
      Arena.setBlock_mem (by simpa using hoffnn), Arena.setBlock_mem hoffnf]
  · rfl

/-- Linking a freed block writes its header and those of its unused neighbours. -/
theorem relink_mem {p : ℕ} (hx : OffHeaders B (insert b F) x) (hn : n ∈ F ∨ n = s.endAddr)
    (hp : p ≠ 0 → p ∈ F) : (Alloc.relink (unuse s b) b n p).mem x = s.mem x := by
  have hoffb : ∀ k, Off x b k := hx.off_unused (Finset.mem_insert_self b F)
  have hoffn : n ≠ s.endAddr → Off x n .prevFree := fun hne =>
    hx.off_unused (Finset.mem_insert_of_mem (hn.resolve_right hne)) _
  have hmark : (unuse s b).mem x = s.mem x := by
    change ((s.set b .prevFree 0).set b .used 0).mem x = s.mem x
    rw [Arena.set_mem (hoffb _), Arena.set_mem (hoffb _)]
  have hlink : ∀ v w, (((unuse s b).set b .nextFree v).setBlock n .prevFree w).mem x =
      s.mem x := by
    intro v w
    rw [Arena.setBlock_mem (s := (unuse s b).set b .nextFree v) hoffn, Arena.set_mem (hoffb _), hmark]
  unfold Alloc.relink
  split_ifs with hp0
  · rw [Arena.set_mem (hx.off_unused (Finset.mem_insert_of_mem (hp hp0)) _),
      Arena.set_mem (hoffb _)]
    exact hlink _ _
  · exact hlink _ _

/-- A round of the coalescing loop leaves the used blocks alone. -/
theorem joinStep (h : Shape s B F) (hb : b ∈ F) (hn : n ∈ F ∨ n = s.endAddr) :
    ∃ B' F', Shape (Alloc.joinNext s b n) B' F' ∧ (∀ x, x ∈ B' ∧ x ∉ F' ↔ x ∈ B ∧ x ∉ F) ∧
      (∀ x ∈ F, x ≠ n → x ∈ F') ∧ ∀ c ∈ B, c ∉ F → Keeps s (Alloc.joinNext s b n) c := by
  have hB := h.sub hb
  by_cases hjoin : n ≠ s.endAddr ∧ n = s.next b
  · have hnF := hn.resolve_right hjoin.1
    obtain ⟨h', hnext⟩ := h.joinNext hb hnF (by rw [← h.next_eq hB, hjoin.2])
    refine ⟨_, _, h', fun x => used_erase hnF, fun x hx hxn => Finset.mem_erase.mpr ⟨hxn, hx⟩, ?_⟩
    · intro c hc hcF
      have hcb : c ≠ b := fun he => hcF (he ▸ hb)
      refine ⟨?_, fun x hcx hxc => ?_⟩
      · rw [hnext c hc, if_neg hcb]
      · exact h.joinNext_mem hb hnF (h.offHeaders_payload hc hcF hcx hxc)
  · have hsame : Alloc.joinNext s b n = s := if_neg hjoin
    rw [hsame]
    exact ⟨B, F, h, fun x => Iff.rfl, fun x hx _ => hx, fun c _ _ => ⟨rfl, fun _ _ _ => rfl⟩⟩

/-- `free` gives a used block back and leaves the other used blocks alone, unless an unused
block lies above it and none below. -/
theorem release (h : Shape s B F) (hpos : 0 < s.base) (hb : b ∈ B) (hbF : b ∉ F)
    (hhole : s.free < b ∨ s.free = s.endAddr) :
    ∃ s', Alloc.free s (b + usedHeaderSize) = .ok s' ∧ s'.base = s.base ∧
      s'.endAddr = s.endAddr ∧ ∃ B' F', Shape s' B' F' ∧
        (∀ x, x ∈ B' ∧ x ∉ F' ↔ (x ∈ B ∧ x ∉ F) ∧ x ≠ b) ∧
        ∀ c ∈ B, c ∉ F → c ≠ b → Keeps s s' c := by
  obtain ⟨n, hn, hgap, hnF⟩ := h.findNext hb
  obtain ⟨p, hp, hpF⟩ := h.findPrev hpos hb hbF hhole hgap hnF
  have hrun := h.free_eq hb hbF hn hp
  obtain ⟨h₂, hnext₂⟩ := h.relink hpos hb hbF hgap hnF hpF
  have hp0 : p ≠ 0 → p ∈ F := by
    intro hne
    rcases hpF with ⟨he, _⟩ | ⟨hpF, _⟩
    · exact absurd he hne
    · exact hpF
  have hkeep₂ : ∀ c ∈ B, c ∉ F → c ≠ b → Keeps s (Alloc.relink (unuse s b) b n p) c := by
    intro c hc hcF hcb
    have hcF₂ : c ∉ insert b F := by
      rw [Finset.mem_insert, not_or]
      exact ⟨hcb, hcF⟩
    refine ⟨hnext₂ c hc, fun x hcx hxc => relink_mem (B := B) ?_ hnF hp0⟩
    exact h₂.offHeaders_payload hc hcF₂ hcx (by rw [hnext₂ c hc]; exact hxc)
  obtain ⟨B₃, F₃, h₃, hused₃, hin₃, hkeep₃⟩ := h₂.joinStep (Finset.mem_insert_self b F)
    (by rw [relink_endAddr, unuse_endAddr]; exact hnF.imp_left (Finset.mem_insert_of_mem ·))
  have hused : ∀ x, x ∈ B₃ ∧ x ∉ F₃ ↔ (x ∈ B ∧ x ∉ F) ∧ x ≠ b := by
    intro x
    rw [hused₃ x, Finset.mem_insert, not_or]
    constructor
    · rintro ⟨hxB, hxb, hxF⟩
      exact ⟨⟨hxB, hxF⟩, hxb⟩
    · rintro ⟨⟨hxB, hxF⟩, hxb⟩
      exact ⟨hxB, hxb, hxF⟩
  have hkeep : ∀ c ∈ B, c ∉ F → c ≠ b →
      Keeps s (Alloc.joinNext (Alloc.relink (unuse s b) b n p) b n) c := by
    intro c hc hcF hcb
    refine (hkeep₂ c hc hcF hcb).trans (hkeep₃ c hc ?_)
    rw [Finset.mem_insert, not_or]
    exact ⟨hcb, hcF⟩
  by_cases hpz : p = 0
  · rw [if_neg fun hc => hc hpz] at hrun
    exact ⟨_, hrun, by simp, by simp, B₃, F₃, h₃, hused, hkeep⟩
  · rw [if_pos hpz] at hrun
    have hpb : Gap F p b := by
      rcases hpF with ⟨he, _⟩ | ⟨_, hpb⟩
      · exact absurd he hpz
      · exact hpb
    have hb₃ := hin₃ b (Finset.mem_insert_self b F) hgap.1.ne
    have hp₃ := hin₃ p (Finset.mem_insert_of_mem (hp0 hpz)) (hpb.1.trans hgap.1).ne
    obtain ⟨B₄, F₄, h₄, hused₄, _, hkeep₄⟩ := h₃.joinStep hp₃ (.inl hb₃)
    refine ⟨_, hrun, by simp, by simp, B₄, F₄, h₄, fun x => (hused₄ x).trans (hused x), ?_⟩
    intro c hc hcF hcb
    obtain ⟨hc₃, hcF₃⟩ := (hused c).mpr ⟨⟨hc, hcF⟩, hcb⟩
    exact (hkeep c hc hcF hcb).trans (hkeep₄ c hc₃ hcF₃)

end Shape

namespace Allocated
variable {h h' : Layout} {b c xlen : ℕ}

/-- The used blocks are the old ones and the new one. -/
theorem used_iff (ha : Allocated h h' b xlen) (hb : b ∈ h.unused) (hx : unusedHeaderSize ≤ xlen) :
    c ∈ h'.blocks ∧ c ∉ h'.unused ↔ (c ∈ h.blocks ∧ c ∉ h.unused) ∨ c = b := by
  have hhdr : unusedHeaderSize = 20 := rfl
  have hB := h.shape.sub hb
  rw [ha.blocks, ha.unused, Finset.mem_erase, not_and]
  by_cases hcb : c = b
  · subst hcb
    have hin : c ∈ blocksAfter h.arena h.blocks c xlen := Shape.subset_blocksAfter _ _ _ _ hB
    exact iff_of_true ⟨hin, fun hne => absurd rfl hne⟩ (.inr rfl)
  · rw [or_iff_left hcb]
    constructor
    · rintro ⟨hin, hout⟩
      have hout := hout hcb
      unfold blocksAfter at hin hout
      split_ifs at hin hout
      · rw [Finset.mem_insert, not_or] at hout
        exact ⟨(Finset.mem_insert.mp hin).resolve_left hout.1, hout.2⟩
      · exact ⟨hin, hout⟩
    · rintro ⟨hc, hcF⟩
      exact ⟨Shape.subset_blocksAfter _ _ _ _ hc,
        fun _ => h.shape.notMem_blocksAfter hb hx hc hcF⟩

theorem keeps (ha : Allocated h h' b xlen) (hb : b ∈ h.unused) (hc : c ∈ h.blocks)
    (hcF : c ∉ h.unused) : Keeps h.arena h'.arena c :=
  ⟨(ha.others c hc fun he => hcF (he ▸ hb)).1, ha.payload c hc hcF⟩

theorem fits (ha : Allocated h h' b xlen) (hfit : xlen ≤ h.arena.get b .next) :
    xlen ≤ h'.arena.get b .next := by
  have := ha.size
  split_ifs at this <;> omega

end Allocated

/-- What `realloc` has done to the heap when it answers with the block `r` for the block `b`. -/
structure Resized (h h' : Layout) (b r size : ℕ) : Prop where
  base : h'.arena.base = h.arena.base
  endAddr : h'.arena.endAddr = h.arena.endAddr
  room : size + usedHeaderSize ≤ h'.arena.get r .next
  contents : ∀ i < size, usedHeaderSize + i < h.arena.get b .next →
    h'.arena.mem (r + usedHeaderSize + i) = h.arena.mem (b + usedHeaderSize + i)
  used : ∀ c, c ∈ h'.blocks ∧ c ∉ h'.unused ↔ ((c ∈ h.blocks ∧ c ∉ h.unused) ∧ c ≠ b) ∨ c = r
  others : ∀ c ∈ h.blocks, c ∉ h.unused → c ≠ b → Keeps h.arena h'.arena c

/-- `realloc` does what it is for. -/
def ReallocOk (h : Layout) (b size : ℕ) : Prop :=
  ∃ q s', realloc h.arena (b + usedHeaderSize) size = .ok (q, s') ∧
    ((q = 0 ∧ s' = h.arena) ∨ ∃ r, q = r + usedHeaderSize ∧
      ∃ h' : Layout, h'.arena = s' ∧ Resized h h' b r size)

/-- The block right above `b` is unused, and large enough together with `b`. -/
def InPlace (h : Layout) (b size : ℕ) : Prop :=
  b + h.arena.get b .next ∈ h.unused ∧
    size + usedHeaderSize ≤ h.arena.get b .next + h.arena.get (b + h.arena.get b .next) .next

instance (h : Layout) (b size : ℕ) : Decidable (InPlace h b size) :=
  inferInstanceAs (Decidable (_ ∧ _))

/-- The two subtractions of `realloc` in place, one after the other. -/
theorem sub64_sub64 {x y z : ℕ} (hx : x < u32) (hy : y < u32) (hz : z ≤ x + y) :
    sub64 x (sub64 z y) = x + y - z := by
  have hu : u64 = 2 ^ 64 ∧ u32 = 2 ^ 32 := ⟨rfl, rfl⟩
  rw [hu.2] at hx hy
  unfold sub64
  rw [hu.1]
  omega

namespace Layout
variable {h : Layout} {b size : ℕ}

/-- The run of `realloc` on a used block. -/
theorem realloc_eq (h : Layout) (hb : b ∈ h.blocks) (hbF : b ∉ h.unused) (size : ℕ) :
    realloc h.arena (b + usedHeaderSize) size =
      if InPlace h b size then
        .ok (b + usedHeaderSize, resizeInPlace h.arena b (b + h.arena.get b .next)
          (sub64 size (h.arena.get b .next - usedHeaderSize)))
      else moveToNew h.arena (b + usedHeaderSize) (h.arena.get b .next - usedHeaderSize) size := by
  have hhdr : usedHeaderSize = 12 ∧ unusedHeaderSize = 20 := ⟨rfl, rfl⟩
  have hu : 2 * u32 < u64 := by decide
  have hroom := h.shape.room b hb
  have hlt := h.arena.get_lt b .next
  have hblen : sub64 (h.arena.get b .next) usedHeaderSize = h.arena.get b .next - usedHeaderSize :=
    sub64_eq (by omega) (by omega)
  obtain ⟨h₁, h₂, h₃⟩ := h.shape.kassert_used hb hbF
  rw [realloc, h₁, ok_bind, h₂, ok_bind, h.shape.ptrBlock_eq hb]
  dsimp only
  rw [h₃, ok_bind, hblen, h.shape.next_eq hb]
  generalize hn : b + h.arena.get b .next = n
  have hmem := h.shape.next_mem hb
  rw [hn] at hmem
  have hplace : InPlace h b size ↔ n ∈ h.unused ∧
      size + usedHeaderSize ≤ h.arena.get b .next + h.arena.get n .next := by
    rw [InPlace, hn]
  by_cases hend : n = h.arena.endAddr
  · have hout : n ∉ h.unused := fun hF => (h.shape.frees.lt n hF).ne hend
    rw [if_pos hend, if_neg fun hc => hout (hplace.mp hc).1]
  rw [if_neg hend]
  have hused := h.shape.used n (hmem.resolve_right hend)
  by_cases hF : n ∈ h.unused
  · have hlt' := h.arena.get_lt n .next
    rw [if_pos hF] at hused
    rw [if_neg fun hc => hc hused, add64_eq (by omega)]
    by_cases hfit : size + usedHeaderSize ≤ h.arena.get b .next + h.arena.get n .next
    · rw [if_neg (by omega), if_pos (hplace.mpr ⟨hF, hfit⟩)]
      rfl
    · rw [if_pos (by omega), if_neg fun hc => hfit (hplace.mp hc).2]
  · rw [if_neg hF] at hused
    rw [if_pos (by omega), if_neg fun hc => hF (hplace.mp hc).1]

/-- What is taken of the block above: all of it, or what is missing, if both that and the
remainder have room for a header. -/
theorem exists_cut {n : ℕ} (hn : n ∈ h.unused) (hroom : usedHeaderSize ≤ h.arena.get b .next)
    (hfit : size + usedHeaderSize ≤ h.arena.get b .next + h.arena.get n .next)
    (hcut : h.arena.get b .next + h.arena.get n .next < size + usedHeaderSize + minSplitThreshold ∨
      h.arena.get b .next + unusedHeaderSize ≤ size + usedHeaderSize) :
    ∃ y, unusedHeaderSize ≤ y ∧ y ≤ h.arena.get n .next ∧
      cutTail h.arena n (sub64 size (h.arena.get b .next - usedHeaderSize)) =
        cutTail h.arena n y ∧
      size + usedHeaderSize ≤ h.arena.get b .next + y := by
  have hlt := h.arena.get_lt b .next
  have hlt' := h.arena.get_lt n .next
  rcases hcut with hall | hgrow
  · refine ⟨h.arena.get n .next, h.shape.room n (h.shape.sub hn), le_rfl, ?_, hfit⟩
    have hmin : minSplitThreshold = 40 := rfl
    rw [Shape.cutTail_eq le_rfl, if_neg (by unfold Cuts; omega), cutTail,
      sub64_sub64 hlt' (by omega) (by omega), if_neg (by omega)]
  · have hu : 2 * u32 < u64 := by decide
    refine ⟨size - (h.arena.get b .next - usedHeaderSize), by omega, by omega, ?_, by omega⟩
    rw [sub64_eq (by omega) (by omega)]

/-- Taking bytes from the block above. -/
theorem resizeInPlace (h : Layout) (hb : b ∈ h.blocks) (hbF : b ∉ h.unused) {n : ℕ}
    (hbn : b + h.arena.get b .next = n) (hn : n ∈ h.unused)
    (hfit : size + usedHeaderSize ≤ h.arena.get b .next + h.arena.get n .next)
    (hcut : h.arena.get b .next + h.arena.get n .next < size + usedHeaderSize + minSplitThreshold ∨
      h.arena.get b .next + unusedHeaderSize ≤ size + usedHeaderSize) :
    ∃ h' : Layout, h'.arena = resizeInPlace h.arena b n
        (sub64 size (h.arena.get b .next - usedHeaderSize)) ∧ Resized h h' b b size := by
  have hhdr : usedHeaderSize = 12 ∧ unusedHeaderSize = 20 := ⟨rfl, rfl⟩
  have hroom := h.shape.room b hb
  have hbn' : b ≠ n := by omega
  obtain ⟨y, hy, hyn, htail, henough⟩ := exists_cut hn (by omega) hfit hcut
  obtain ⟨h₁, harena₁, hall⟩ := h.take hn hy hyn
  have hused := fun c => hall.used_iff (c := c) hn hy
  have hkeep₁ := fun c => hall.keeps (c := c) hn
  obtain ⟨hb₁, hbF₁⟩ := (hused b).mpr (.inl ⟨hb, hbF⟩)
  obtain ⟨hn₁, hnF₁⟩ := (hused n).mpr (.inr rfl)
  obtain ⟨hs, hnext, hmem⟩ := h₁.shape.absorb hb₁ hn₁ hnF₁ (by rw [(hkeep₁ b hb hbF).next, hbn])
  have hreal : 0 < (absorb h₁.arena b n).base := by
    rw [absorb_base]
    exact h₁.real
  obtain ⟨h', harena, hblocks, hunused⟩ := hs.layout hreal
  have hsize := hall.fits hyn
  have hkeep : ∀ c ∈ h.blocks, c ∉ h.unused → ∀ x, c + usedHeaderSize ≤ x →
      x < c + h.arena.get c .next → h'.arena.mem x = h.arena.mem x := by
    intro c hc hcF x hcx hxc
    obtain ⟨hc₁, hcF₁⟩ := (hused c).mpr (.inl ⟨hc, hcF⟩)
    have hxc₁ : x < c + h₁.arena.get c .next := by
      rw [(hkeep₁ c hc hcF).next]
      exact hxc
    rw [harena, hmem x (h₁.shape.offHeaders_payload hc₁ hcF₁ hcx hxc₁)]
    exact (hkeep₁ c hc hcF).payload x hcx hxc
  refine ⟨h', ?_, ?_, ?_, ?_, ?_, ?_, ?_⟩
  · rw [harena, harena₁, resizeInPlace_eq, htail]
  · rw [harena, absorb_base, hall.base]
  · rw [harena, absorb_endAddr, hall.endAddr]
  · rw [harena, hnext b hb₁, if_pos rfl, (hkeep₁ b hb hbF).next]
    omega
  · intro i _ hi
    exact hkeep b hb hbF _ (by omega) (by omega)
  · intro c
    rw [hblocks, hunused, Finset.mem_erase, and_assoc, hused c]
    by_cases hcb : c = b
    · simp [hcb, hb, hbF, hbn']
    · by_cases hcn : c = n
      · simp [hcn, hn, hbn'.symm]
      · simp [hcb, hcn]
  · intro c hc hcF hcb
    refine ⟨?_, hkeep c hc hcF⟩
    rw [harena, hnext c ((hused c).mpr (.inl ⟨hc, hcF⟩)).1, if_neg hcb, (hkeep₁ c hc hcF).next]

end Layout

/-- The size of `t` once it has been given out. -/
def takenSize (h : Layout) (t xlen : ℕ) : ℕ :=
  if Cuts h.arena t xlen then xlen else h.arena.get t .next

/-- The unused blocks once `t` has been given out. -/
def unusedAfter (h : Layout) (t xlen : ℕ) : Finset ℕ :=
  (blocksAfter h.arena h.unused t xlen).erase t

/-- The heap when the contents of `b` have been copied to the new block `t`. -/
structure Copied (h h' : Layout) (b t size : ℕ) : Prop where
  base : h'.arena.base = h.arena.base
  endAddr : h'.arena.endAddr = h.arena.endAddr
  unused : h'.unused = unusedAfter h t (size + usedHeaderSize)
  used : ∀ c, c ∈ h'.blocks ∧ c ∉ h'.unused ↔ (c ∈ h.blocks ∧ c ∉ h.unused) ∨ c = t
  keeps : ∀ c ∈ h.blocks, c ∉ h.unused → Keeps h.arena h'.arena c
  room : size + usedHeaderSize ≤ h'.arena.get t .next
  contents : ∀ i, usedHeaderSize + i < h.arena.get b .next →
    h'.arena.mem (t + usedHeaderSize + i) = h.arena.mem (b + usedHeaderSize + i)
  fits : h.arena.get b .next ≤ h'.arena.get t .next

namespace Layout
variable {h : Layout} {b t size : ℕ}

/-- The move up to the call of `free`, when the new block holds the old payload. -/
theorem copy (h : Layout) (hb : b ∈ h.blocks) (hbF : b ∉ h.unused) (hsize : 8 ≤ size)
    (ht : t ∈ h.unused) (hfit : size + usedHeaderSize ≤ h.arena.get t .next)
    (hcopy : h.arena.get b .next ≤ takenSize h t (size + usedHeaderSize))
    (hrun : alloc h.arena size = .ok (t + usedHeaderSize,
      useBlock (cutTail h.arena t (size + usedHeaderSize)) t)) :
    ∃ h' : Layout, Copied h h' b t size ∧
      moveToNew h.arena (b + usedHeaderSize) (h.arena.get b .next - usedHeaderSize) size =
        free h'.arena (b + usedHeaderSize) >>= fun s => .ok (t + usedHeaderSize, s) := by
  have hhdr : usedHeaderSize = 12 ∧ unusedHeaderSize = 20 := ⟨rfl, rfl⟩
  have hroom := h.shape.room b hb
  have hx : unusedHeaderSize ≤ size + usedHeaderSize := by omega
  obtain ⟨h₁, harena₁, hall⟩ := h.take ht hx hfit
  rw [← harena₁] at hrun
  have hused := fun c => hall.used_iff (c := c) ht hx
  obtain ⟨ht₁, htF₁⟩ := (hused t).mpr (.inr rfl)
  have hcopy₁ : h.arena.get b .next ≤ h₁.arena.get t .next := by
    rw [hall.size]
    exact hcopy
  obtain ⟨m, hm⟩ : ∃ m, memcpy h₁.arena.mem (t + usedHeaderSize) (b + usedHeaderSize)
    (h.arena.get b .next - usedHeaderSize) = m := ⟨_, rfl⟩
  have hout : ∀ x, x < t + usedHeaderSize ∨ t + h₁.arena.get t .next ≤ x →
      m x = h₁.arena.mem x := by
    intro x hx
    rw [← hm, memcpy, if_neg (by omega)]
  obtain ⟨hs, hnext⟩ := h₁.shape.payload ht₁ htF₁ hout
  obtain ⟨h', harena, hblocks, hunused⟩ := hs.layout h₁.real
  have hkeep₁ : ∀ c ∈ h.blocks, c ∉ h.unused → Keeps h₁.arena h'.arena c := by
    intro c hc hcF
    obtain ⟨hc₁, hcF₁⟩ := (hused c).mpr (.inl ⟨hc, hcF⟩)
    have hct : c ≠ t := fun he => hcF (he ▸ ht)
    rw [harena]
    refine ⟨hnext c hc₁, fun x hcx hxc => hout x ?_⟩
    have h₁' := fun hlt => h₁.shape.le_of_lt hc₁ (Shape.mem_headers ht₁) hlt
    have h₂' := fun hlt => h₁.shape.le_of_lt ht₁ (Shape.mem_headers hc₁) hlt
    omega
  refine ⟨h', ⟨?_, ?_, ?_, ?_, ?_, ?_, ?_, ?_⟩, ?_⟩
  · rw [harena]
    exact hall.base
  · rw [harena]
    exact hall.endAddr
  · rw [hunused, hall.unused, unusedAfter]
  · intro c
    rw [hblocks, hunused]
    exact hused c
  · intro c hc hcF
    exact (hall.keeps ht hc hcF).trans (hkeep₁ c hc hcF)
  · rw [harena, hnext t ht₁]
    exact hall.fits hfit
  · intro i hi
    have hsrc := hall.payload b hb hbF (b + usedHeaderSize + i) (by omega) (by omega)
    rw [harena, ← hsrc, ← hm]
    change memcpy _ _ _ _ _ = _
    rw [memcpy, if_pos (by omega), Nat.add_sub_cancel_left]
  · rw [harena, hnext t ht₁]
    exact hcopy₁
  · rw [moveToNew, hrun, ok_bind, harena, ← hm]
    rfl

/-- The whole move, when the old block does not lie below the first unused one. -/
theorem move (h : Layout) (hb : b ∈ h.blocks) (hbF : b ∉ h.unused) {h₁ : Layout}
    (ht : t ∈ h.unused) (hc : Copied h h₁ b t size)
    (hhole : h₁.unused = ∅ ∨ ∃ u ∈ h₁.unused, u < b) :
    ∃ s', free h₁.arena (b + usedHeaderSize) = .ok s' ∧
      ∃ h' : Layout, h'.arena = s' ∧ Resized h h' b t size := by
  have hbt : t ≠ b := fun he => hbF (he ▸ ht)
  obtain ⟨hb₁, hbF₁⟩ := (hc.used b).mpr (.inl ⟨hb, hbF⟩)
  obtain ⟨ht₁, htF₁⟩ := (hc.used t).mpr (.inr rfl)
  have hfree : h₁.arena.free < b ∨ h₁.arena.free = h₁.arena.endAddr := by
    rcases hhole with hnone | ⟨u, hu, hub⟩
    · refine h₁.shape.head.imp_left fun hF => ?_
      rw [hnone] at hF
      exact absurd hF (Finset.notMem_empty _)
    · exact .inl ((h₁.shape.lowest u hu).trans_lt hub)
  obtain ⟨s', hrun, hbase, hend, B', F', hs, hused, hkeep⟩ :=
    h₁.shape.release h₁.real hb₁ hbF₁ hfree
  obtain ⟨h', harena, hblocks, hunused⟩ := hs.layout (by rw [hbase]; exact h₁.real)
  have hkeept := hkeep t ht₁ htF₁ hbt
  refine ⟨s', hrun, h', harena, ?_, ?_, ?_, ?_, ?_, ?_⟩
  · rw [harena, hbase, hc.base]
  · rw [harena, hend, hc.endAddr]
  · rw [harena, hkeept.next]
    exact hc.room
  · intro i _ hi
    rw [harena, hkeept.payload _ (by omega) (by have := hc.fits; omega)]
    exact hc.contents i hi
  · intro c
    rw [hblocks, hunused, hused c, hc.used c]
    by_cases hct : c = t
    · simp [hct, hbt]
    · simp [hct]
  · intro c hcB hcF hcb
    obtain ⟨hc₁, hcF₁⟩ := (hc.used c).mpr (.inl ⟨hcB, hcF⟩)
    rw [harena]
    exact (hc.keeps c hcB hcF).trans (hkeep c hc₁ hcF₁ hcb)

end Layout

/-- The block `b` is not below the first unused one when `free` gets it, after `t` has been given
out. -/
def HoleBelow (h : Layout) (b t xlen : ℕ) : Prop :=
  unusedAfter h t xlen = ∅ ∨ ∃ u ∈ unusedAfter h t xlen, u < b

/-- The requests that `realloc` serves. In place it takes the block above whole, or a piece of
it with room for a header. Otherwise the best fit holds the whole old payload, and the old
block can be freed. -/
structure Resizable (h : Layout) (b size : ℕ) : Prop where
  inPlace : InPlace h b size →
    h.arena.get b .next + h.arena.get (b + h.arena.get b .next) .next <
        size + usedHeaderSize + minSplitThreshold ∨
      h.arena.get b .next + unusedHeaderSize ≤ size + usedHeaderSize
  move : ¬ InPlace h b size → ∀ t, Best h.arena h.unused (size + usedHeaderSize) t →
    h.arena.get b .next ≤ takenSize h t (size + usedHeaderSize) ∧
      HoleBelow h b t (size + usedHeaderSize)

theorem reallocOk_of_resizable (h : Layout) {b size : ℕ} (hb : b ∈ h.blocks) (hbF : b ∉ h.unused)
    (hsize : 8 ≤ size) (hmax : size + usedHeaderSize < u32) (hr : Resizable h b size) :
    ReallocOk h b size := by
  have hu : u32 < u64 := by decide
  have hrun := h.realloc_eq hb hbF size
  by_cases hplace : InPlace h b size
  · rw [if_pos hplace] at hrun
    obtain ⟨h', harena, hres⟩ :=
      h.resizeInPlace hb hbF rfl hplace.1 hplace.2 (hr.inPlace hplace)
    exact ⟨_, _, hrun, .inr ⟨b, rfl, h', harena, hres⟩⟩
  · rw [if_neg hplace] at hrun
    rcases h.shape.alloc_eq h.real (hmax.trans hu) with ⟨_, hnone⟩ | ⟨t, hbest, hsome⟩
    · refine ⟨0, h.arena, ?_, .inl ⟨rfl, rfl⟩⟩
      rw [hrun, moveToNew, hnone]
      rfl
    · obtain ⟨hcopy, hhole⟩ := hr.move hplace t hbest
      obtain ⟨ht, hfit, _⟩ := hbest
      obtain ⟨h₁, hcop, hmove⟩ := h.copy hb hbF hsize ht hfit hcopy hsome
      unfold HoleBelow at hhole
      rw [← hcop.unused] at hhole
      obtain ⟨s', hfree, h', harena, hres⟩ := h.move hb hbF ht hcop hhole
      refine ⟨t + usedHeaderSize, s', ?_, .inr ⟨t, rfl, h', harena, hres⟩⟩
      rw [hrun, hmove, hfree, ok_bind]

/-- There is one best fit. -/
theorem Best.unique {s : Arena} {F : Finset ℕ} {xlen b c : ℕ} (hb : Best s F xlen b)
    (hc : Best s F xlen c) : b = c := by
  obtain ⟨h₁, h₂⟩ := hb.2.2 c hc.1 hc.2.1
  obtain ⟨h₃, h₄⟩ := hc.2.2 b hb.1 hb.2.1
  have heq : s.get c .next = s.get b .next := by omega
  exact Nat.le_antisymm (h₂ heq) (h₄ heq.symm)

/-- Moving a block that then lies below the first unused one leaves a list whose first block
has a link back. -/
theorem not_reallocOk_below (h : Layout) {b size t : ℕ} (hb : b ∈ h.blocks) (hbF : b ∉ h.unused)
    (hsize : 8 ≤ size) (hmax : size + usedHeaderSize < u32) (hplace : ¬ InPlace h b size)
    (hbest : Best h.arena h.unused (size + usedHeaderSize) t)
    (hcopy : h.arena.get b .next ≤ takenSize h t (size + usedHeaderSize))
    (hhole : ¬ HoleBelow h b t (size + usedHeaderSize)) : ¬ ReallocOk h b size := by
  have hu : u32 < u64 := by decide
  have hrun := h.realloc_eq hb hbF size
  rw [if_neg hplace] at hrun
  have hsome : Alloc.alloc h.arena size = .ok (t + usedHeaderSize,
      useBlock (cutTail h.arena t (size + usedHeaderSize)) t) := by
    rcases h.shape.alloc_eq h.real (hmax.trans hu) with ⟨hnone, _⟩ | ⟨t', hbest', hsome⟩
    · exact absurd (hnone t hbest.1) (Nat.not_lt.mpr hbest.2.1)
    · rw [hbest.unique hbest']
      exact hsome
  obtain ⟨ht, hfit, _⟩ := hbest
  obtain ⟨h₁, hcop, hmove⟩ := h.copy hb hbF hsize ht hfit hcopy hsome
  obtain ⟨hb₁, hbF₁⟩ := (hcop.used b).mpr (.inl ⟨hb, hbF⟩)
  rw [HoleBelow, ← hcop.unused, not_or] at hhole
  have hne : h₁.arena.free ≠ h₁.arena.endAddr := by
    obtain ⟨u, hu⟩ := Finset.nonempty_iff_ne_empty.mpr hhole.1
    exact ((h₁.shape.lowest u hu).trans_lt (h₁.shape.frees.lt u hu)).ne
  have hfF := h₁.shape.head.resolve_right hne
  have hlt : b < h₁.arena.free := by
    apply lt_of_le_of_ne (Nat.le_of_not_lt fun hlt => hhole.2 ⟨_, hfF, hlt⟩)
    exact fun he => hbF₁ (he ▸ hfF)
  obtain ⟨s₂, hfree, hend, hfirst, hback⟩ := h₁.shape.free_below h₁.real hb₁ hbF₁ hlt hne
  rw [hmove, hfree, ok_bind] at hrun
  rintro ⟨q, s', hrun', hcase⟩
  rw [hrun] at hrun'
  cases hrun'
  rcases hcase with ⟨hq, _⟩ | ⟨r, _, h', rfl, _⟩
  · exact absurd hq (Nat.succ_ne_zero _)
  · have hmem : b ∈ h'.unused := by
      rcases h'.shape.head with hF | hF
      · exact hfirst ▸ hF
      · have := h₁.shape.blocks.lt b hb₁
        omega
    exact hback (h'.shape.frees.first b hmem fun y hy => hfirst ▸ h'.shape.lowest y hy)

section Same
variable {s : Arena} {D : Set ℕ} (hD : ∀ x ∈ D, ∀ y ∈ D, Apart x y) {b n c : ℕ}

include hD

/-- A split of no bytes clears the header. -/
theorem get_split_zero (hn : n ∈ D) (hc : c ∈ D) (hlt : n < u64) (hne : n ≠ s.endAddr)
    (j : Field) : (split s n 0).get c j = if c = n then 0 else s.get c j := by
  have hr : add64 n 0 = n := Nat.mod_eq_of_lt hlt
  have hz : sub32 0 0 = 0 := rfl
  have hz' : 0 % u32 = 0 := rfl
  unfold split
  simp only [hz', hr]
  by_cases hcn : c = n
  · subst hcn
    cases j <;> simp [Arena.next, Arena.nfree, Arena.get_set, Arena.get_setBlock, hD, hn, hr, hz,
      hne]
  · cases j <;> simp [Arena.next, Arena.nfree, Arena.get_set, Arena.get_setBlock, hD, hn, hc, hr,
      hcn]

/-- The size of a block that is used with all its links zero. -/
theorem next_useBlock_zero (hn : n ∈ D) (hc : c ∈ D) (hlt : n < u64)
    (hnf : s.get n .nextFree = 0) (hpf : s.get n .prevFree = 0) :
    (useBlock s n).get c .next = s.get c .next := by
  have hnfree : s.nfree n = n := by
    rw [Arena.nfree, hnf]
    exact Nat.mod_eq_of_lt hlt
  have hpfree : s.pfree n = n := by
    rw [Arena.pfree, hpf, sub64_eq (Nat.zero_le n) hlt, Nat.sub_zero]
  unfold useBlock
  split_ifs
  · simp [Arena.get_set, hD, hn, hc, hnfree]
  · have hr : add64 n (add32 0 0) = n := Nat.mod_eq_of_lt hlt
    simp [Arena.nfree, Arena.get_set, Arena.get_setBlock, hD, hn, hc, hpfree, hnf, hpf, hr]

end Same

/-- Asking for the size a block has, below an unused block that can be split. -/
theorem not_reallocOk_same (h : Layout) {b size : ℕ} (hb : b ∈ h.blocks) (hbF : b ∉ h.unused)
    (hplace : InPlace h b size) (hsame : size + usedHeaderSize = h.arena.get b .next)
    (hcut : minSplitThreshold ≤ h.arena.get (b + h.arena.get b .next) .next) :
    ¬ ReallocOk h b size := by
  have hhdr : usedHeaderSize = 12 ∧ unusedHeaderSize = 20 := ⟨rfl, rfl⟩
  have hu : u32 < u64 := by decide
  have hroom := h.shape.room b hb
  have hrun := h.realloc_eq hb hbF size
  rw [if_pos hplace] at hrun
  have hnF := hplace.1
  obtain ⟨n, hn⟩ : ∃ n, b + h.arena.get b .next = n := ⟨_, rfl⟩
  rw [hn] at hnF hcut hrun
  have hnB := h.shape.sub hnF
  have hne : n ≠ h.arena.endAddr := (h.shape.blocks.lt n hnB).ne
  have hlt : n < u64 := (h.shape.blocks.lt n hnB).trans h.shape.space
  have hbn : b ≠ n := by omega
  have hbD : b ∈ headers h.arena h.blocks := .inl hb
  have hnD : n ∈ headers h.arena h.blocks := .inl hnB
  have hnlen : sub64 size (h.arena.get b .next - usedHeaderSize) = 0 := by
    have := h.arena.get_lt b .next
    rw [sub64_eq (by omega) (by omega)]
    omega
  have htail : cutTail h.arena n 0 = split h.arena n 0 := by
    have := h.arena.get_lt n .next
    rw [cutTail, sub64_eq (Nat.zero_le _) (by omega), Nat.sub_zero, if_pos hcut]
  rw [hnlen, resizeInPlace_eq, htail] at hrun
  -- the header of the block above is zeros, so it is its own neighbour on both lists
  have hzero : ∀ c ∈ headers h.arena h.blocks, ∀ j, (split h.arena n 0).get c j = _ :=
    fun c hc => get_split_zero h.shape.apart hnD hc hlt hne
  have hend : (split h.arena n 0).endAddr = h.arena.endAddr := split_endAddr _ _ _
  generalize split h.arena n 0 = s₁ at hrun hzero hend
  have hnext : ∀ c ∈ headers h.arena h.blocks, (useBlock s₁ n).get c .next = s₁.get c .next :=
    fun c hc => next_useBlock_zero h.shape.apart hnD hc hlt (by rw [hzero n hnD, if_pos rfl])
      (by rw [hzero n hnD, if_pos rfl])
  have hself : (useBlock s₁ n).next n = n := by
    rw [Arena.next, hnext n hnD, hzero n hnD, if_pos rfl]
    exact Nat.mod_eq_of_lt hlt
  have hget : ∀ c ∈ headers h.arena h.blocks, (absorb (useBlock s₁ n) b n).get c .next = _ :=
    fun c hc => get_absorb h.shape.apart hbD hnD hnD hc hself .next
  have hgetb : (absorb (useBlock s₁ n) b n).get b .next = h.arena.get b .next := by
    have hmod := h.arena.get_mod b .next
    simp [hget b hbD, hnext, hbD, hnD, hzero, hbn, add32, hmod]
  have hgetn : (absorb (useBlock s₁ n) b n).get n .next = 0 := by
    simp [hget n hnD, hnext, hnD, hzero, hbn.symm]
  have hend' : (absorb (useBlock s₁ n) b n).endAddr = h.arena.endAddr := by
    rw [absorb_endAddr, useBlock_endAddr, hend]
  generalize absorb (useBlock s₁ n) b n = s₂ at hrun hgetb hgetn hend'
  rintro ⟨q, s', hrun', hcase⟩
  rw [hrun] at hrun'
  cases hrun'
  rcases hcase with ⟨hq, _⟩ | ⟨r, hr, h', rfl, hres⟩
  · exact absurd hq (Nat.succ_ne_zero _)
  · obtain rfl : b = r := by omega
    obtain ⟨hb', _⟩ := (hres.used b).mpr (.inr rfl)
    have hmem := h'.shape.next_mem hb'
    rw [hgetb, hn] at hmem
    have hnB' := hmem.resolve_right (hend'.symm ▸ hne)
    have := h'.shape.room n hnB'
    omega

/-- `split` sees the low 32 bits of the size. -/
theorem split_mod (s : Arena) (b size : ℕ) : split s b size = split s b (size % u32) := by
  unfold split
  simp only [Nat.mod_mod]

theorem add64_add64 (p x y : ℕ) : add64 (add64 p x) y = add64 p (x + y) := by
  rw [add64, add64, Nat.mod_add_mod, Nat.add_assoc, ← add64]

theorem sub32_of_lt {x y : ℕ} (hlt : x < y) (hy : y ≤ u32) : sub32 x y = x + u32 - y := by
  rw [sub32, Nat.mod_eq_of_lt (by omega)]
  omega

/-- Headers at distances that are apart, above an address that may be near the top. -/
theorem image_apart (n : ℕ) {E : Set ℕ} (hE : ∀ e ∈ E, ∀ f ∈ E, Apart e f)
    (hlt : ∀ e ∈ E, e + unusedHeaderSize ≤ u64) :
    ∀ x ∈ Set.image (add64 n) E, ∀ y ∈ Set.image (add64 n) E, Apart x y := by
  rintro _ ⟨e, he, rfl⟩ _ ⟨f, hf, rfl⟩
  have h₁ := hE e he f hf
  have h₂ := hlt e he
  have h₃ := hlt f hf
  have hu : u64 = 2 ^ 64 := rfl
  have hhdr : unusedHeaderSize = 20 := rfl
  unfold Apart at h₁ ⊢
  unfold add64
  rw [hu] at h₂ h₃ ⊢
  omega

/-- The link forward after a split at a distance that has wrapped around. -/
theorem get_split_wrapped {s : Arena} {B F : Finset ℕ} {n d : ℕ} (h : Shape s B F) (hn : n ∈ F)
    (hpos : 0 < d) (hd : d + s.get n .nextFree + unusedHeaderSize ≤ u32) :
    (split s n (u32 - d)).get n .nextFree = u32 - d := by
  have hhdr : unusedHeaderSize = 20 := rfl
  have hu : u64 = 2 ^ 64 ∧ u32 = 2 ^ 32 := ⟨rfl, rfl⟩
  have hnB := h.sub hn
  have hlt : n < u64 := (h.blocks.lt n hnB).trans h.space
  have hmono := h.next_le_nextFree hn
  have hroom := h.room n hnB
  obtain ⟨L, hL⟩ : ∃ L, s.get n .next = L := ⟨_, rfl⟩
  obtain ⟨N, hN⟩ : ∃ N, s.get n .nextFree = N := ⟨_, rfl⟩
  have hgap : L = N ∨ L + unusedHeaderSize ≤ N := by
    rcases Nat.eq_or_lt_of_le hmono with he | hlt
    · omega
    · right
      have hle := h.nextFree_le hn
      have hmem := (h.next_mem hnB).resolve_right (by omega)
      have hnext := h.le_of_lt hmem (h.nextFree_mem hn) (by omega)
      have := h.room _ hmem
      omega
  rw [hL] at hmono hroom
  rw [hN] at hmono hd
  obtain ⟨E, hE⟩ : ∃ E : Set ℕ, ∀ e, e ∈ E ↔
      e = 0 ∨ e = u32 - d ∨ e = L + u32 ∨ e = N + u32 := ⟨{e | _}, fun _ => Iff.rfl⟩
  have hD : ∀ x ∈ Set.image (add64 n) E, ∀ y ∈ Set.image (add64 n) E, Apart x y := by
    apply image_apart
    · intro e he f hf
      rw [hE] at he hf
      unfold Apart
      omega
    · intro e he
      rw [hE] at he
      omega
  have hn0 : add64 n 0 = n := Nat.mod_eq_of_lt hlt
  have hmem : ∀ e, e = 0 ∨ e = u32 - d ∨ e = L + u32 ∨ e = N + u32 →
      add64 n e ∈ Set.image (add64 n) E := fun e he => ⟨e, (hE e).mpr he, rfl⟩
  have hself : n ∈ Set.image (add64 n) E := ⟨0, (hE 0).mpr (.inl rfl), hn0⟩
  have hnext : ∀ x, x < u32 - d →
      add64 (add64 n (u32 - d)) (sub32 x (u32 - d)) = add64 n (x + u32) := by
    intro x hx
    rw [sub32_of_lt hx (by omega), add64_add64]
    congr 1
    omega
  have hne : ∀ e f, e < f → f < u64 → add64 n e ≠ add64 n f := by
    intro e f hef hf
    unfold add64
    rw [hu.1] at hf ⊢
    omega
  have hnr : n ≠ add64 n (u32 - d) := by
    have := hne 0 (u32 - d) (by omega) (by omega)
    rwa [hn0] at this
  have hget := get_split hD (by omega) hself (hmem (u32 - d) (by simp)) (hmem (L + u32) (by simp))
    (hmem (N + u32) (by simp)) hself hnr rfl
    (by rw [hL, hnext L (by omega)]) (by rw [hN, hnext N (by omega)])
    (hne _ _ (by omega) (by omega)).symm (hne _ _ (by omega) (by omega)).symm .nextFree
  simpa using hget

/-- An address that far above a block of the region is outside the region. -/
theorem Region.add64_outside {base endAddr n d : ℕ} (hr : Region base endAddr) (hlow : base + d < n)
    (hn : n < endAddr) (hd : d < u32) :
    add64 n (u32 - d) < base ∨ endAddr < add64 n (u32 - d) := by
  have hu : u64 = 2 ^ 64 ∧ u32 = 2 ^ 32 := ⟨rfl, rfl⟩
  have hspan := hr.span
  have hspace := hr.space
  rw [hu.1] at hspace
  rw [hu.2] at hspan hd
  rw [add64, hu.1, hu.2]
  omega

/-- Shrinking a block below the first unused one, when that can be split: the list then starts
outside the region. -/
theorem not_reallocOk_shrunk (h : Layout) {b size : ℕ} (hb : b ∈ h.blocks) (hbF : b ∉ h.unused)
    (hsize : 8 ≤ size) (hplace : InPlace h b size)
    (hless : size + usedHeaderSize < h.arena.get b .next)
    (hcut : size + usedHeaderSize + minSplitThreshold ≤
      h.arena.get b .next + h.arena.get (b + h.arena.get b .next) .next)
    (hfirst : h.arena.free = b + h.arena.get b .next) : ¬ ReallocOk h b size := by
  have hhdr : usedHeaderSize = 12 ∧ unusedHeaderSize = 20 := ⟨rfl, rfl⟩
  have hu : u32 < u64 := by decide
  have hrun := h.realloc_eq hb hbF size
  rw [if_pos hplace] at hrun
  have hnF := hplace.1
  obtain ⟨n, hn⟩ : ∃ n, b + h.arena.get b .next = n := ⟨_, rfl⟩
  rw [hn] at hnF hcut hrun hfirst
  have hnB := h.shape.sub hnF
  have hlow := h.shape.low b hb
  have hspan := h.shape.span
  have hspace := h.shape.space
  have hle := h.shape.next_le hnB
  have hleF := h.shape.nextFree_le hnF
  have hmono := h.shape.next_le_nextFree hnF
  have hroom := h.shape.room n hnB
  have hlt : n < u64 := lt_of_le_of_lt (by omega) hspace
  obtain ⟨d, hd⟩ : ∃ d, h.arena.get b .next - usedHeaderSize = size + d :=
    ⟨_, (Nat.add_sub_of_le (by omega)).symm⟩
  have hnlen : sub64 size (size + d) = u64 - d := by
    rw [sub64, Nat.mod_eq_of_lt (by omega)]
    omega
  have hwrap : (u64 - d) % u32 = u32 - d := by
    have hu' : u64 = 2 ^ 64 ∧ u32 = 2 ^ 32 := ⟨rfl, rfl⟩
    have := h.arena.get_lt b .next
    rw [hu'.2] at this
    rw [hu'.1, hu'.2]
    omega
  have htail : cutTail h.arena n (u64 - d) = split h.arena n (u32 - d) := by
    have hL := h.arena.get_lt n .next
    have hb' := h.arena.get_lt b .next
    have hsub : sub64 (h.arena.get n .next) (u64 - d) = h.arena.get n .next + d := by
      rw [← hnlen, sub64_sub64 hL (by omega) (by omega)]
      omega
    rw [cutTail, hsub, if_pos (by omega), split_mod, hwrap]
  rw [hd, hnlen, resizeInPlace_eq, htail] at hrun
  have hdpos : 0 < d := by omega
  have hdlt : d + h.arena.get n .nextFree + unusedHeaderSize ≤ u32 := by omega
  have hnfree := get_split_wrapped h.shape hnF hdpos hdlt
  have hfree : (absorb (useBlock (split h.arena n (u32 - d)) n) b n).free = add64 n (u32 - d) := by
    rw [absorb_free, useBlock_free, split_free, if_pos hfirst.symm, Arena.nfree, hnfree]
  generalize absorb (useBlock (split h.arena n (u32 - d)) n) b n = s₂ at hrun hfree
  rintro ⟨q, s', hrun', hcase⟩
  rw [hrun] at hrun'
  cases hrun'
  rcases hcase with ⟨hq, _⟩ | ⟨r, hr, h', rfl, hres⟩
  · exact absurd hq (Nat.succ_ne_zero _)
  · have hbase := hres.base
    have hend := hres.endAddr
    -- the list starts outside the region
    have hout := h.shape.toRegion.add64_outside (show h.arena.base + d < n by omega)
      (h.shape.blocks.lt n hnB) (by omega)
    rcases h'.shape.head with hF | hF
    · have h₁ := h'.shape.low _ (h'.shape.sub hF)
      have h₂ := h'.shape.frees.lt _ hF
      omega
    · omega

/-- `realloc` keeps the contents and the neighbours of every block whose request it can serve.
A block that is moved from below the first hole, or asked to keep its size below an unused
block that can be split, or to shrink below the first such block, leaves a heap that is not
well formed. -/
theorem realloc_correct (h : Layout) {b size : ℕ} (hb : b ∈ h.blocks) (hbF : b ∉ h.unused)
    (hsize : 8 ≤ size) (hmax : size + usedHeaderSize < u32) :
    (Resizable h b size → ReallocOk h b size) ∧
    (¬ InPlace h b size → ∀ t, Best h.arena h.unused (size + usedHeaderSize) t →
      h.arena.get b .next ≤ takenSize h t (size + usedHeaderSize) →
      ¬ HoleBelow h b t (size + usedHeaderSize) → ¬ ReallocOk h b size) ∧
    (InPlace h b size → size + usedHeaderSize = h.arena.get b .next →
      minSplitThreshold ≤ h.arena.get (b + h.arena.get b .next) .next → ¬ ReallocOk h b size) ∧
    (InPlace h b size → size + usedHeaderSize < h.arena.get b .next →
      size + usedHeaderSize + minSplitThreshold ≤
        h.arena.get b .next + h.arena.get (b + h.arena.get b .next) .next →
      h.arena.free = b + h.arena.get b .next → ¬ ReallocOk h b size) :=
  ⟨reallocOk_of_resizable h hb hbF hsize hmax,
    fun hplace _ => not_reallocOk_below h hb hbF hsize hmax hplace, not_reallocOk_same h hb hbF,
    not_reallocOk_shrunk h hb hbF hsize⟩

/-- The hundred bytes once eight have been given out: a used block of twenty bytes below an
unused one of eighty. -/
theorem hundredBytes_taken : ∃ h : Layout,
    alloc hundredBytes.arena 8 = .ok (0x1000 + usedHeaderSize, h.arena) ∧
      (0x1000 ∈ h.blocks ∧ 0x1000 ∉ h.unused) ∧ h.arena.get 0x1000 .next = 20 ∧
      0x1014 ∈ h.unused ∧ h.arena.get 0x1014 .next = 80 := by
  have hmem : 0x1000 ∈ hundredBytes.unused := Finset.mem_singleton_self _
  have hx : unusedHeaderSize ≤ 20 := by decide
  have hnext : hundredBytes.arena.get 0x1000 .next = 100 := by decide +kernel
  have hcut : Cuts hundredBytes.arena 0x1000 20 := by decide +kernel
  obtain ⟨h, harena, hall⟩ := hundredBytes.take hmem hx (by rw [hnext]; decide)
  refine ⟨h, ?_, (hall.used_iff hmem hx).mpr (.inr rfl), ?_, ?_, ?_⟩
  · rcases hundredBytes.shape.alloc_eq hundredBytes.real (show 8 + usedHeaderSize < u64 by decide)
      with ⟨hnone, _⟩ | ⟨t, hbest, hrun⟩
    · have := hnone _ hmem
      rw [hnext] at this
      exact absurd this (by decide)
    · obtain rfl : t = 0x1000 := Finset.mem_singleton.mp hbest.1
      have hlen : 8 + usedHeaderSize = 20 := rfl
      rw [hlen] at hrun
      rw [hrun, harena]
  · rw [hall.size, if_pos hcut]
  · rw [hall.unused, blocksAfter, if_pos hcut]
    exact Finset.mem_erase.mpr ⟨by decide, Finset.mem_insert_self _ _⟩
  · have := (hall.rest hcut).2
    rw [hnext] at this
    exact this

/-- Growing that block to forty bytes. -/
theorem realloc_correct_grown : ∃ h : Layout,
    alloc hundredBytes.arena 8 = .ok (0x1000 + usedHeaderSize, h.arena) ∧ 0x1000 ∈ h.blocks ∧
      0x1000 ∉ h.unused ∧ 8 ≤ 40 ∧ 40 + usedHeaderSize < u32 ∧ ReallocOk h 0x1000 40 := by
  obtain ⟨h, hrun, ⟨hb, hbF⟩, hsize, hn, hrest⟩ := hundredBytes_taken
  have hplace : InPlace h 0x1000 40 := by
    rw [InPlace, hsize, hrest]
    exact ⟨hn, by decide⟩
  refine ⟨h, hrun, hb, hbF, by decide, by decide, ?_⟩
  refine (realloc_correct h hb hbF (by decide) (by decide)).1 ⟨fun _ => .inr ?_, ?_⟩
  · rw [hsize]
    decide
  · exact fun hno => absurd hplace hno

/-- Asking for the eight bytes it has. -/
theorem realloc_same_not_ok : ∃ h : Layout,
    alloc hundredBytes.arena 8 = .ok (0x1000 + usedHeaderSize, h.arena) ∧ 0x1000 ∈ h.blocks ∧
      0x1000 ∉ h.unused ∧ 8 ≤ 8 ∧ 8 + usedHeaderSize < u32 ∧ ¬ ReallocOk h 0x1000 8 := by
  obtain ⟨h, hrun, ⟨hb, hbF⟩, hsize, hn, hrest⟩ := hundredBytes_taken
  have hplace : InPlace h 0x1000 8 := by
    rw [InPlace, hsize, hrest]
    exact ⟨hn, by decide⟩
  refine ⟨h, hrun, hb, hbF, by decide, by decide, not_reallocOk_same h hb hbF hplace ?_ ?_⟩
  · rw [hsize]
    rfl
  · rw [hsize, hrest]
    decide

end JanusRT.Alloc
