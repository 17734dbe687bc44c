import JanusRT.AllocExact

/-!
# Aligned allocation

`aligned_alloc` takes the beginning of the chosen block off, up to the first aligned
payload, however short it is. A beginning of twenty bytes or more is an unused block of
its own. A shorter one has no room for its links, and the header of the block behind it
is written over them.
-/
namespace JanusRT.Alloc

open LinkedSet Outcome

/-- The payload of `b` is aligned. -/
def AlignedAt (align b : ℕ) : Prop := (b + usedHeaderSize) % align = 0

/-- What the code computes as `align - ca`: the distance from the payload of `b` to the
next aligned address above it. -/
def lead (align b : ℕ) : ℕ := align - (b + usedHeaderSize) % align

/-- An aligned payload of `len` bytes lies inside `b` together with a header. -/
def HasAligned (s : Arena) (len align b : ℕ) : Prop :=
  ∃ q, align ∣ q ∧ b + usedHeaderSize ≤ q ∧ q + len ≤ b + s.get b .next

/-- `b` has room for `xlen` bytes above its lead. -/
def Roomy (s : Arena) (xlen align b : ℕ) : Prop := lead align b + xlen ≤ s.get b .next

/-- The blocks the scan accepts when it has found none yet. -/
def Fits (s : Arena) (xlen align b : ℕ) : Prop :=
  xlen ≤ s.get b .next ∧ (AlignedAt align b ∨ Roomy s xlen align b)

/-- The blocks `c` the scan prefers to an earlier `b`: those with room above their lead,
whatever their size, and the aligned ones that are smaller. -/
def Supersedes (s : Arena) (xlen align c b : ℕ) : Prop :=
  Roomy s xlen align c ∨
    (AlignedAt align c ∧ xlen ≤ s.get c .next ∧ s.get c .next < s.get b .next)

instance (align b : ℕ) : Decidable (AlignedAt align b) := inferInstanceAs (Decidable (_ = _))

instance (s : Arena) (xlen align b : ℕ) : Decidable (Roomy s xlen align b) :=
  inferInstanceAs (Decidable (_ ≤ _))

instance (s : Arena) (xlen align b : ℕ) : Decidable (Fits s xlen align b) :=
  inferInstanceAs (Decidable (_ ∧ _))

instance (s : Arena) (xlen align c b : ℕ) : Decidable (Supersedes s xlen align c b) :=
  inferInstanceAs (Decidable (_ ∨ _))

section Lead
variable {align b k p : ℕ}

theorem lead_pos (ha : 0 < align) : 0 < lead align b := by
  have := Nat.mod_lt (b + usedHeaderSize) ha
  unfold lead
  omega

theorem lead_le (align b : ℕ) : lead align b ≤ align := Nat.sub_le _ _

/-- Above the lead the payload is aligned. -/
theorem dvd_lead (ha : 0 < align) : align ∣ b + lead align b + usedHeaderSize := by
  have hlt := Nat.mod_lt (b + usedHeaderSize) ha
  have hsplit := Nat.div_add_mod (b + usedHeaderSize) align
  refine ⟨(b + usedHeaderSize) / align + 1, ?_⟩
  rw [Nat.mul_add, Nat.mul_one]
  unfold lead
  omega

/-- No aligned address lies strictly inside the lead. -/
theorem lead_least {q : ℕ} (hq : align ∣ q) (hlt : b + usedHeaderSize < q) (ha : 0 < align) :
    b + usedHeaderSize + lead align b ≤ q ∨ AlignedAt align b := by
  obtain ⟨e, rfl⟩ := hq
  have hsplit := Nat.div_add_mod (b + usedHeaderSize) align
  have hmod := Nat.mod_lt (b + usedHeaderSize) ha
  have he : (b + usedHeaderSize) / align < e := by
    rw [Nat.div_lt_iff_lt_mul ha, Nat.mul_comm]
    exact hlt
  have hmul := Nat.mul_le_mul_left align (Nat.succ_le_of_lt he)
  rw [Nat.mul_succ] at hmul
  left
  unfold lead
  omega

theorem hasAligned_iff {s : Arena} {len : ℕ} (ha : 0 < align) :
    HasAligned s len align b ↔ Fits s (len + usedHeaderSize) align b := by
  constructor
  · rintro ⟨q, hq, hlow, hhigh⟩
    refine ⟨by omega, ?_⟩
    rcases Nat.eq_or_lt_of_le hlow with rfl | hlt
    · exact .inl (Nat.mod_eq_zero_of_dvd hq)
    · rcases lead_least hq hlt ha with hle | hal
      · right
        unfold Roomy
        omega
      · exact .inl hal
  · rintro ⟨hfit, hal | hroom⟩
    · exact ⟨b + usedHeaderSize, Nat.dvd_of_mod_eq_zero hal, le_rfl, by omega⟩
    · refine ⟨b + lead align b + usedHeaderSize, dvd_lead ha, by omega, ?_⟩
      unfold Roomy at hroom
      omega

theorem getAlign_eq (hk : 2 ^ k < u64) : getAlign p (2 ^ k) = p % 2 ^ k := by
  have hpos : 0 < 2 ^ k := Nat.two_pow_pos k
  rw [getAlign, sub64_eq hpos hk, Nat.and_two_pow_sub_one_eq_mod]

theorem sub64_align (hk : 2 ^ k < u64) :
    sub64 (2 ^ k) ((b + usedHeaderSize) % 2 ^ k) = lead (2 ^ k) b :=
  sub64_eq (Nat.mod_lt _ (Nat.two_pow_pos k)).le hk

end Lead

/-- What the scan of `aligned_alloc` has found below `curr`. -/
structure AlignedBelow (s : Arena) (F : Finset ℕ) (xlen align curr best : ℕ) : Prop where
  found : (best = 0 ∧ ∀ c ∈ F, c < curr → ¬ Fits s xlen align c) ∨
    (best ∈ F ∧ best < curr ∧ Fits s xlen align best)
  last : ∀ c ∈ F, best < c → c < curr → best ≠ 0 → ¬ Supersedes s xlen align c best
  passed : ∀ c ∈ F, c < curr → Roomy s xlen align c →
    best = c ∨ ∃ d ∈ F, c < d ∧ d < curr ∧ Supersedes s xlen align d c

/-- The state and the pointer once the scan has chosen `b`. -/
def takeAligned (s : Arena) (b xlen align : ℕ) : ℕ × Arena :=
  if AlignedAt align b then (blockPtr b, useBlock (cutTail s b xlen) b)
  else
    let r := (split s b (lead align b)).next b
    (blockPtr r, useBlock (cutTail (split s b (lead align b)) r xlen) r)

namespace Shape
variable {s : Arena} {B F : Finset ℕ} {b curr best xlen k : ℕ}

theorem blockPtr_eq (h : Shape s B F) (hb : b ∈ B) : blockPtr b = b + usedHeaderSize := by
  have hhdr : usedHeaderSize = 12 ∧ unusedHeaderSize = 20 := ⟨rfl, rfl⟩
  have hle := h.next_le hb
  have hroom := h.room b hb
  exact add64_eq (lt_of_le_of_lt (by omega) h.space)

/-- The choice the scan makes at one block. -/
theorem alignedFit_pick (h : Shape s B F) (hc : curr ∈ B) (hmax : xlen + 2 ^ k < u64) :
    (if xlen ≤ s.get curr .next then
      if getAlign (blockPtr curr) (2 ^ k) = 0 ∧ (best = 0 ∨ s.get curr .next < s.get best .next)
      then curr
      else if add64 (sub64 (2 ^ k) (getAlign (blockPtr curr) (2 ^ k))) xlen ≤ s.get curr .next
      then curr else best
    else best) =
    if (best = 0 ∧ Fits s xlen (2 ^ k) curr) ∨ (best ≠ 0 ∧ Supersedes s xlen (2 ^ k) curr best)
    then curr else best := by
  have hk : 2 ^ k < u64 := by omega
  have hlead := lead_le (2 ^ k) curr
  rw [h.blockPtr_eq hc, getAlign_eq hk, sub64_align hk, add64_eq (by omega)]
  unfold Fits Supersedes Roomy AlignedAt
  split_ifs <;> first | rfl | omega

/-- One round of the scan. -/
theorem alignedBelow_step (h : Shape s B F) (hpos : 0 < s.base) (hc : curr ∈ F)
    (hbest : AlignedBelow s F xlen (2 ^ k) curr best) :
    AlignedBelow s F xlen (2 ^ k) (curr + s.get curr .nextFree)
      (if (best = 0 ∧ Fits s xlen (2 ^ k) curr) ∨
        (best ≠ 0 ∧ Supersedes s xlen (2 ^ k) curr best) then curr else best) := by
  obtain ⟨hgap, _⟩ := h.frees.next curr hc
  have hlt := fun c (hcF : c ∈ F) => h.le_of_lt_nextFree hc hcF
  have hcurr : curr ≠ 0 := (h.pos_of_mem hpos (h.sub hc)).ne'
  have hfits : ∀ c, Supersedes s xlen (2 ^ k) curr c → Fits s xlen (2 ^ k) curr := by
    rintro c (hroom | ⟨hal, hfit, _⟩)
    · refine ⟨?_, .inr hroom⟩
      unfold Roomy at hroom
      omega
    · exact ⟨hfit, .inl hal⟩
  split_ifs with htake
  · refine ⟨.inr ⟨hc, hgap.1, ?_⟩, ?_, ?_⟩
    · rcases htake with ⟨_, hfit⟩ | ⟨_, hsup⟩
      · exact hfit
      · exact hfits best hsup
    · intro c hcF hcl hch
      have := hlt c hcF hch
      omega
    · intro c hcF hcl hroom
      rcases hlt c hcF hcl with hcc | rfl
      · right
        rcases hbest.passed c hcF hcc hroom with rfl | ⟨d, hd, hcd, hdc, hsup⟩
        · have hc0 : best ≠ 0 := (h.pos_of_mem hpos (h.sub hcF)).ne'
          exact ⟨curr, hc, hcc, hgap.1, (htake.resolve_left fun hz => hc0 hz.1).2⟩
        · exact ⟨d, hd, hcd, hdc.trans hgap.1, hsup⟩
      · exact .inl rfl
  · rw [not_or, not_and, not_and] at htake
    refine ⟨?_, ?_, ?_⟩
    · rcases hbest.found with ⟨rfl, hnone⟩ | ⟨hbF, hbl, hfit⟩
      · refine .inl ⟨rfl, ?_⟩
        intro c hcF hcl
        rcases hlt c hcF hcl with hcc | rfl
        · exact hnone c hcF hcc
        · exact htake.1 rfl
      · exact .inr ⟨hbF, hbl.trans hgap.1, hfit⟩
    · intro c hcF hbc hcl hb0
      rcases hlt c hcF hcl with hcc | rfl
      · exact hbest.last c hcF hbc hcc hb0
      · exact htake.2 hb0
    · intro c hcF hcl hroom
      rcases hlt c hcF hcl with hcc | rfl
      · rcases hbest.passed c hcF hcc hroom with he | ⟨d, hd, hcd, hdc, hsup⟩
        · exact .inl he
        · exact .inr ⟨d, hd, hcd, hdc.trans hgap.1, hsup⟩
      · -- a block with room is taken, whether or not one has been found before
        by_cases hb0 : best = 0
        · exact absurd (hfits 0 (.inl hroom)) (htake.1 hb0)
        · exact absurd (.inl hroom) (htake.2 hb0)

/-- The scan ends, and has seen the whole list. -/
theorem alignedFit (h : Shape s B F) (hpos : 0 < s.base) (hmax : xlen + 2 ^ k < u64) {fuel : ℕ}
    (hc : curr ∈ F ∨ curr = s.endAddr) (hfuel : s.endAddr < curr + fuel)
    (hbest : AlignedBelow s F xlen (2 ^ k) curr best) :
    ∃ best', alignedFit s xlen (2 ^ k) fuel curr best = .ok best' ∧
      AlignedBelow s F xlen (2 ^ k) s.endAddr best' := by
  refine h.scan (fun _ _ _ => rfl) ?_ hc hfuel hbest
  intro curr hcF best hbest
  rw [h.alignedFit_pick (h.sub hcF) hmax]
  exact h.alignedBelow_step hpos hcF hbest

/-- The run of `aligned_alloc`. -/
theorem alignedAlloc_eq (h : Shape s B F) (hpos : 0 < s.base) {len : ℕ}
    (hmax : len + usedHeaderSize + 2 ^ k < u64) :
    ∃ best, AlignedBelow s F (len + usedHeaderSize) (2 ^ k) s.endAddr best ∧
      alignedAlloc s len (2 ^ k) =
        .ok (if best = 0 then (0, s) else takeAligned s best (len + usedHeaderSize) (2 ^ k)) := by
  have hspace := h.space
  have hk : 2 ^ k < u64 := by omega
  have hx : (len + usedHeaderSize) % u64 = len + usedHeaderSize :=
    Nat.mod_eq_of_lt (lt_of_le_of_lt (Nat.le_add_right _ _) hmax)
  have hnone : ∀ c ∈ F, ¬ c < s.free := fun c hc => Nat.not_lt.mpr (h.lowest c hc)
  have hstart : AlignedBelow s F (len + usedHeaderSize) (2 ^ k) s.free 0 :=
    ⟨.inl ⟨rfl, fun c hc hlt => absurd hlt (hnone c hc)⟩,
      fun c hc _ hlt => absurd hlt (hnone c hc), fun c hc hlt => absurd hlt (hnone c hc)⟩
  obtain ⟨best, hscan, hbest⟩ :=
    h.alignedFit hpos hmax h.head (show s.endAddr < s.free + u64 by omega) hstart
  refine ⟨best, hbest, ?_⟩
  rw [Alloc.alignedAlloc, hx, hscan, ok_bind]
  by_cases hb0 : best = 0
  · rw [if_pos hb0, if_pos hb0]
    rfl
  · have hbB : best ∈ B := by
      rcases hbest.found with ⟨he, _⟩ | ⟨hbF, _⟩
      · exact absurd he hb0
      · exact h.sub hbF
    rw [if_neg hb0, if_neg hb0, h.blockPtr_eq hbB, getAlign_eq hk]
    dsimp only
    rw [sub64_align hk]
    unfold takeAligned AlignedAt
    by_cases hal : (best + usedHeaderSize) % 2 ^ k = 0
    · simp only [hal, if_true, ne_eq, not_true, if_false, h.blockPtr_eq hbB]
      rfl
    · simp only [hal, if_false, ne_eq, not_false_eq_true, if_true]
      rfl

end Shape

/-- The heap after a request has been served with the block `r`, out of the unused block `b`. -/
structure AlignedTaken (h h' : Layout) (len align b r : ℕ) : Prop where
  base : h'.arena.base = h.arena.base
  endAddr : h'.arena.endAddr = h.arena.endAddr
  aligned : align ∣ r + usedHeaderSize
  taken : r ∈ h'.blocks ∧ r ∉ h'.unused
  room : len + usedHeaderSize ≤ h'.arena.get r .next
  inside : b ≤ r ∧ r + h'.arena.get r .next ≤ b + h.arena.get b .next
  leading : b < r → b ∈ h'.unused ∧ b + h'.arena.get b .next = r
  trailing : ∀ t, r + h'.arena.get r .next = t → t < b + h.arena.get b .next →
    t ∈ h'.unused ∧ t + h'.arena.get t .next = b + h.arena.get b .next
  others : ∀ c ∈ h.blocks, c ≠ b → c ∈ h'.blocks ∧ (c ∈ h'.unused ↔ c ∈ h.unused) ∧
    h'.arena.get c .next = h.arena.get c .next
  payload : ∀ c ∈ h.blocks, c ∉ h.unused → ∀ x, c + usedHeaderSize ≤ x →
    x < c + h.arena.get c .next → h'.arena.mem x = h.arena.mem x

/-- `aligned_alloc` does what it is for. -/
def AlignedOk (h : Layout) (len align : ℕ) : Prop :=
  ∃ p s', alignedAlloc h.arena len align = .ok (p, s') ∧
    (p = 0 ↔ ∀ b ∈ h.unused, ¬ HasAligned h.arena len align b) ∧
    (p = 0 → s' = h.arena) ∧
    (p ≠ 0 → ∃ b ∈ h.unused, ∃ r, p = r + usedHeaderSize ∧
      ∃ h' : Layout, h'.arena = s' ∧ AlignedTaken h h' len align b r)

/-- The heap once `r` is the beginning of an unused block inside the unused block `b`, or `b`
itself. -/
structure Carved (h h' : Layout) (b r : ℕ) : Prop where
  base : h'.arena.base = h.arena.base
  endAddr : h'.arena.endAddr = h.arena.endAddr
  blocks : h'.blocks = insert r h.blocks
  unused : h'.unused = insert r h.unused
  new : r = b ∨ r ∉ h.blocks
  low : b ≤ r
  leading : b < r → b + h'.arena.get b .next = r
  rest : r + h'.arena.get r .next = b + h.arena.get b .next
  others : ∀ c ∈ h.blocks, c ≠ b → h'.arena.get c .next = h.arena.get c .next
  payload : ∀ c ∈ h.blocks, c ∉ h.unused → ∀ x, c + usedHeaderSize ≤ x →
    x < c + h.arena.get c .next → h'.arena.mem x = h.arena.mem x

namespace Layout
variable {h : Layout} {b : ℕ}

theorem carved_self (hb : b ∈ h.unused) : Carved h h b b where
  base := rfl
  endAddr := rfl
  blocks := (Finset.insert_eq_of_mem (h.shape.sub hb)).symm
  unused := (Finset.insert_eq_of_mem hb).symm
  new := .inl rfl
  low := le_rfl
  leading hlt := absurd hlt (lt_irrefl b)
  rest := rfl
  others _ _ _ := rfl
  payload _ _ _ _ _ _ := rfl

/-- Splitting a beginning off that has room for its own header. -/
theorem carve (h : Layout) {size : ℕ} (hb : b ∈ h.unused) (hsize : unusedHeaderSize ≤ size)
    (hrest : size + unusedHeaderSize ≤ h.arena.get b .next) :
    ∃ h' : Layout, h'.arena = split h.arena b size ∧ Carved h h' b (b + size) := by
  have hhdr : unusedHeaderSize = 20 := rfl
  have hB := h.shape.sub hb
  obtain ⟨hs, hnext, hr⟩ := h.shape.split hb rfl hsize hrest
  have hnew : b + size ∉ h.blocks := by
    intro hmem
    have := h.shape.le_of_lt hB (Shape.mem_headers hmem) (by omega)
    omega
  have hreal : 0 < (split h.arena b size).base := by
    rw [split_base]
    exact h.real
  obtain ⟨h', harena, hblocks, hunused⟩ := hs.layout hreal
  refine ⟨h', harena, ?_, ?_, hblocks, hunused, .inr hnew, Nat.le_add_right b size, ?_, ?_, ?_, ?_⟩
  · rw [harena, split_base]
  · rw [harena, split_endAddr]
  · intro _
    rw [harena, hnext b hB, if_pos rfl]
  · rw [harena, hr]
    omega
  · intro c hc hcb
    rw [harena, hnext c hc, if_neg hcb]
  · intro c hc hcF x hcx hxc
    rw [harena]
    exact (h.shape.split_keeps hb rfl hsize hrest (.inr (.inr ⟨c, hc, hcF, hcx, hxc⟩))).1

end Layout

/-- A block that has been carved out of `b` and is then given out. -/
theorem Carved.taken {h h₁ h₂ : Layout} {b r len align : ℕ} (hcar : Carved h h₁ b r)
    (hb : b ∈ h.unused) (hall : Allocated h₁ h₂ r (len + usedHeaderSize))
    (hfit : len + usedHeaderSize ≤ h₁.arena.get r .next) (hdvd : align ∣ r + usedHeaderSize) :
    AlignedTaken h h₂ len align b r := by
  have hrB : r ∈ h₁.blocks := hcar.blocks ▸ Finset.mem_insert_self r _
  have hin : ∀ c ∈ h.blocks, c ∈ h₁.blocks := fun c hc => hcar.blocks ▸ Finset.mem_insert_of_mem hc
  have hrest := hcar.rest
  have hsize := hall.size
  have hne : ∀ c ∈ h.blocks, c ≠ b → c ≠ r := by
    rintro c hc hcb rfl
    rcases hcar.new with he | hnew
    · exact hcb he
    · exact hnew hc
  have hkept : ∀ c ∈ h₁.unused, c ≠ r → c ∈ h₂.unused := by
    intro c hc hcr
    rw [hall.unused]
    exact Finset.mem_erase.mpr ⟨hcr, Shape.subset_blocksAfter _ _ _ _ hc⟩
  have hsame : ∀ c ∈ h.blocks, c ≠ b → (c ∈ h₂.unused ↔ c ∈ h.unused) := by
    intro c hc hcb
    have hflag := (hall.others c (hin c hc) (hne c hc hcb)).2
    have hin₂ : c ∈ h₂.blocks := by
      rw [hall.blocks]
      exact Shape.subset_blocksAfter _ _ _ _ (hin c hc)
    rw [h₂.shape.used c hin₂, h₁.shape.used c (hin c hc)] at hflag
    have hmem : c ∈ h₁.unused ↔ c ∈ h.unused := by
      rw [hcar.unused, Finset.mem_insert, or_iff_right (hne c hc hcb)]
    rw [← hmem]
    split_ifs at hflag <;> simp_all
  refine ⟨hall.base.trans hcar.base, hall.endAddr.trans hcar.endAddr, hdvd, ⟨?_, ?_⟩, ?_,
    ⟨hcar.low, ?_⟩, ?_, ?_, ?_, ?_⟩
  · rw [hall.blocks]
    exact Shape.subset_blocksAfter _ _ _ _ hrB
  · rw [hall.unused]
    exact Finset.notMem_erase r _
  · split_ifs at hsize <;> omega
  · split_ifs at hsize with hcut
    · unfold Cuts at hcut
      omega
    · omega
  · intro hlt
    have hbr : b ≠ r := hlt.ne
    refine ⟨hkept b (hcar.unused ▸ Finset.mem_insert_of_mem hb) hbr, ?_⟩
    rw [(hall.others b (hin b (h.shape.sub hb)) hbr).1]
    exact hcar.leading hlt
  · rintro t rfl hlt
    have hcut : Cuts h₁.arena r (len + usedHeaderSize) := by
      by_contra hno
      rw [if_neg hno] at hsize
      omega
    rw [if_pos hcut] at hsize
    obtain ⟨_, hnext⟩ := hall.rest hcut
    have hhdr : usedHeaderSize = 12 := rfl
    rw [hsize, hnext]
    refine ⟨?_, by omega⟩
    rw [hall.unused, blocksAfter, if_pos hcut]
    exact Finset.mem_erase.mpr ⟨by omega, Finset.mem_insert_self _ _⟩
  · intro c hc hcb
    refine ⟨?_, hsame c hc hcb, ?_⟩
    · rw [hall.blocks]
      exact Shape.subset_blocksAfter _ _ _ _ (hin c hc)
    · rw [(hall.others c (hin c hc) (hne c hc hcb)).1, hcar.others c hc hcb]
  · intro c hc hcF x hcx hxc
    have hcb : c ≠ b := fun he => hcF (he ▸ hb)
    have hcF₁ : c ∉ h₁.unused := by
      rw [hcar.unused, Finset.mem_insert, not_or]
      exact ⟨hne c hc hcb, hcF⟩
    rw [hall.payload c (hin c hc) hcF₁ x hcx (by rw [hcar.others c hc hcb]; exact hxc)]
    exact hcar.payload c hc hcF x hcx hxc

/-- The scan ends at `b`, whose beginning has to come off and is too short for a header. -/
structure Cramped (s : Arena) (F : Finset ℕ) (xlen align b : ℕ) : Prop where
  mem : b ∈ F
  unaligned : ¬ AlignedAt align b
  narrow : lead align b < unusedHeaderSize
  roomy : Roomy s xlen align b
  final : ∀ c ∈ F, b < c → ¬ Supersedes s xlen align c b

/-- The heap after `aligned_alloc` has chosen a block that is not cramped. -/
theorem Layout.takeAligned (h : Layout) {b len k : ℕ} (hb : b ∈ h.unused) (hlen : 8 ≤ len)
    (hfit : Fits h.arena (len + usedHeaderSize) (2 ^ k) b)
    (hwide : AlignedAt (2 ^ k) b ∨ unusedHeaderSize ≤ lead (2 ^ k) b) :
    ∃ r, (takeAligned h.arena b (len + usedHeaderSize) (2 ^ k)).1 = r + usedHeaderSize ∧
      ∃ h' : Layout, h'.arena = (Alloc.takeAligned h.arena b (len + usedHeaderSize) (2 ^ k)).2 ∧
        AlignedTaken h h' len (2 ^ k) b r := by
  have hhdr : usedHeaderSize = 12 ∧ unusedHeaderSize = 20 := ⟨rfl, rfl⟩
  have hx : unusedHeaderSize ≤ len + usedHeaderSize := by omega
  have hB := h.shape.sub hb
  unfold Alloc.takeAligned
  by_cases hal : AlignedAt (2 ^ k) b
  · rw [if_pos hal]
    obtain ⟨h', harena, hall⟩ := h.take hb hx hfit.1
    exact ⟨b, h.shape.blockPtr_eq hB, h', harena,
      (Layout.carved_self hb).taken hb hall hfit.1 (Nat.dvd_of_mod_eq_zero hal)⟩
  · rw [if_neg hal]
    have hroom := hfit.2.resolve_left hal
    have hlead := hwide.resolve_left hal
    unfold Roomy at hroom
    obtain ⟨h₁, harena₁, hcar⟩ := h.carve hb hlead (by omega)
    obtain ⟨r, hr⟩ : ∃ r, b + lead (2 ^ k) b = r := ⟨_, rfl⟩
    rw [hr] at hcar
    have hr₁ : r ∈ h₁.unused := hcar.unused ▸ Finset.mem_insert_self r _
    have hnext : (split h.arena b (lead (2 ^ k) b)).next b = r := by
      rw [← harena₁, h₁.shape.next_eq (hcar.blocks ▸ Finset.mem_insert_of_mem hB)]
      exact hcar.leading (by omega)
    have hfit₁ : len + usedHeaderSize ≤ h₁.arena.get r .next := by
      have := hcar.rest
      omega
    obtain ⟨h', harena, hall⟩ := h₁.take hr₁ hx hfit₁
    rw [harena₁] at harena
    refine ⟨r, ?_, h', ?_, hcar.taken hb hall hfit₁ (hr ▸ dvd_lead (Nat.two_pow_pos k))⟩
    · simp only [hnext]
      exact h₁.shape.blockPtr_eq (h₁.shape.sub hr₁)
    · simp only [hnext]
      exact harena

theorem alignedOk_of_wide (h : Layout) {len k : ℕ} (hlen : 8 ≤ len)
    (hmax : len + usedHeaderSize + 2 ^ k < u64)
    (hwide : ∀ b, ¬ Cramped h.arena h.unused (len + usedHeaderSize) (2 ^ k) b) :
    AlignedOk h len (2 ^ k) := by
  have hpow : 0 < 2 ^ k := Nat.two_pow_pos k
  obtain ⟨best, hbest, hrun⟩ := h.shape.alignedAlloc_eq h.real hmax
  rcases hbest.found with ⟨rfl, hnone⟩ | ⟨hb, _, hfit⟩
  · rw [if_pos rfl] at hrun
    refine ⟨0, h.arena, hrun, iff_of_true rfl ?_, fun _ => rfl, fun hp => absurd rfl hp⟩
    intro b hb
    rw [hasAligned_iff hpow]
    exact hnone b hb (h.shape.frees.lt b hb)
  · have hb0 : best ≠ 0 := (h.shape.pos_of_mem h.real (h.shape.sub hb)).ne'
    rw [if_neg hb0] at hrun
    have hcase : AlignedAt (2 ^ k) best ∨ unusedHeaderSize ≤ lead (2 ^ k) best := by
      by_contra hno
      rw [not_or, Nat.not_le] at hno
      refine hwide best ⟨hb, hno.1, hno.2, hfit.2.resolve_left hno.1, ?_⟩
      intro c hc hbc
      exact hbest.last c hc hbc (h.shape.frees.lt c hc) hb0
    obtain ⟨r, hp, h', harena, htaken⟩ := h.takeAligned hb hlen hfit hcase
    have hp0 : (takeAligned h.arena best (len + usedHeaderSize) (2 ^ k)).1 ≠ 0 := by
      rw [hp]
      exact Nat.succ_ne_zero _
    refine ⟨_, _, hrun, iff_of_false hp0 ?_, fun hz => absurd hz hp0,
      fun _ => ⟨best, hb, r, hp, h', harena, htaken⟩⟩
    intro hnone
    exact hnone best hb ((hasAligned_iff hpow).mpr hfit)

section Narrow
variable {s : Arena} {b g x : ℕ}

/-- An address a 32-bit distance above a block lies above it, or has wrapped around to far
below it. -/
theorem add64_far (hb : b + g < u64) (hg : g < unusedHeaderSize) (hx : x < u32) :
    add64 (b + g) x = b + g + x ∨ add64 (b + g) x + unusedHeaderSize ≤ b := by
  have hu : u64 = 2 ^ 64 ∧ u32 = 2 ^ 32 := ⟨rfl, rfl⟩
  have hhdr : unusedHeaderSize = 20 := rfl
  rw [hu.1] at hb
  rw [hu.2] at hx
  rw [add64, hu.1]
  omega

/-- Less than a word apart, the link back of the upper block is written over the size of the
lower one and clears it, and the low byte of the upper block's size is zero. -/
theorem prev_over_next (s : Arena) (b : ℕ) (hg : 0 < g) (hsmall : g < 4) :
    ((s.set b .next g).set (b + g) .prev g).get b .next = 0 ∧
      ((s.set b .next g).set (b + g) .prev g).get (b + g) .next % 256 = 0 := by
  have hzero : ∀ i, 0 < i → g / 2 ^ (8 * i) % 2 ^ 8 = 0 := by
    intro i hi
    have hpow : 2 ^ 8 ≤ 2 ^ (8 * i) := Nat.pow_le_pow_right (by decide) (by omega)
    rw [Nat.div_eq_of_lt (by omega), Nat.zero_mod]
  have hover : ∀ i < 4, 0 < i →
      ((((s.set b .next g).set (b + g) .prev g).mem) (b + g + i)).toNat = 0 := by
    intro i hi hpos
    exact (ByteStore.wr32_byte hi).trans (hzero i hpos)
  have hbelow : ∀ i < 4, 0 < i → g ≤ i →
      ((((s.set b .next g).set (b + g) .prev g).mem) (b + 4 + i)).toNat = 0 := by
    intro i hi hpos hgi
    have hout : b + g + 4 ≤ b + 4 + i := by omega
    have hkept := ByteStore.wr32_of_outside (m := (s.set b .next g).mem) (v := g) (.inr hout)
    exact (congrArg UInt8.toNat hkept).trans ((ByteStore.wr32_byte hi).trans (hzero i hpos))
  have hbyte : ∀ i < 4, ((((s.set b .next g).set (b + g) .prev g).mem) (b + 4 + i)).toNat = 0 := by
    intro i hi
    by_cases hgi : g ≤ i
    · exact hbelow i hi (by omega) hgi
    · have hcell := hover (4 + i - g) (by omega) (by omega)
      rw [show b + g + (4 + i - g) = b + 4 + i by omega] at hcell
      exact hcell
  constructor
  · have h₀ := hbyte 0 (by decide)
    have h₁ := hbyte 1 (by decide)
    have h₂ := hbyte 2 (by decide)
    have h₃ := hbyte 3 (by decide)
    change ByteStore.rd32 _ (b + 4) = 0
    rw [ByteStore.rd32, h₁, h₂, h₃]
    exact h₀
  · have hlow := hbelow g hsmall hg le_rfl
    rw [show b + 4 + g = b + g + 4 by omega] at hlow
    change ByteStore.rd32 _ (b + g + 4) % 256 = 0
    rw [ByteStore.rd32, hlow]
    omega

/-- The sizes and the link between the two blocks, as `split` writes them first. -/
def splitSizes (s : Arena) (b g : ℕ) : Arena :=
  ((s.set (b + g) .next (sub32 (s.get b .next) g)).set b .next g).set (b + g) .prev g

/-- The free links and the flag that `split` writes next. -/
def splitLinks (s : Arena) (b g : ℕ) : Arena :=
  let s := s.set (b + g) .nextFree (sub32 (s.get b .nextFree) g)
  let s := s.set b .nextFree (s.get b .next)
  let s := s.set (b + g) .prevFree (s.get (b + g) .prev)
  s.set (b + g) .used 0

/-- The two writes to the neighbours, with which `split` ends. -/
def splitNeighbours (s : Arena) (b g : ℕ) : Arena :=
  let n := s.next (b + g)
  let s := s.setBlock n .prev (sub32 (s.get n .prev) g)
  let n := s.nfree (b + g)
  s.setBlock n .prevFree (sub32 (s.get n .prevFree) g)

theorem split_phases (hb : b + g < u64) (hg : g < u32) :
    split s b g = splitNeighbours (splitLinks (splitSizes s b g) b g) b g := by
  have hmod : g % u32 = g := Nat.mod_eq_of_lt hg
  have hr : add64 b g = b + g := add64_eq hb
  unfold split
  simp only [hmod, hr]
  rfl

/-- The free links lie above the words that the two sizes and the link between them take. -/
theorem splitLinks_get {c : ℕ} {j : Field} (h₁ : c + j.offset + 4 ≤ b + 12)
    (h₂ : c + j.offset + 4 ≤ b + g + 8) : (splitLinks s b g).get c j = s.get c j := by
  have hoff : Field.used.offset = 8 ∧ Field.nextFree.offset = 12 ∧ Field.prevFree.offset = 16 :=
    ⟨rfl, rfl, rfl⟩
  unfold splitLinks
  rw [Arena.get_set_far (by omega), Arena.get_set_far (by omega), Arena.get_set_far (by omega),
    Arena.get_set_far (by omega)]

/-- The neighbours' headers do not reach the size of `b`, if the next block is found at a
distance. -/
theorem splitNeighbours_get (hb : b + g < u64) (hg : g < unusedHeaderSize)
    (hn : 8 ≤ g + s.get (b + g) .next) : (splitNeighbours s b g).get b .next = s.get b .next := by
  have hoff : Field.next.offset = 4 ∧ Field.prev.offset = 0 ∧ Field.prevFree.offset = 16 :=
    ⟨rfl, rfl, rfl⟩
  have hhdr : unusedHeaderSize = 20 := rfl
  have hfar : ∀ t : Arena, ∀ j : Field, add64 (b + g) (t.get (b + g) j) =
      b + g + t.get (b + g) j ∨ add64 (b + g) (t.get (b + g) j) + unusedHeaderSize ≤ b :=
    fun t j => add64_far hb hg (t.get_lt _ _)
  unfold splitNeighbours
  rw [Arena.get_setBlock_far, Arena.get_setBlock_far]
  · have := hfar s .next
    unfold Arena.next
    omega
  · have := hfar (s.setBlock (s.next (b + g)) .prev (sub32 (s.get (s.next (b + g)) .prev) g))
      .nextFree
    unfold Arena.nfree
    omega

/-- With its size gone the new block finds itself above, and clears the word once more. -/
theorem splitNeighbours_self (hb : b + g < u64) (hg : g < unusedHeaderSize)
    (hnext : s.get (b + g) .next = 0) (hprev : s.get (b + g) .prev = g)
    (hzero : s.get b .next = 0) : (splitNeighbours s b g).get b .next = 0 := by
  have hoff : Field.next.offset = 4 ∧ Field.prevFree.offset = 16 := ⟨rfl, rfl⟩
  have hhdr : unusedHeaderSize = 20 := rfl
  have hu : 20 < u32 := by decide
  have hn : s.next (b + g) = b + g := by
    rw [Arena.next, hnext]
    exact Nat.mod_eq_of_lt hb
  have hsub : sub32 g g = 0 := by
    rw [sub32_eq le_rfl (by omega), Nat.sub_self]
  unfold splitNeighbours
  simp only [hn, hprev, hsub]
  rw [Arena.get_setBlock_far]
  · unfold Arena.setBlock
    split_ifs
    · exact ByteStore.rd32_wr32_zero hzero
    · exact hzero
  · have := add64_far hb hg ((s.setBlock (b + g) .prev 0).get_lt (b + g) .nextFree)
    unfold Arena.nfree
    omega

/-- The size that the lower block has after a split too close to its beginning. Between the
fifth and the seventh byte the words overlap so that it is larger than the distance. -/
theorem split_narrow (hb : b + g < u64) (hpos : 0 < g) (hg : g < unusedHeaderSize)
    (hodd : g < 5 ∨ 8 ≤ g) (hsize : 8 ≤ s.get b .next) :
    (split s b g).get b .next = if g < 4 then 0 else g := by
  have hhdr : unusedHeaderSize = 20 := rfl
  have hoff : Field.next.offset = 4 ∧ Field.prev.offset = 0 := ⟨rfl, rfl⟩
  have hu : 20 < u32 := by decide
  have hmod : g % u32 = g := Nat.mod_eq_of_lt (by omega)
  have hkeep : (splitLinks (splitSizes s b g) b g).get b .next = (splitSizes s b g).get b .next :=
    splitLinks_get (by omega) (by omega)
  rw [split_phases hb (by omega)]
  by_cases hsmall : g < 4
  · obtain ⟨hzero, hlow⟩ :=
      prev_over_next (s.set (b + g) .next (sub32 (s.get b .next) g)) b hpos hsmall
    change (splitSizes s b g).get b .next = 0 at hzero
    change (splitSizes s b g).get (b + g) .next % 256 = 0 at hlow
    have hnext : (splitLinks (splitSizes s b g) b g).get (b + g) .next =
        (splitSizes s b g).get (b + g) .next := splitLinks_get (by omega) (by omega)
    have hprev : (splitLinks (splitSizes s b g) b g).get (b + g) .prev = g := by
      rw [splitLinks_get (by omega) (by omega), splitSizes, Arena.get_set_same, hmod]
    rw [if_pos hsmall]
    by_cases hself : (splitSizes s b g).get (b + g) .next = 0
    · exact splitNeighbours_self hb hg (hnext.trans hself) hprev (hkeep.trans hzero)
    · rw [splitNeighbours_get hb hg (by omega), hkeep, hzero]
  · rw [if_neg hsmall]
    rcases Nat.eq_or_lt_of_le (Nat.le_of_not_lt hsmall) with rfl | hlt
    · -- the link back is the same word as the size, and has the same value
      have hnext : (splitLinks (splitSizes s b 4) b 4).get (b + 4) .next = s.get b .next - 4 := by
        rw [splitLinks_get (by omega) (by omega), splitSizes, Arena.get_set_far (by omega),
          Arena.get_set_far (by omega), Arena.get_set_same, sub32_mod,
          sub32_eq (by omega) (s.get_lt _ _)]
      rw [splitNeighbours_get hb hg (by omega), hkeep]
      exact (ByteStore.rd32_wr32_same _ _ _).trans hmod
    · rw [splitNeighbours_get hb hg (by omega), hkeep, splitSizes, Arena.get_set_far (by omega),
        Arena.get_set_same, hmod]

end Narrow

/-- A block that is cramped is given out without its beginning, which is then no block. -/
theorem not_alignedOk_of_cramped (h : Layout) {b len k : ℕ}
    (hmax : len + usedHeaderSize + 2 ^ k < u64)
    (hc : Cramped h.arena h.unused (len + usedHeaderSize) (2 ^ k) b)
    (hodd : lead (2 ^ k) b < 5 ∨ 8 ≤ lead (2 ^ k) b) : ¬ AlignedOk h len (2 ^ k) := by
  have hhdr : usedHeaderSize = 12 ∧ unusedHeaderSize = 20 := ⟨rfl, rfl⟩
  have hb := hc.mem
  have hB := h.shape.sub hb
  have hspace := h.shape.space
  have hle := h.shape.next_le hB
  have hroom := hc.roomy
  have hpos := lead_pos (b := b) (Nat.two_pow_pos k)
  have hnarrow := hc.narrow
  unfold Roomy at hroom
  obtain ⟨best, hbest, hrun⟩ := h.shape.alignedAlloc_eq h.real hmax
  obtain rfl : best = b := by
    rcases hbest.passed b hb (h.shape.frees.lt b hb) hc.roomy with he | ⟨d, hd, hbd, _, hsup⟩
    · exact he
    · exact absurd hsup (hc.final d hd hbd)
  have hb0 : best ≠ 0 := (h.shape.pos_of_mem h.real hB).ne'
  have hlt : best + lead (2 ^ k) best < u64 := lt_of_le_of_lt (by omega) hspace
  have hnext := split_narrow (s := h.arena) hlt hpos hnarrow hodd (by
    have := h.shape.room best hB
    omega)
  rw [if_neg hb0, takeAligned, if_neg hc.unaligned] at hrun
  generalize split h.arena best (lead (2 ^ k) best) = s₁ at hrun hnext
  rintro ⟨p, s', hrun', _, _, htaken⟩
  rw [hrun] at hrun'
  cases hrun'
  unfold Arena.next at htaken
  rw [hnext] at htaken
  split_ifs at htaken with hsmall
  · have hp : blockPtr (add64 best 0) = best + usedHeaderSize := by
      rw [add64_eq (by omega), Nat.add_zero, h.shape.blockPtr_eq hB]
    rw [hp] at htaken
    obtain ⟨b', _, r, hr, h', _, htaken⟩ := htaken (Nat.succ_ne_zero _)
    obtain rfl : best = r := by omega
    exact hc.unaligned (Nat.mod_eq_zero_of_dvd htaken.aligned)
  · have hp : blockPtr (add64 best (lead (2 ^ k) best)) =
        best + lead (2 ^ k) best + usedHeaderSize := by
      rw [add64_eq hlt, blockPtr, add64_eq (lt_of_le_of_lt (by omega) hspace)]
    rw [hp] at htaken
    obtain ⟨b', hb', r, hr, h', _, htaken⟩ := htaken (Nat.succ_ne_zero _)
    obtain rfl : best + lead (2 ^ k) best = r := by omega
    obtain ⟨hlow, hhigh⟩ := htaken.inside
    -- the block it lies in can only be the one that was chosen
    obtain rfl : b' = best := by
      have h₁ := fun hlt => h.shape.le_of_lt (h.shape.sub hb') (Shape.mem_headers hB) hlt
      have h₂ := fun hlt => h.shape.le_of_lt hB (Shape.mem_headers (h.shape.sub hb')) hlt
      have h₃ := htaken.room
      omega
    obtain ⟨hmem, hend⟩ := htaken.leading (by omega)
    have := h'.shape.room b' (h'.shape.sub hmem)
    omega

/-- `aligned_alloc` is correct unless the block it ends at is cramped, and then it is not,
except perhaps for the three leads with which the block loses track of its own size. -/
theorem alignedAlloc_correct (h : Layout) {len k : ℕ} (hlen : 8 ≤ len)
    (hmax : len + usedHeaderSize + 2 ^ k < u64) :
    ((∀ b, ¬ Cramped h.arena h.unused (len + usedHeaderSize) (2 ^ k) b) →
      AlignedOk h len (2 ^ k)) ∧
    ∀ b, Cramped h.arena h.unused (len + usedHeaderSize) (2 ^ k) b →
      (lead (2 ^ k) b < 5 ∨ 8 ≤ lead (2 ^ k) b) → ¬ AlignedOk h len (2 ^ k) :=
  ⟨alignedOk_of_wide h hlen hmax, fun _ hc hodd => not_alignedOk_of_cramped h hmax hc hodd⟩

/-- No unused block of the hundred bytes is cramped when the payload is aligned to 64. -/
theorem hundredBytes_not_cramped (b : ℕ) :
    ¬ Cramped hundredBytes.arena hundredBytes.unused (8 + usedHeaderSize) (2 ^ 6) b := by
  intro hc
  obtain rfl : b = 0x1000 := Finset.mem_singleton.mp hc.mem
  exact absurd hc.narrow (by decide)

theorem alignedAlloc_correct_hundredBytes :
    8 ≤ 8 ∧ 8 + usedHeaderSize + 2 ^ 6 < u64 ∧ AlignedOk hundredBytes 8 (2 ^ 6) := by
  refine ⟨by decide, by decide, ?_⟩
  exact (alignedAlloc_correct hundredBytes (by decide) (by decide)).1 hundredBytes_not_cramped

/-- Two pages in one piece, whose payload begins sixteen bytes below a page boundary. -/
def sixteenShort : Layout :=
  onePiece (fun _ => 0) (show unusedHeaderSize ≤ 0x2000 by decide) (by decide)
    (show 0x1FE4 + 0x2000 < u64 by decide) (by decide)

/-- The request for a page table. -/
theorem sixteenShort_not_alignedOk : 8 ≤ 0x1000 ∧ 0x1000 + usedHeaderSize + 2 ^ 12 < u64 ∧
    ¬ AlignedOk sixteenShort 0x1000 (2 ^ 12) := by
  refine ⟨by decide, by decide, ?_⟩
  refine not_alignedOk_of_cramped sixteenShort (b := 0x1FE4) (by decide) ?_ (by decide)
  refine ⟨Finset.mem_singleton_self _, by decide, by decide, by decide +kernel, ?_⟩
  intro c hc hlt
  have := Finset.mem_singleton.mp hc
  omega

end JanusRT.Alloc
