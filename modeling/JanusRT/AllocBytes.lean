import JanusRT.AllocOps

/-!
# Bytes the allocator leaves alone

A byte belongs to a header when it lies in the used part of the header of any block, or
in the links of an unused one. What is left are the payloads of the used blocks, the
inside of the unused ones and everything outside the region. `alloc` writes headers
only, with one exception: when it empties the free list it clears the link that a block
at the region's end would have.
-/
namespace JanusRT.Alloc

open LinkedSet ByteStore

/-- The byte `x` is not part of the field `k` of the header at `a`. -/
def Off (x a : ℕ) (k : Field) : Prop := x < a + k.offset ∨ a + k.offset + 4 ≤ x

theorem Arena.set_mem {s : Arena} {x a : ℕ} {k : Field} (h : Off x a k) (v : ℕ) :
    (s.set a k v).mem x = s.mem x :=
  wr32_of_outside h

theorem Arena.setBlock_mem {s : Arena} {x a : ℕ} {k : Field} (h : a ≠ s.endAddr → Off x a k)
    (v : ℕ) : (s.setBlock a k v).mem x = s.mem x := by
  unfold Arena.setBlock
  split_ifs with hne
  · exact Arena.set_mem (h hne) v
  · rfl

/-- The byte `x` is part of no header. -/
structure OffHeaders (B F : Finset ℕ) (x : ℕ) : Prop where
  block : ∀ b ∈ B, x < b ∨ b + usedHeaderSize ≤ x
  unused : ∀ b ∈ F, x < b ∨ b + unusedHeaderSize ≤ x

namespace OffHeaders
variable {B F : Finset ℕ} {x b : ℕ}

theorem off_unused (h : OffHeaders B F x) (hb : b ∈ F) (k : Field) : Off x b k := by
  have := h.unused b hb
  have := k.offset_le
  unfold Off
  omega

theorem off_block (h : OffHeaders B F x) (hb : b ∈ B) : Off x b .prev := by
  have hhdr : usedHeaderSize = 12 := rfl
  have hoff : Field.prev.offset = 0 := rfl
  have := h.block b hb
  unfold Off
  omega

end OffHeaders

namespace Shape
variable {s : Arena} {B F : Finset ℕ} {b c x : ℕ}

/-- A byte outside the region. -/
theorem offHeaders_outside (h : Shape s B F) (hx : x < s.base ∨ s.endAddr ≤ x) :
    OffHeaders B F x := by
  have hhdr : usedHeaderSize = 12 ∧ unusedHeaderSize = 20 := ⟨rfl, rfl⟩
  have hside : ∀ b ∈ B, x < b ∨ b + unusedHeaderSize ≤ x := by
    intro b hb
    have := h.low b hb
    have := h.next_le hb
    have := h.room b hb
    omega
  refine ⟨fun b hb => ?_, fun b hb => hside b (h.sub hb)⟩
  have := hside b hb
  omega

/-- A byte in the payload of a used block. -/
theorem offHeaders_payload (h : Shape s B F) (hc : c ∈ B) (hcF : c ∉ F)
    (hx : c + usedHeaderSize ≤ x) (hx' : x < c + s.get c .next) : OffHeaders B F x := by
  have hhdr : usedHeaderSize = 12 ∧ unusedHeaderSize = 20 := ⟨rfl, rfl⟩
  have hside : ∀ b ∈ B, b ≠ c → x < b ∨ b + unusedHeaderSize ≤ x := by
    intro b hb hbc
    have h₁ := fun hlt : c < b => h.le_of_lt hc (mem_headers hb) hlt
    have h₂ := fun hlt : b < c => h.le_of_lt hb (mem_headers hc) hlt
    have := h.room b hb
    omega
  constructor
  · intro b hb
    by_cases hbc : b = c
    · omega
    · have := hside b hb hbc
      omega
  · intro b hb
    exact hside b (h.sub hb) fun he => hcF (he ▸ hb)

/-- Either of the two. -/
theorem offHeaders_kept (h : Shape s B F)
    (hx : x < s.base ∨ s.endAddr ≤ x ∨ ∃ c ∈ B, c ∉ F ∧ c + usedHeaderSize ≤ x ∧
      x < c + s.get c .next) : OffHeaders B F x := by
  rcases hx with hlt | hge | ⟨c, hc, hcF, hcx, hxc⟩
  · exact h.offHeaders_outside (.inl hlt)
  · exact h.offHeaders_outside (.inr hge)
  · exact h.offHeaders_payload hc hcF hcx hxc

/-- `split` writes headers only, the new one among them. -/
theorem split_mem (h : Shape s B F) {size r : ℕ} (hb : b ∈ F) (hr : b + size = r)
    (hsize : unusedHeaderSize ≤ size) (hrest : size + unusedHeaderSize ≤ s.get b .next)
    (hx : OffHeaders B F x) (hxr : x < r ∨ r + unusedHeaderSize ≤ x) :
    (Alloc.split s b size).mem x = s.mem x := by
  have hB := h.sub hb
  have hle := h.next_le hB
  have hleF := h.nextFree_le hb
  have hmono := h.next_le_nextFree hb
  have hlow := h.low b hB
  have hspan := h.span
  have hspace := h.space
  have hhdr : unusedHeaderSize = 20 := rfl
  have hmod : size % u32 = size := Nat.mod_eq_of_lt (by omega)
  have hD := h.apart_insert hB hr hsize hrest
  have hrD : r ∈ insert r (headers s B) := .inl rfl
  have hbD : b ∈ insert r (headers s B) := .inr (.inl hB)
  have hnD : b + s.get b .next ∈ insert r (headers s B) := .inr (h.next_mem hB)
  have her : add64 b size = r := by rw [add64_eq (by omega), hr]
  have hbr : b ≠ r := by omega
  have hsub : sub32 (s.get b .next) size = s.get b .next - size := sub32_eq (by omega) (s.get_lt _ _)
  have hsubF : sub32 (s.get b .nextFree) size = s.get b .nextFree - size :=
    sub32_eq (by omega) (s.get_lt _ _)
  have hen : add64 r (sub32 (s.get b .next) size) = b + s.get b .next := by
    rw [hsub, add64_eq (by omega)]
    omega
  have henf : add64 r (sub32 (s.get b .nextFree) size) = b + s.get b .nextFree := by
    rw [hsubF, add64_eq (by omega)]
    omega
  have hoffr : ∀ k, Off x r k := by
    intro k
    have := k.offset_le
    unfold Off
    omega
  have hoffb : ∀ k, Off x b k := hx.off_unused hb
  have hoffn : b + s.get b .next ≠ s.endAddr → Off x (b + s.get b .next) .prev := fun hne =>
    hx.off_block ((h.next_mem hB).resolve_right hne)
  have hoffnf : b + s.get b .nextFree ≠ s.endAddr → Off x (b + s.get b .nextFree) .prevFree :=
    fun hne => hx.off_unused ((h.frees.next b hb).2.resolve_right hne) _
  have hrn : r ≠ b + s.get b .next := by omega
  unfold Alloc.split
  simp only [hmod, her]
  rw [Arena.setBlock_mem, Arena.setBlock_mem]
  · simp only [Arena.set_mem, hoffr, hoffb]
  · simpa [Arena.next, Arena.get_set, hD, hrD, hbD, hbr, hbr.symm, hmod, hen] using hoffn
  · simpa [Arena.nfree, Arena.next, Arena.get_set, Arena.get_setBlock, hD, hrD, hbD, hnD, hbr,
      hbr.symm, hmod, hen, henf, hrn] using hoffnf

/-- `use_block` writes headers only, unless it empties the list. -/
theorem useBlock_mem (h : Shape s B F) (hb : b ∈ F) (hx : OffHeaders B F x)
    (hend : F = {b} → Off x s.endAddr .prevFree) :
    (Alloc.useBlock s b).mem x = s.mem x := by
  have hB := h.sub hb
  have hoffb : ∀ k, Off x b k := hx.off_unused hb
  obtain ⟨hgap, hnext⟩ := h.frees.next b hb
  have hnf := h.nfree_eq hb
  unfold Alloc.useBlock
  split_ifs with hhead
  · have hoffn : Off x (b + s.get b .nextFree) .prevFree := by
      rcases hnext with hnF | hne
      · exact hx.off_unused hnF _
      · rw [hne]
        apply hend
        ext c
        rw [Finset.mem_singleton]
        constructor
        · intro hc
          have h₁ := h.lowest c hc
          have h₂ := h.frees.lt c hc
          have h₃ := hgap.2 c hc
          omega
        · rintro rfl
          exact hb
    simp only [hnf, Arena.set_mem, hoffb, hoffn]
  · have hfb : s.free < b := by
      have := h.lowest b hb
      omega
    obtain ⟨pf, hpf, hgapp⟩ := h.exists_below hfb (h.frees.lt b hb)
    have hoffp : ∀ k, Off x pf k := hx.off_unused hpf
    have hD := h.apart
    have hbD : b ∈ headers s B := mem_headers hB
    have hpD : pf ∈ headers s B := mem_headers (h.sub hpf)
    simp only [h.pfree_eq hpf hb hgapp]
    rw [Arena.set_mem (hoffb _), Arena.setBlock_mem, Arena.set_mem (hoffp _)]
    rw [Arena.nfree, Arena.get_set (hD pf hpD b hbD), if_neg fun hc => hgapp.1.ne' hc.1]
    change s.nfree b ≠ s.endAddr → Off x (s.nfree b) .prevFree
    rw [hnf]
    exact fun hne => hx.off_unused (hnext.resolve_right hne) _

/-- Bytes written into the payload of a used block touch no header but that block's links,
which a used block does not have. -/
theorem payload (h : Shape s B F) (hb : b ∈ B) (hbF : b ∉ F) {m : Store}
    (hm : ∀ x, x < b + usedHeaderSize ∨ b + s.get b .next ≤ x → m x = s.mem x) :
    Shape { s with mem := m } B F ∧
      ∀ c ∈ B, Arena.get { s with mem := m } c .next = s.get c .next := by
  have hhdr : usedHeaderSize = 12 ∧ unusedHeaderSize = 20 := ⟨rfl, rfl⟩
  have hget : ∀ c ∈ B, ∀ j : Field, c ≠ b ∨ j.offset + 4 ≤ usedHeaderSize →
      Arena.get { s with mem := m } c j = s.get c j := by
    intro c hc j hj
    have hoff := j.offset_le
    refine rd32_congr fun x hx hx' => hm x ?_
    have h₁ := fun hlt : b < c => h.le_of_lt hb (mem_headers hc) hlt
    have h₂ := h.apart c (mem_headers hc) b (mem_headers hb)
    unfold Apart at h₂
    omega
  have hne : ∀ c ∈ F, c ≠ b := fun c hc he => hbF (he ▸ hc)
  have hnext : ∀ c ∈ B, Arena.get { s with mem := m } c .next = s.get c .next :=
    fun c hc => hget c hc .next (.inr (by decide))
  refine ⟨h.of_frees rfl rfl hnext (fun c hc => hget c hc .prev (.inr (by decide))) h.sub ?_ ?_
    h.head h.lowest, hnext⟩
  · intro c hc
    rw [hget c hc .used (.inr (by decide))]
    exact h.used c hc
  · exact h.frees.congr (fun c hc => hget c (h.sub hc) .nextFree (.inl (hne c hc)))
      fun c hc => hget c (h.sub hc) .prevFree (.inl (hne c hc))

end Shape

end JanusRT.Alloc
