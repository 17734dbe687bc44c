import JanusRT.AllocFields
import JanusRT.Lib.LinkedSet

/-!
# The block structure of the heap

The headers of a sound heap form two distance-linked sets over the same bytes: all
blocks, linked by `next` and `prev` and tiling the region, and the unused ones among
them, linked by `next_free` and `prev_free`. Each operation of the allocator is an
insertion or an erasure in these sets.
-/
namespace JanusRT.Alloc

open LinkedSet

theorem add64_eq {p d : ℕ} (h : p + d < u64) : add64 p d = p + d := Nat.mod_eq_of_lt h

theorem sub64_eq {p d : ℕ} (hd : d ≤ p) (hp : p < u64) : sub64 p d = p - d := by
  have hsum : p + (u64 - d) = p - d + u64 := by omega
  rw [sub64, hsum, Nat.add_mod_right, Nat.mod_eq_of_lt (by omega)]

theorem add32_eq {x y : ℕ} (h : x + y < u32) : add32 x y = x + y := Nat.mod_eq_of_lt h

theorem sub32_eq {x y : ℕ} (hy : y ≤ x) (hx : x < u32) : sub32 x y = x - y := by
  have hsum : x + (u32 - y) = x - y + u32 := by omega
  rw [sub32, hsum, Nat.add_mod_right, Nat.mod_eq_of_lt (by omega)]

/-- The 32-bit writes that join `n` to the node in front of it. -/
theorem linked_join {S : Finset ℕ} {e b n nn : ℕ} {f g f' g' : ℕ → ℕ} (h : Linked S e f g)
    (hb : b ∈ S) (hn : n ∈ S) (hbn : b + f b = n) (hnn : n + f n = nn) (hsum : f b + f n < u32)
    (hf : ∀ c ∈ S, f' c = if c = b then add32 (f b) (f n) else f c)
    (hg : ∀ c ∈ S, g' c = if c = nn ∧ nn ≠ e then add32 (g nn) (f b) else g c) :
    Linked (S.erase n) e f' g' := by
  refine h.join hb hn hbn hnn ?_ ?_ ?_ ?_
  · rw [hf b hb, if_pos rfl, add32_eq hsum]
  · intro hs
    have hgap := (h.next n hn).1
    rw [hnn] at hgap
    have hback := h.prev n hn nn hs hgap
    rw [hg nn hs, if_pos ⟨rfl, (h.lt nn hs).ne⟩, add32_eq (by omega)]
  · intro z hz hzb
    rw [hf z hz, if_neg hzb]
  · intro z hz hzn
    rw [hg z hz, if_neg fun hcase => hzn hcase.1]

/-- A region the allocator can manage: inside the address space and of a size that the
32-bit distances can hold. -/
structure Region (base endAddr : ℕ) : Prop where
  space : endAddr < u64
  span : endAddr < base + u32

/-- The heap consists of the blocks `B`, of which those in `F` are unused. -/
structure Shape (s : Arena) (B F : Finset ℕ) : Prop extends Region s.base s.endAddr where
  bottom : s.base ∈ B
  low : ∀ b ∈ B, s.base ≤ b
  blocks : Linked B s.endAddr (s.get · .next) (s.get · .prev)
  room : ∀ b ∈ B, unusedHeaderSize ≤ s.get b .next
  sub : F ⊆ B
  used : ∀ b ∈ B, s.get b .used = if b ∈ F then 0 else 1
  frees : Linked F s.endAddr (s.get · .nextFree) (s.get · .prevFree)
  head : s.free ∈ F ∨ s.free = s.endAddr
  lowest : ∀ b ∈ F, s.free ≤ b

/-- The addresses where headers are read or written: the blocks, and the end of the
region where `use_block` clears a link that is not there. -/
def headers (s : Arena) (B : Finset ℕ) : Set ℕ := {x | x ∈ B ∨ x = s.endAddr}

namespace Shape
variable {s : Arena} {B F : Finset ℕ} {b c n : ℕ}

theorem mem_headers (hb : b ∈ B) : b ∈ headers s B := .inl hb

theorem le_of_lt (h : Shape s B F) (hb : b ∈ B) (hc : c ∈ headers s B) (hlt : b < c) :
    b + s.get b .next ≤ c := by
  obtain ⟨hgap, hs⟩ := h.blocks.next b hb
  rcases hc with hc | rfl
  · have := hgap.2 c hc
    omega
  · rcases hs with hs | hs
    · exact (h.blocks.lt _ hs).le
    · exact hs.le

theorem next_le (h : Shape s B F) (hb : b ∈ B) : b + s.get b .next ≤ s.endAddr :=
  h.le_of_lt hb (.inr rfl) (h.blocks.lt b hb)

theorem next_mem (h : Shape s B F) (hb : b ∈ B) : b + s.get b .next ∈ headers s B :=
  (h.blocks.next b hb).2

theorem nextFree_mem (h : Shape s B F) (hb : b ∈ F) : b + s.get b .nextFree ∈ headers s B :=
  (h.frees.next b hb).2.imp_left (h.sub ·)

theorem nextFree_le (h : Shape s B F) (hb : b ∈ F) : b + s.get b .nextFree ≤ s.endAddr := by
  rcases (h.frees.next b hb).2 with hs | hs
  · exact (h.frees.lt _ hs).le
  · exact hs.le

theorem next_le_nextFree (h : Shape s B F) (hb : b ∈ F) :
    s.get b .next ≤ s.get b .nextFree := by
  have hlt := (h.frees.next b hb).1.1
  have := h.le_of_lt (h.sub hb) (h.nextFree_mem hb) hlt
  omega

theorem next_eq (h : Shape s B F) (hb : b ∈ B) : s.next b = b + s.get b .next :=
  add64_eq ((h.next_le hb).trans_lt h.space)

theorem nfree_eq (h : Shape s B F) (hb : b ∈ F) : s.nfree b = b + s.get b .nextFree :=
  add64_eq ((h.nextFree_le hb).trans_lt h.space)

/-- The previous unused block as `pfree` computes it. -/
theorem pfree_eq (h : Shape s B F) (hb : b ∈ F) (hc : c ∈ F) (hgap : Gap F b c) :
    s.pfree c = b := by
  have hback := h.frees.prev b hb c hc hgap
  have hlt := (h.frees.lt c hc).trans h.space
  rw [Arena.pfree, sub64_eq (by omega) hlt]
  omega

theorem apart (h : Shape s B F) :
    ∀ x ∈ headers s B, ∀ y ∈ headers s B, Apart x y := by
  have hlt : ∀ x ∈ headers s B, ∀ y ∈ headers s B, x < y → x + unusedHeaderSize ≤ y := by
    intro x hx y hy hxy
    rcases hx with hx | rfl
    · have := h.le_of_lt hx hy hxy
      have := h.room x hx
      omega
    · rcases hy with hy | rfl
      · exact absurd (h.blocks.lt y hy) (by omega)
      · omega
  intro x hx y hy
  rcases Nat.lt_trichotomy x y with hxy | hxy | hxy
  · exact .inr (.inl (hlt x hx y hy hxy))
  · exact .inl hxy
  · exact .inr (.inr (hlt y hy x hx hxy))

/-- The shape of a later state, from its two lists and its flags. -/
theorem of_links {s' : Arena} {B' F' : Finset ℕ} (h : Shape s B F) (hbase : s'.base = s.base)
    (hend : s'.endAddr = s.endAddr) (hbottom : s.base ∈ B') (hlow : ∀ b ∈ B', s.base ≤ b)
    (hblocks : Linked B' s.endAddr (s'.get · .next) (s'.get · .prev))
    (hroom : ∀ b ∈ B', unusedHeaderSize ≤ s'.get b .next) (hsub : F' ⊆ B')
    (hused : ∀ b ∈ B', s'.get b .used = if b ∈ F' then 0 else 1)
    (hfrees : Linked F' s.endAddr (s'.get · .nextFree) (s'.get · .prevFree))
    (hhead : s'.free ∈ F' ∨ s'.free = s.endAddr) (hlowest : ∀ b ∈ F', s'.free ≤ b) :
    Shape s' B' F' := by
  have hregion := h.toRegion
  rw [← hbase, ← hend] at hregion
  rw [← hend] at hblocks hfrees hhead
  rw [← hbase] at hbottom hlow
  exact ⟨hregion, hbottom, hlow, hblocks, hroom, hsub, hused, hfrees, hhead, hlowest⟩

/-- The same for an operation that leaves the blocks where they are. -/
theorem of_frees {s' : Arena} {F' : Finset ℕ} (h : Shape s B F) (hbase : s'.base = s.base)
    (hend : s'.endAddr = s.endAddr) (hnext : ∀ c ∈ B, s'.get c .next = s.get c .next)
    (hprev : ∀ c ∈ B, s'.get c .prev = s.get c .prev) (hsub : F' ⊆ B)
    (hused : ∀ b ∈ B, s'.get b .used = if b ∈ F' then 0 else 1)
    (hfrees : Linked F' s.endAddr (s'.get · .nextFree) (s'.get · .prevFree))
    (hhead : s'.free ∈ F' ∨ s'.free = s.endAddr) (hlowest : ∀ b ∈ F', s'.free ≤ b) :
    Shape s' B F' := by
  refine h.of_links hbase hend h.bottom h.low (h.blocks.congr hnext hprev) ?_ hsub hused hfrees
    hhead hlowest
  intro b hb
  rw [hnext b hb]
  exact h.room b hb

/-- A block above the first unused one has an unused block right below it. -/
theorem exists_below (h : Shape s B F) (hlt : s.free < b) (hb : b < s.endAddr) :
    ∃ p ∈ F, Gap F p b := by
  refine exists_gap_below ⟨s.free, ?_, hlt⟩
  rcases h.head with hf | hf
  · exact hf
  · omega

/-- A header cut into a block lies apart from the others. -/
theorem apart_insert (h : Shape s B F) {size r : ℕ} (hb : b ∈ B) (hr : b + size = r)
    (hsize : unusedHeaderSize ≤ size) (hrest : size + unusedHeaderSize ≤ s.get b .next) :
    ∀ x ∈ insert r (headers s B), ∀ y ∈ insert r (headers s B), Apart x y := by
  have hside : ∀ y ∈ headers s B, r + unusedHeaderSize ≤ y ∨ y + unusedHeaderSize ≤ r := by
    intro y hy
    by_cases hby : b < y
    · have := h.le_of_lt hb hy hby
      omega
    · have := h.apart y hy b (mem_headers hb)
      unfold Apart at this
      omega
  intro x hx y hy
  rcases hx with rfl | hx
  · rcases hy with rfl | hy
    · exact .inl rfl
    · exact .inr (hside y hy)
  · rcases hy with rfl | hy
    · exact .inr (hside x hx).symm
    · exact h.apart x hx y hy

/-- `split` cuts a new unused block `r` off an unused block. -/
theorem split (h : Shape s B F) {size r : ℕ} (hb : b ∈ F) (hr : b + size = r)
    (hsize : unusedHeaderSize ≤ size) (hrest : size + unusedHeaderSize ≤ s.get b .next) :
    Shape (split s b size) (insert r B) (insert r F) ∧
      (∀ c ∈ B, (Alloc.split s b size).get c .next = if c = b then size else s.get c .next) ∧
      (Alloc.split s b size).get r .next = s.get b .next - size := by
  have hB := h.sub hb
  have hle := h.next_le hB
  have hleF := h.nextFree_le hb
  have hmono := h.next_le_nextFree hb
  have hlow := h.low b hB
  have hspan := h.span
  have hspace := h.space
  have hhdr : unusedHeaderSize = 20 := rfl
  obtain ⟨hgapB, hs⟩ := h.blocks.next b hB
  obtain ⟨hgapF, hsF⟩ := h.frees.next b hb
  have hD := h.apart_insert hB hr hsize hrest
  obtain ⟨n, hn⟩ : ∃ n, b + s.get b .next = n := ⟨_, rfl⟩
  obtain ⟨nf, hnf⟩ : ∃ nf, b + s.get b .nextFree = nf := ⟨_, rfl⟩
  rw [hn] at hgapB hs
  rw [hnf] at hgapF hsF
  have hrB : r ∉ B := fun hm => by have := hgapB.2 _ hm; omega
  have hne : ∀ c ∈ B, c ≠ r := fun c hc hce => hrB (hce ▸ hc)
  have hsub : sub32 (s.get b .next) size = s.get b .next - size := sub32_eq (by omega) (s.get_lt _ _)
  have hsubF : sub32 (s.get b .nextFree) size = s.get b .nextFree - size :=
    sub32_eq (by omega) (s.get_lt _ _)
  have hget : ∀ c ∈ insert r (headers s B), ∀ j, (Alloc.split s b size).get c j = _ :=
    fun c hc => get_split hD (by omega) (.inr (.inl hB)) (.inl rfl) (.inr hs)
      (.inr (hsF.imp_left (h.sub ·))) hc (by omega) (by rw [add64_eq (by omega), hr])
      (by rw [hsub, add64_eq (by omega)]; omega) (by rw [hsubF, add64_eq (by omega)]; omega)
      (by omega) (by omega)
  have hr' : r ∈ insert r (headers s B) := .inl rfl
  have hmem : ∀ c ∈ B, c ∈ insert r (headers s B) := fun c hc => .inr (.inl hc)
  have hrb : r ≠ b := by omega
  have hback : n ∈ B → sub32 (s.get n .prev) size = s.get n .prev - size := by
    intro hnB
    have := h.blocks.prev b hB n hnB hgapB
    exact sub32_eq (by omega) (s.get_lt _ _)
  have hbackF : nf ∈ F → sub32 (s.get nf .prevFree) size = s.get nf .prevFree - size := by
    intro hnF
    have := h.frees.prev b hb nf hnF hgapF
    exact sub32_eq (by omega) (s.get_lt _ _)
  have hnextr : (Alloc.split s b size).get r .next = s.get b .next - size := by
    simp only [hget r hr', if_neg hrb, if_true, hsub]
  have hblocks : Linked (insert r B) s.endAddr ((Alloc.split s b size).get · .next)
      ((Alloc.split s b size).get · .prev) := by
    subst hr
    refine h.blocks.cut hB hn (show 0 < size by omega) (by omega) ?_ ?_ ?_ ?_ ?_ ?_
    · simp only [hget b (hmem b hB), if_true]
    · exact hnextr
    · have hrn : b + size ≠ n := by omega
      simp only [hget _ hr', hrn, false_and, if_false, if_true]
    · intro hnB
      have hne' : n ≠ s.endAddr := (h.blocks.lt n hnB).ne
      simp only [hget n (hmem n hnB), hne', ne_eq, not_false_eq_true, and_self, if_true, hback hnB]
    · intro z hz hzb
      simp only [hget z (hmem z hz), if_neg hzb, if_neg (hne z hz)]
    · intro z hz hzn
      simp only [hget z (hmem z hz), hzn, false_and, if_false, if_neg (hne z hz)]
  have hfrees : Linked (insert r F) s.endAddr ((Alloc.split s b size).get · .nextFree)
      ((Alloc.split s b size).get · .prevFree) := by
    subst hr
    refine h.frees.cut hb hnf (show 0 < size by omega) (by omega) ?_ ?_ ?_ ?_ ?_ ?_
    · simp only [hget b (hmem b hB), if_true]
    · simp only [hget _ hr', if_neg hrb, if_true, hsubF]
    · have hrn : b + size ≠ nf := by omega
      simp only [hget _ hr', hrn, false_and, if_false, if_true]
    · intro hnF
      have hne' : nf ≠ s.endAddr := (h.frees.lt nf hnF).ne
      simp only [hget nf (hmem nf (h.sub hnF)), hne', ne_eq, not_false_eq_true, and_self, if_true,
        hbackF hnF]
    · intro z hz hzb
      simp only [hget z (hmem z (h.sub hz)), if_neg hzb, if_neg (hne z (h.sub hz))]
    · intro z hz hzn
      simp only [hget z (hmem z (h.sub hz)), hzn, false_and, if_false, if_neg (hne z (h.sub hz))]
  have hnext : ∀ c ∈ B, (Alloc.split s b size).get c .next =
      if c = b then size else s.get c .next := by
    intro c hc
    simp only [hget c (hmem c hc), if_neg (hne c hc)]
  refine ⟨h.of_links (split_base _ _ _) (split_endAddr _ _ _) (Finset.mem_insert_of_mem h.bottom)
    ?_ hblocks ?_ (Finset.insert_subset_insert r h.sub) ?_ hfrees ?_ ?_, hnext, hnextr⟩
  · intro c hc
    rcases Finset.mem_insert.mp hc with rfl | hc
    · omega
    · exact h.low c hc
  · intro c hc
    rcases Finset.mem_insert.mp hc with rfl | hc
    · omega
    · rw [hnext c hc]
      have := h.room c hc
      split_ifs <;> omega
  · intro c hc
    rcases Finset.mem_insert.mp hc with rfl | hc
    · simp only [hget c hr', Finset.mem_insert_self, if_true]
    · simp only [hget c (hmem c hc), Finset.mem_insert, hne c hc, false_or]
      exact h.used c hc
  · rw [split_free]
    exact h.head.imp_left (Finset.mem_insert_of_mem ·)
  · intro c hc
    rw [split_free]
    rcases Finset.mem_insert.mp hc with rfl | hc
    · have := h.lowest b hb
      omega
    · exact h.lowest c hc

/-- `use_block` takes an unused block off the list. -/
theorem useBlock (h : Shape s B F) (hb : b ∈ F) :
    Shape (useBlock s b) B (F.erase b) ∧
      ∀ c ∈ B, (Alloc.useBlock s b).get c .next = s.get c .next := by
  have hB := h.sub hb
  have hmem : ∀ c ∈ B, c ∈ headers s B := fun c hc => .inl hc
  obtain ⟨hgap, hs⟩ := h.frees.next b hb
  obtain ⟨nf, hnf⟩ : ∃ nf, b + s.get b .nextFree = nf := ⟨_, rfl⟩
  rw [hnf] at hgap hs
  have henf : s.nfree b = nf := by rw [h.nfree_eq hb, hnf]
  have hnfD : nf ∈ headers s B := hs.imp_left (h.sub ·)
  have hused : ∀ c ∈ B, (if c = b then 1 else s.get c .used) = if c ∈ F.erase b then 0 else 1 := by
    intro c hc
    rw [h.used c hc]
    by_cases hcb : c = b <;> simp [hcb]
  by_cases hhead : b = s.free
  · have hget : ∀ c ∈ B, ∀ j, (Alloc.useBlock s b).get c j = _ :=
      fun c hc => get_useBlock_head h.apart (hmem b hB) hnfD (hmem c hc) hhead henf
    have hfree : (Alloc.useBlock s b).free = nf := by rw [useBlock_free, if_pos hhead, henf]
    refine ⟨h.of_frees (useBlock_base _ _) (useBlock_endAddr _ _) (fun c hc => hget c hc .next)
      (fun c hc => hget c hc .prev) ((Finset.erase_subset b F).trans h.sub)
      (fun c hc => (hget c hc .used).trans (hused c hc)) ?_ ?_ ?_, fun c hc => hget c hc .next⟩
    · refine h.frees.dropFirst hb (fun y hy => hhead ▸ h.lowest y hy) hnf ?_ ?_ ?_
      · intro hnF
        simp only [hget nf (h.sub hnF), if_true]
      · intro z hz
        exact hget z (h.sub hz) .nextFree
      · intro z hz hzn
        simp only [hget z (h.sub hz), if_neg hzn]
    · rw [hfree]
      exact hs.imp_left fun hnF => Finset.mem_erase.mpr ⟨hgap.1.ne', hnF⟩
    · intro c hc
      obtain ⟨hcb, hcF⟩ := Finset.mem_erase.mp hc
      have := h.lowest c hcF
      have := hgap.2 c hcF
      rw [hfree]
      omega
  · have hfb : s.free < b := by
      have := h.lowest b hb
      omega
    obtain ⟨pf, hpf, hgapp⟩ := h.exists_below hfb (h.frees.lt b hb)
    have hfwd := h.frees.next_eq hpf hgapp (.inl hb)
    have hback := h.frees.prev pf hpf b hb hgapp
    have hget : ∀ c ∈ B, ∀ j, (Alloc.useBlock s b).get c j = _ :=
      fun c hc => get_useBlock h.apart (hmem b hB) (hmem pf (h.sub hpf)) hnfD (hmem c hc) hhead
        (h.pfree_eq hpf hb hgapp) henf hgapp.1.ne'
    have hfree : (Alloc.useBlock s b).free = s.free := by rw [useBlock_free, if_neg hhead]
    have hle := h.nextFree_le hb
    have hlow := h.low pf (h.sub hpf)
    have hspan := h.span
    refine ⟨h.of_frees (useBlock_base _ _) (useBlock_endAddr _ _) (fun c hc => hget c hc .next)
      (fun c hc => hget c hc .prev) ((Finset.erase_subset b F).trans h.sub)
      (fun c hc => (hget c hc .used).trans (hused c hc)) ?_ ?_ ?_, fun c hc => hget c hc .next⟩
    · refine h.frees.join hpf hb hfwd hnf ?_ ?_ ?_ ?_
      · simp only [hget pf (h.sub hpf), if_true]
        exact add32_eq (by omega)
      · intro hnF
        have hne : nf ≠ s.endAddr := (h.frees.lt nf hnF).ne
        have hback' := h.frees.prev b hb nf hnF hgap
        simp only [hget nf (h.sub hnF), hne, ne_eq, not_false_eq_true, and_self, if_true]
        rw [add32_eq (by omega)]
        omega
      · intro z hz hzp
        simp only [hget z (h.sub hz), if_neg hzp]
      · intro z hz hzn
        simp only [hget z (h.sub hz), hzn, false_and, if_false]
    · rw [hfree]
      refine h.head.imp_left fun hf => Finset.mem_erase.mpr ⟨?_, hf⟩
      exact fun he => hhead he.symm
    · intro c hc
      rw [hfree]
      exact h.lowest c (Finset.mem_of_mem_erase hc)

/-- A round of the coalescing loop on two unused neighbours makes them one block. -/
theorem joinNext (h : Shape s B F) (hb : b ∈ F) (hn : n ∈ F) (hbn : b + s.get b .next = n) :
    Shape (joinNext s b n) (B.erase n) (F.erase n) ∧
      (∀ c ∈ B, (Alloc.joinNext s b n).get c .next =
        if c = b then s.get b .next + s.get n .next else s.get c .next) := by
  have hB := h.sub hb
  have hnB := h.sub hn
  have hmem : ∀ c ∈ B, c ∈ headers s B := fun c hc => .inl hc
  obtain ⟨nn, hnn⟩ : ∃ nn, n + s.get n .next = nn := ⟨_, rfl⟩
  obtain ⟨nf, hnf⟩ : ∃ nf, n + s.get n .nextFree = nf := ⟨_, rfl⟩
  have hgapB := (h.blocks.next b hB).1
  rw [hbn] at hgapB
  have hgap : Gap F b n := hgapB.mono fun z hz => h.sub hz
  have hbf := h.frees.next_eq hb hgap (.inl hn)
  have hne : n ≠ s.endAddr := (h.frees.lt n hn).ne
  have hget : ∀ c ∈ B, ∀ j, (Alloc.joinNext s b n).get c j = _ :=
    fun c hc => get_joinNext h.apart (hmem b hB) (hmem n hnB) (fun _ => hnn ▸ h.next_mem hnB)
      (fun _ => hnf ▸ h.nextFree_mem hn) (hmem c hc) hne (by rw [h.next_eq hB, hbn])
      (by rw [h.next_eq hnB, hnn]) (by rw [h.nfree_eq hn, hnf]) hgap.1.ne'
  have hle := h.next_le hnB
  have hleF := h.nextFree_le hn
  have hlow := h.low b hB
  have hspan := h.span
  have hroom := h.room b hB
  have hnext : ∀ c ∈ B, (Alloc.joinNext s b n).get c .next =
      if c = b then s.get b .next + s.get n .next else s.get c .next := by
    intro c hc
    simp only [hget c hc, add32_eq (show s.get b .next + s.get n .next < u32 by omega)]
  refine ⟨h.of_links (joinNext_base _ _ _) (joinNext_endAddr _ _ _) ?_ ?_ ?_ ?_
    (Finset.erase_subset_erase n h.sub) ?_ ?_ ?_ ?_, hnext⟩
  · refine Finset.mem_erase.mpr ⟨?_, h.bottom⟩
    have := hgap.1
    omega
  · intro c hc
    exact h.low c (Finset.mem_of_mem_erase hc)
  · exact linked_join h.blocks hB hnB hbn hnn (by omega) (fun c hc => hget c hc .next)
      fun c hc => hget c hc .prev
  · intro c hc
    have hcB := Finset.mem_of_mem_erase hc
    have := h.room c hcB
    rw [hnext c hcB]
    split_ifs <;> omega
  · intro c hc
    obtain ⟨hcn, hcB⟩ := Finset.mem_erase.mp hc
    simp only [hget c hcB, Finset.mem_erase, ne_eq, hcn, not_false_eq_true, true_and]
    exact h.used c hcB
  · exact linked_join h.frees hb hn hbf hnf (by omega) (fun c hc => hget c (h.sub hc) .nextFree)
      fun c hc => hget c (h.sub hc) .prevFree
  · rw [joinNext_free]
    refine h.head.imp_left fun hf => Finset.mem_erase.mpr ⟨?_, hf⟩
    have := h.lowest b hb
    have := hgap.1
    omega
  · intro c hc
    rw [joinNext_free]
    exact h.lowest c (Finset.mem_of_mem_erase hc)

end Shape

end JanusRT.Alloc
