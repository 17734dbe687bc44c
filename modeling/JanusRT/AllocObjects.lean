import JanusRT.AllocAligned
import JanusRT.AllocResize

/-!
# The heap as a store of objects

What the allocator is for, seen by a client that makes any of its calls in any order: objects
that lie in the region and do not meet, each with the alignment it was asked for and with the
bytes that were last written to it, wherever `realloc` has moved it since. The byte-level heap
keeps this promise along every run of calls that it serves.
-/
namespace JanusRT.Alloc

open LinkedSet Outcome ByteStore

/-! ## The client's view -/

/-- What a client relies on once it has been given memory. -/
structure Obj where
  len : ℕ
  align : ℕ
  data : ℕ → UInt8

/-- The allocator, and the objects of its client by their address. -/
structure Objects where
  arena : Arena
  objs : ℕ → Option Obj

/-- The interface of `alloc.h` and a store. Alignments are powers of two. -/
inductive Call
  | alloc (len : ℕ)
  | alignedAlloc (len k : ℕ)
  | realloc (p size : ℕ)
  | free (p : ℕ)
  | store (p i : ℕ) (v : UInt8)
  deriving DecidableEq, Repr

/-- What the call returns, and the heap after it. -/
def answer (s : Arena) : Call → Except Halt (ℕ × Arena)
  | .alloc len => alloc s len
  | .alignedAlloc len k => alignedAlloc s len (2 ^ k)
  | .realloc p size => realloc s p size
  | .free p => do
    let s ← free s p
    return (0, s)
  | .store p i v => return (0, { s with mem := Function.update s.mem (p + i) v })

/-- An object as the client finds it. -/
def found (m : Store) (q len align : ℕ) : Obj := ⟨len, align, fun i => m (q + i)⟩

/-- An object after `realloc`: its bytes as far as it went, and then what the client finds. -/
def resized (m : Store) (o : Obj) (q size : ℕ) : Obj :=
  ⟨size, 1, fun i => if i < o.len then o.data i else m (q + i)⟩

/-- The objects after a call that has answered `q` and left the memory `m`. -/
def record (objs : ℕ → Option Obj) (m : Store) (q : ℕ) : Call → ℕ → Option Obj
  | .alloc len => if q = 0 then objs else Function.update objs q (some (found m q len 1))
  | .alignedAlloc len k =>
    if q = 0 then objs else Function.update objs q (some (found m q len (2 ^ k)))
  | .realloc p size =>
    if q = 0 then objs
    else Function.update (Function.update objs p none) q ((objs p).map fun o => resized m o q size)
  | .free p => Function.update objs p none
  | .store p i v =>
    Function.update objs p ((objs p).map fun o => { o with data := Function.update o.data i v })

def perform (st : Objects) (c : Call) : Except Halt Objects := do
  let (q, s) ← answer st.arena c
  return ⟨s, record st.objs s.mem q c⟩

/-- Lengths that a block can have, and pointers to objects. -/
def Permitted (st : Objects) : Call → Prop
  | .alloc len => 8 ≤ len ∧ len + usedHeaderSize < u64
  | .alignedAlloc len k => 8 ≤ len ∧ len + usedHeaderSize + 2 ^ k < u64
  | .realloc p size => (st.objs p).isSome ∧ 8 ≤ size ∧ size + usedHeaderSize < u32
  | .free p => (st.objs p).isSome
  | .store p i _ => ∃ o, st.objs p = some o ∧ i < o.len

instance (st : Objects) : (c : Call) → Decidable (Permitted st c)
  | .alloc _ => inferInstanceAs (Decidable (_ ∧ _))
  | .alignedAlloc _ _ => inferInstanceAs (Decidable (_ ∧ _))
  | .realloc _ _ => inferInstanceAs (Decidable (_ ∧ _ ∧ _))
  | .free _ => inferInstanceAs (Decidable (_ = true))
  | .store p i _ =>
    match h : st.objs p with
    | none => .isFalse (by simp [Permitted, h])
    | some o => decidable_of_iff (i < o.len) (by simp [Permitted, h])

/-- Not below the first unused block, unless there is none. -/
def NotBelow (s : Arena) (b : ℕ) : Prop := s.free < b ∨ s.free = s.endAddr

instance (s : Arena) (b : ℕ) : Decidable (NotBelow s b) := inferInstanceAs (Decidable (_ ∨ _))

/-- `realloc` in place, of the block `b` with `n` above it. -/
def TakesAbove (s : Arena) (b n size : ℕ) : Prop :=
  n ≠ s.endAddr ∧ s.get n .used = 0 ∧ size + usedHeaderSize ≤ s.get b .next + s.get n .next

instance (s : Arena) (b n size : ℕ) : Decidable (TakesAbove s b n size) :=
  inferInstanceAs (Decidable (_ ∧ _ ∧ _))

/-- The calls after which the heap is still whole. A block is released from above the first
unused one; the beginning that `aligned_alloc` splits off has room for a header; what `realloc`
splits off above a block has, too, and the block it moves to holds all that is copied. -/
def LeavesWhole (s : Arena) : Call → Prop
  | .alloc _ => True
  | .alignedAlloc len k =>
    match alignedFit s (len + usedHeaderSize) (2 ^ k) u64 s.free 0 with
    | .ok best => AlignedAt (2 ^ k) best ∨ unusedHeaderSize ≤ lead (2 ^ k) best
    | .error _ => True
  | .realloc p size =>
    let b := ptrBlock p
    let n := s.next b
    if TakesAbove s b n size then
      s.get b .next + s.get n .next < size + usedHeaderSize + minSplitThreshold ∨
        s.get b .next + unusedHeaderSize ≤ size + usedHeaderSize
    else
      match alloc s size with
      | .ok (q, s') => q = 0 ∨ (s.get b .next ≤ s'.get (ptrBlock q) .next ∧ NotBelow s' b)
      | .error _ => True
  | .free p => NotBelow s (ptrBlock p)
  | .store _ _ _ => True

instance (s : Arena) : (c : Call) → Decidable (LeavesWhole s c)
  | .alloc _ => .isTrue trivial
  | .alignedAlloc len k =>
    match h : alignedFit s (len + usedHeaderSize) (2 ^ k) u64 s.free 0 with
    | .ok best =>
      decidable_of_iff (AlignedAt (2 ^ k) best ∨ unusedHeaderSize ≤ lead (2 ^ k) best)
        (by simp only [LeavesWhole, h])
    | .error _ => .isTrue (by simp only [LeavesWhole, h])
  | .realloc p size =>
    if ht : TakesAbove s (ptrBlock p) (s.next (ptrBlock p)) size then
      decidable_of_iff (_ ∨ _) (by simp only [LeavesWhole, if_pos ht]; exact Iff.rfl)
    else
      match h : alloc s size with
      | .ok (q, s') =>
        decidable_of_iff (q = 0 ∨ (s.get (ptrBlock p) .next ≤ s'.get (ptrBlock q) .next ∧
            NotBelow s' (ptrBlock p)))
          (by simp only [LeavesWhole, if_neg ht, h])
      | .error _ => .isTrue (by simp only [LeavesWhole, if_neg ht, h])
  | .free _ => inferInstanceAs (Decidable (NotBelow _ _))
  | .store _ _ _ => .isTrue trivial

/-- What the client is promised. An object ends where the block in front of it says or before. -/
structure Promised (st : Objects) : Prop where
  inside : ∀ p o, st.objs p = some o → st.arena.base < p ∧ p + o.len ≤ st.arena.endAddr
  room : ∀ p o, st.objs p = some o →
    p + o.len ≤ ptrBlock p + st.arena.get (ptrBlock p) .next
  apart : ∀ p o q o', st.objs p = some o → st.objs q = some o' → p ≠ q →
    p + o.len ≤ q ∨ q + o'.len ≤ p
  aligned : ∀ p o, st.objs p = some o → o.align ∣ p
  bytes : ∀ p o, st.objs p = some o → ∀ i, i < o.len → st.arena.mem (p + i) = o.data i

/-! ## The blocks behind the objects -/

/-- A block that has been given out. -/
def Layout.Used (h : Layout) (c : ℕ) : Prop := c ∈ h.blocks ∧ c ∉ h.unused

/-- The block `c` holds the object `o`. -/
structure Carries (h : Layout) (c : ℕ) (o : Obj) : Prop where
  room : o.len + usedHeaderSize ≤ h.arena.get c .next
  aligned : o.align ∣ c + usedHeaderSize
  bytes : ∀ i, i < o.len → h.arena.mem (c + usedHeaderSize + i) = o.data i

/-- The used blocks are those of the objects. -/
structure Backed (h : Layout) (objs : ℕ → Option Obj) : Prop where
  used : ∀ c, h.Used c ↔ (objs (c + usedHeaderSize)).isSome
  object : ∀ p o, objs p = some o → ∃ c, p = c + usedHeaderSize ∧ Carries h c o

section Backed
variable {h h' : Layout} {objs : ℕ → Option Obj} {b c p r : ℕ} {o : Obj}

theorem Keeps.carries (hk : Keeps h.arena h'.arena c) (ho : Carries h c o) : Carries h' c o := by
  refine ⟨hk.next.symm ▸ ho.room, ho.aligned, ?_⟩
  intro i hi
  have hroom := ho.room
  rw [hk.payload _ (by omega) (by omega)]
  exact ho.bytes i hi

theorem Backed.usedAt (h₀ : Backed h objs) (ho : objs p = some o) :
    ∃ c, p = c + usedHeaderSize ∧ h.Used c ∧ Carries h c o := by
  obtain ⟨c, rfl, hc⟩ := h₀.object p o ho
  refine ⟨c, rfl, (h₀.used c).mpr ?_, hc⟩
  rw [ho]
  rfl

/-- The promise follows from the tiling of the region by blocks. -/
theorem Backed.promised (h₀ : Backed h objs) : Promised ⟨h.arena, objs⟩ := by
  have hhdr : usedHeaderSize = 12 := rfl
  constructor
  · intro p o ho
    obtain ⟨c, rfl, hc, hcar⟩ := h₀.usedAt ho
    have hlow := h.shape.low c hc.1
    have hle := h.shape.next_le hc.1
    have hroom := hcar.room
    dsimp only
    omega
  · intro p o ho
    obtain ⟨c, rfl, hc, hcar⟩ := h₀.usedAt ho
    have hroom := hcar.room
    rw [h.shape.ptrBlock_eq hc.1]
    dsimp only
    omega
  · intro p o q o' ho ho' hne
    obtain ⟨c, rfl, hc, hcar⟩ := h₀.usedAt ho
    obtain ⟨d, rfl, hd, hdar⟩ := h₀.usedAt ho'
    have hroom := hcar.room
    have hroom' := hdar.room
    have h₁ := fun hlt : c < d => h.shape.le_of_lt hc.1 (Shape.mem_headers hd.1) hlt
    have h₂ := fun hlt : d < c => h.shape.le_of_lt hd.1 (Shape.mem_headers hc.1) hlt
    omega
  · intro p o ho
    obtain ⟨c, rfl, -, hcar⟩ := h₀.usedAt ho
    exact hcar.aligned
  · intro p o ho i hi
    obtain ⟨c, rfl, -, hcar⟩ := h₀.usedAt ho
    exact hcar.bytes i hi

/-- An object less. -/
theorem Backed.take (h₀ : Backed h objs) (hused : ∀ c, h'.Used c ↔ h.Used c ∧ c ≠ b)
    (hkeep : ∀ c, h.Used c → c ≠ b → Keeps h.arena h'.arena c) :
    Backed h' (Function.update objs (b + usedHeaderSize) none) := by
  constructor
  · intro c
    rw [hused]
    by_cases hc : c = b
    · subst hc
      simp
    · rw [Function.update_of_ne (by omega), and_iff_left hc]
      exact h₀.used c
  · intro p o' ho'
    by_cases hp : p = b + usedHeaderSize
    · subst hp
      rw [Function.update_self] at ho'
      cases ho'
    · rw [Function.update_of_ne hp] at ho'
      obtain ⟨c, rfl, hc, hcar⟩ := h₀.usedAt ho'
      exact ⟨c, rfl, (hkeep c hc (fun he => hp (he ▸ rfl))).carries hcar⟩

/-- The object of `b`, if there was one, makes way for another in the block `r`. -/
theorem Backed.replace (h₀ : Backed h objs)
    (hused : ∀ c, h'.Used c ↔ (h.Used c ∧ c ≠ b) ∨ c = r)
    (hkeep : ∀ c, h.Used c → c ≠ b → Keeps h.arena h'.arena c) (ho : Carries h' r o) :
    Backed h' (Function.update (Function.update objs (b + usedHeaderSize) none)
      (r + usedHeaderSize) (some o)) := by
  constructor
  · intro c
    rw [hused]
    by_cases hcr : c = r
    · subst hcr
      simp
    rw [Function.update_of_ne (by omega), or_iff_left hcr]
    by_cases hcb : c = b
    · subst hcb
      simp
    · rw [Function.update_of_ne (by omega), and_iff_left hcb]
      exact h₀.used c
  · intro p o' ho'
    by_cases hp : p = r + usedHeaderSize
    · subst hp
      rw [Function.update_self, Option.some.injEq] at ho'
      subst ho'
      exact ⟨r, rfl, ho⟩
    rw [Function.update_of_ne hp] at ho'
    by_cases hpb : p = b + usedHeaderSize
    · subst hpb
      rw [Function.update_self] at ho'
      cases ho'
    · rw [Function.update_of_ne hpb] at ho'
      obtain ⟨c, rfl, hc, hcar⟩ := h₀.usedAt ho'
      exact ⟨c, rfl, (hkeep c hc (fun he => hpb (he ▸ rfl))).carries hcar⟩

/-- A new object in the block `r`. -/
theorem Backed.give (h₀ : Backed h objs) (hused : ∀ c, h'.Used c ↔ h.Used c ∨ c = r)
    (hkeep : ∀ c, h.Used c → Keeps h.arena h'.arena c) (ho : Carries h' r o) :
    Backed h' (Function.update objs (r + usedHeaderSize) (some o)) := by
  have hused' : ∀ c, h'.Used c ↔ (h.Used c ∧ c ≠ r) ∨ c = r := by
    intro c
    rw [hused]
    tauto
  have hback := h₀.replace hused' (fun c hc _ => hkeep c hc) ho
  rwa [Function.update_idem] at hback

end Backed

/-! ## One call -/

section Call
variable {h : Layout} {objs : ℕ → Option Obj} {b p : ℕ} {o : Obj}

theorem Backed.alloc (h₀ : Backed h objs) {len : ℕ} (hlen : 8 ≤ len)
    (hmax : len + usedHeaderSize < u64) :
    ∃ q s', alloc h.arena len = .ok (q, s') ∧ ∃ h' : Layout, h'.arena = s' ∧
      Backed h' (record objs s'.mem q (.alloc len)) := by
  have hhdr : usedHeaderSize = 12 ∧ unusedHeaderSize = 20 := ⟨rfl, rfl⟩
  have hx : unusedHeaderSize ≤ len + usedHeaderSize := by omega
  rcases h.shape.alloc_eq h.real hmax with ⟨-, hrun⟩ | ⟨b, ⟨hb, hfit, -⟩, hrun⟩
  · exact ⟨0, h.arena, hrun, h, rfl, h₀⟩
  · obtain ⟨h', harena, hall⟩ := h.take hb hx hfit
    refine ⟨_, _, hrun, h', harena, ?_⟩
    have hnew := h₀.give (o := found h'.arena.mem (b + usedHeaderSize) len 1)
      (fun c => hall.used_iff hb hx) (fun c hc => hall.keeps hb hc.1 hc.2)
      ⟨hall.fits hfit, one_dvd _, fun i _ => rfl⟩
    rw [← harena, record, if_neg (show b + usedHeaderSize ≠ 0 by omega)]
    exact hnew

/-- Of the old blocks `aligned_alloc` uses none, and of the new ones `r` alone. -/
theorem AlignedTaken.used_iff {h' : Layout} {len align r c : ℕ}
    (ht : AlignedTaken h h' len align b r) (hb : b ∈ h.unused) :
    h'.Used c ↔ h.Used c ∨ c = r := by
  have hB := h.shape.sub hb
  constructor
  · rintro ⟨hc, hcF⟩
    by_cases hcr : c = r
    · exact Or.inr hcr
    by_cases hcB : c ∈ h.blocks
    · have hcb : c ≠ b := by
        rintro rfl
        have hle := ht.inside.1
        exact hcF (ht.leading (by omega)).1
      exact Or.inl ⟨hcB, fun hu => hcF ((ht.others c hcB hcb).2.1.mpr hu)⟩
    -- a block that is neither old nor `r` lies inside an old one, which has only unused pieces left
    exfalso
    have hlow := h'.shape.low c hc
    have hlt := h'.shape.blocks.lt c hc
    rw [ht.base] at hlow
    rw [ht.endAddr] at hlt
    have hne : h.arena.base ≠ c := fun he => hcB (he ▸ h.shape.bottom)
    have hbelow : ∃ y ∈ h.blocks, y < c := ⟨h.arena.base, h.shape.bottom, by omega⟩
    obtain ⟨d, hd, hgap⟩ := exists_gap_below hbelow
    have hdc := hgap.1
    have htop : c < d + h.arena.get d .next := by
      by_contra hno
      have hmem := h.shape.next_mem hd
      have hroom := h.shape.room d hd
      have hhdr : unusedHeaderSize = 20 := rfl
      rcases hmem with hmem | hmem
      · have := hgap.2 _ hmem
        by_cases he : d + h.arena.get d .next = c
        · exact hcB (he ▸ hmem)
        · omega
      · have hend : d + h.arena.get d .next = h.arena.endAddr := hmem
        omega
    by_cases hdb : d = b
    · subst hdb
      have hle := ht.inside.1
      by_cases hcr' : c < r
      · obtain ⟨hlead, hnext⟩ := ht.leading (by omega)
        have := h'.shape.le_of_lt (h'.shape.sub hlead) (Shape.mem_headers hc) hdc
        omega
      · have hover := h'.shape.le_of_lt ht.taken.1 (Shape.mem_headers hc) (by omega)
        obtain ⟨htail, hnext⟩ := ht.trailing _ rfl (by omega)
        by_cases he : r + h'.arena.get r .next = c
        · exact hcF (he ▸ htail)
        · have := h'.shape.le_of_lt (h'.shape.sub htail) (Shape.mem_headers hc) (by omega)
          omega
    · obtain ⟨hd', -, hnext⟩ := ht.others d hd hdb
      have := h'.shape.le_of_lt hd' (Shape.mem_headers hc) hdc
      omega
  · rintro (⟨hc, hcF⟩ | rfl)
    · have hcb : c ≠ b := fun he => hcF (he ▸ hb)
      obtain ⟨hc', hiff, -⟩ := ht.others c hc hcb
      exact ⟨hc', fun hu => hcF (hiff.mp hu)⟩
    · exact ht.taken

theorem AlignedTaken.keeps {h' : Layout} {len align r c : ℕ}
    (ht : AlignedTaken h h' len align b r) (hb : b ∈ h.unused) (hc : h.Used c) :
    Keeps h.arena h'.arena c :=
  ⟨(ht.others c hc.1 fun he => hc.2 (he ▸ hb)).2.2, ht.payload c hc.1 hc.2⟩

/-- The block at which the scan ends is not cramped. -/
theorem not_cramped_of_leavesWhole (h : Layout) {len k : ℕ}
    (hmax : len + usedHeaderSize + 2 ^ k < u64) (hs : LeavesWhole h.arena (.alignedAlloc len k))
    (b : ℕ) :
    ¬ Cramped h.arena h.unused (len + usedHeaderSize) (2 ^ k) b := by
  intro hc
  have hlt := h.shape.frees.lt b hc.mem
  have hspace := h.shape.space
  have hstart : AlignedBelow h.arena h.unused (len + usedHeaderSize) (2 ^ k) h.arena.free 0 := by
    have hnone : ∀ c ∈ h.unused, ¬ c < h.arena.free :=
      fun c hc => Nat.not_lt.mpr (h.shape.lowest c hc)
    exact ⟨Or.inl ⟨rfl, fun c hc hlt => absurd hlt (hnone c hc)⟩,
      fun c hc _ hlt => absurd hlt (hnone c hc), fun c hc hlt => absurd hlt (hnone c hc)⟩
  obtain ⟨best, hrun, hbest⟩ := h.shape.alignedFit h.real hmax h.shape.head
    (show h.arena.endAddr < h.arena.free + u64 by omega) hstart
  rw [LeavesWhole, hrun] at hs
  rcases hbest.passed b hc.mem hlt hc.roomy with rfl | ⟨d, hd, hbd, -, hsup⟩
  · rcases hs with hal | hwide
    · exact hc.unaligned hal
    · exact absurd hc.narrow (Nat.not_lt.mpr hwide)
  · exact hc.final d hd hbd hsup

theorem Backed.alignedAlloc (h₀ : Backed h objs) {len k : ℕ} (hlen : 8 ≤ len)
    (hmax : len + usedHeaderSize + 2 ^ k < u64) (hs : LeavesWhole h.arena (.alignedAlloc len k)) :
    ∃ q s', alignedAlloc h.arena len (2 ^ k) = .ok (q, s') ∧ ∃ h' : Layout, h'.arena = s' ∧
      Backed h' (record objs s'.mem q (.alignedAlloc len k)) := by
  obtain ⟨q, s', hrun, -, hzero, hsome⟩ :=
    alignedOk_of_wide h hlen hmax (not_cramped_of_leavesWhole h hmax hs)
  refine ⟨q, s', hrun, ?_⟩
  by_cases hq : q = 0
  · rw [hzero hq, hq]
    exact ⟨h, rfl, h₀⟩
  · obtain ⟨b, hb, r, rfl, h', rfl, ht⟩ := hsome hq
    refine ⟨h', rfl, ?_⟩
    rw [record, if_neg hq]
    exact h₀.give (fun c => ht.used_iff hb) (fun c hc => ht.keeps hb hc)
      ⟨ht.room, ht.aligned, fun i _ => rfl⟩

theorem Backed.free (h₀ : Backed h objs) (hp : (objs p).isSome)
    (hs : LeavesWhole h.arena (.free p)) :
    ∃ s', free h.arena p = .ok s' ∧ ∃ h' : Layout, h'.arena = s' ∧
      Backed h' (Function.update objs p none) := by
  obtain ⟨o, ho⟩ := Option.isSome_iff_exists.mp hp
  obtain ⟨b, rfl, hb, -⟩ := h₀.usedAt ho
  rw [LeavesWhole, h.shape.ptrBlock_eq hb.1] at hs
  obtain ⟨s', hrun, hbase, -, B', F', hs', hused, hkeep⟩ :=
    h.shape.release h.real hb.1 hb.2 hs
  obtain ⟨h', rfl, hB', hF'⟩ := hs'.layout (hbase ▸ h.real)
  refine ⟨_, hrun, h', rfl, h₀.take ?_ fun c hc hcb => hkeep c hc.1 hc.2 hcb⟩
  intro c
  rw [Layout.Used, hB', hF']
  exact hused c

/-- The requests of the client that `realloc` serves. -/
theorem resizable_of_leavesWhole (h : Layout) (hb : h.Used b) {size : ℕ} (hsize : 8 ≤ size)
    (hmax : size + usedHeaderSize < u32)
    (hs : LeavesWhole h.arena (.realloc (b + usedHeaderSize) size)) : Resizable h b size := by
  have hhdr : usedHeaderSize = 12 ∧ unusedHeaderSize = 20 := ⟨rfl, rfl⟩
  have hu : u32 < u64 := by decide
  have hx : unusedHeaderSize ≤ size + usedHeaderSize := by omega
  have hplace : InPlace h b size ↔ TakesAbove h.arena b (b + h.arena.get b .next) size := by
    constructor
    · rintro ⟨hn, hfit⟩
      refine ⟨(h.shape.frees.lt _ hn).ne, ?_, hfit⟩
      rw [h.shape.used _ (h.shape.sub hn), if_pos hn]
    · rintro ⟨hend, hfree, hfit⟩
      have hn : b + h.arena.get b .next ∈ h.blocks := (h.shape.next_mem hb.1).resolve_right hend
      refine ⟨?_, hfit⟩
      by_contra hno
      rw [h.shape.used _ hn, if_neg hno] at hfree
      cases hfree
  rw [LeavesWhole, h.shape.ptrBlock_eq hb.1, h.shape.next_eq hb.1] at hs
  refine ⟨?_, ?_⟩
  · intro hin
    rwa [if_pos (hplace.mp hin)] at hs
  · intro hout t hbest
    rcases h.shape.alloc_eq h.real (hmax.trans hu) with ⟨hnone, -⟩ | ⟨t', hbest', hrun⟩
    · exact absurd (hnone t hbest.1) (Nat.not_lt.mpr hbest.2.1)
    obtain rfl := hbest.unique hbest'
    obtain ⟨h', harena, hall⟩ := h.take hbest.1 hx hbest.2.1
    have ht : t ∈ h'.blocks := ((hall.used_iff hbest.1 hx).mpr (Or.inr rfl)).1
    have hbu : h'.Used b := (hall.used_iff hbest.1 hx).mpr (Or.inl hb)
    rw [if_neg fun hp => hout (hplace.mpr hp), hrun, ← harena] at hs
    obtain hz | ⟨hcopy, hhole⟩ := hs
    · omega
    rw [h'.shape.ptrBlock_eq ht] at hcopy
    refine ⟨hcopy.trans_eq hall.size, ?_⟩
    rw [HoleBelow, unusedAfter, ← hall.unused]
    have hlt := h'.shape.blocks.lt b hbu.1
    rcases h'.shape.head with hfree | hfree
    · rcases hhole with hlow | hend
      · exact Or.inr ⟨_, hfree, hlow⟩
      · have := h'.shape.frees.lt _ hfree
        omega
    · left
      refine Finset.eq_empty_of_forall_notMem fun u hu => ?_
      have h₁ := h'.shape.lowest u hu
      have h₂ := h'.shape.frees.lt u hu
      omega

theorem Backed.realloc (h₀ : Backed h objs) (hp : (objs p).isSome) {size : ℕ} (hsize : 8 ≤ size)
    (hmax : size + usedHeaderSize < u32) (hs : LeavesWhole h.arena (.realloc p size)) :
    ∃ q s', realloc h.arena p size = .ok (q, s') ∧ ∃ h' : Layout, h'.arena = s' ∧
      Backed h' (record objs s'.mem q (.realloc p size)) := by
  have hhdr : usedHeaderSize = 12 := rfl
  obtain ⟨o, ho⟩ := Option.isSome_iff_exists.mp hp
  obtain ⟨b, rfl, hb, hcar⟩ := h₀.usedAt ho
  obtain ⟨q, s', hrun, hcase⟩ := reallocOk_of_resizable h hb.1 hb.2 hsize hmax
    (resizable_of_leavesWhole h hb hsize hmax hs)
  refine ⟨q, s', hrun, ?_⟩
  rcases hcase with ⟨rfl, rfl⟩ | ⟨r, rfl, h', rfl, hres⟩
  · exact ⟨h, rfl, h₀⟩
  · refine ⟨h', rfl, ?_⟩
    rw [record, if_neg (show r + usedHeaderSize ≠ 0 by omega), ho, Option.map_some]
    refine h₀.replace hres.used (fun c hc hcb => hres.others c hc.1 hc.2 hcb)
      ⟨hres.room, one_dvd _, ?_⟩
    intro i hi
    dsimp only [resized]
    split_ifs with hold
    · have hroom := hcar.room
      rw [hres.contents i hi (by omega)]
      exact hcar.bytes i hold
    · rfl

/-- A write into an object stays in its block. -/
theorem Backed.store (h₀ : Backed h objs) {i : ℕ} (v : UInt8) (ho : objs p = some o)
    (hi : i < o.len) :
    ∃ h' : Layout, h'.arena = { h.arena with mem := Function.update h.arena.mem (p + i) v } ∧
      Backed h' (Function.update objs p (some { o with data := Function.update o.data i v })) := by
  obtain ⟨b, rfl, hb, hcar⟩ := h₀.usedAt ho
  have hroom := hcar.room
  obtain ⟨hs, hnext⟩ := h.shape.store hb.1 hb.2 (show usedHeaderSize + i < _ by omega) v
  obtain ⟨h', harena, hB', hF'⟩ := hs.layout h.real
  refine ⟨h', harena, ?_⟩
  have hused : ∀ c, h'.Used c ↔ (h.Used c ∧ c ≠ b) ∨ c = b := by
    intro c
    have hsame : h'.Used c ↔ h.Used c := by rw [Layout.Used, hB', hF', Layout.Used]
    rw [hsame]
    constructor
    · tauto
    · rintro (⟨hc, -⟩ | rfl)
      · exact hc
      · exact hb
  have hkeep : ∀ c, h.Used c → c ≠ b → Keeps h.arena h'.arena c := by
    intro c hc hcb
    rw [harena]
    refine ⟨hnext c hc.1, fun x hcx hxc => Function.update_of_ne ?_ _ _⟩
    have h₁ := fun hlt : c < b => h.shape.le_of_lt hc.1 (Shape.mem_headers hb.1) hlt
    have h₂ := fun hlt : b < c => h.shape.le_of_lt hb.1 (Shape.mem_headers hc.1) hlt
    omega
  have hwritten : Carries h' b { o with data := Function.update o.data i v } := by
    refine ⟨?_, hcar.aligned, ?_⟩
    · rw [harena, hnext b hb.1]
      exact hroom
    · intro j hj
      rw [harena]
      dsimp only
      by_cases hji : j = i
      · subst hji
        simp only [Function.update_self]
      · rw [Function.update_of_ne (by omega), Function.update_of_ne hji]
        exact hcar.bytes j hj
  have hback := h₀.replace hused hkeep hwritten
  rwa [Function.update_idem] at hback

end Call

/-! ## Runs -/

/-- The heap is whole, and its used blocks are the objects. -/
def Sound (st : Objects) : Prop := ∃ h : Layout, h.arena = st.arena ∧ Backed h st.objs

theorem Sound.promised {st : Objects} (h : Sound st) : Promised st := by
  obtain ⟨h, harena, hback⟩ := h
  have hkept := hback.promised
  rwa [harena] at hkept

theorem perform_sound {st : Objects} {c : Call} (h : Sound st) (hp : Permitted st c)
    (hs : LeavesWhole st.arena c) : ∃ st', perform st c = .ok st' ∧ Sound st' := by
  obtain ⟨arena, objs⟩ := st
  obtain ⟨h, rfl, hback⟩ := h
  have hdone : ∀ q s', answer h.arena c = .ok (q, s') →
      (∃ h' : Layout, h'.arena = s' ∧ Backed h' (record objs s'.mem q c)) →
      ∃ st', perform ⟨h.arena, objs⟩ c = .ok st' ∧ Sound st' := by
    intro q s' hrun hnext
    refine ⟨⟨s', record objs s'.mem q c⟩, ?_, hnext⟩
    rw [perform, hrun]
    rfl
  cases c with
  | alloc len =>
    obtain ⟨q, s', hrun, hnext⟩ := hback.alloc hp.1 hp.2
    exact hdone q s' hrun hnext
  | alignedAlloc len k =>
    obtain ⟨q, s', hrun, hnext⟩ := hback.alignedAlloc hp.1 hp.2 hs
    exact hdone q s' hrun hnext
  | realloc p size =>
    obtain ⟨q, s', hrun, hnext⟩ := hback.realloc hp.1 hp.2.1 hp.2.2 hs
    exact hdone q s' hrun hnext
  | free p =>
    obtain ⟨s', hrun, hnext⟩ := hback.free hp hs
    refine hdone 0 s' ?_ hnext
    rw [answer, hrun]
    rfl
  | store p i v =>
    obtain ⟨o, ho, hi⟩ := hp
    have ho' : objs p = some o := ho
    refine hdone 0 _ rfl ?_
    simp only [record, ho', Option.map_some]
    exact hback.store v ho' hi

/-- A region that has just been initialised. -/
def fresh (mem : Store) (base size : ℕ) : Objects := ⟨allocInit mem base size, fun _ => none⟩

theorem fresh_sound (mem : Store) {base size : ℕ} (hsize : unusedHeaderSize ≤ size)
    (hlt : size < u32) (hspace : base + size < u64) (hpos : 0 < base) :
    Sound (fresh mem base size) := by
  refine ⟨onePiece mem hsize hlt hspace hpos, rfl, ?_, ?_⟩
  · intro c
    refine iff_of_false ?_ (by simp [fresh])
    rintro ⟨hc, hcF⟩
    exact hcF hc
  · intro p o ho
    cases ho

/-- Along every run of calls that are permitted and served, no call halts, and the objects are
apart, aligned and hold what was written to them. -/
theorem perform_promised (mem : Store) {base size : ℕ} (hsize : unusedHeaderSize ≤ size)
    (hlt : size < u32) (hspace : base + size < u64) (hpos : 0 < base) (cs : List Call)
    (hp : Along perform Permitted (fresh mem base size) cs)
    (hs : Along perform (fun st c => LeavesWhole st.arena c) (fresh mem base size) cs) :
    ∃ st, cs.foldlM perform (fresh mem base size) = .ok st ∧ Promised st := by
  have hstep : ∀ st c, Sound st → Permitted st c ∧ LeavesWhole st.arena c →
      ∃ st', perform st c = .ok st' ∧ Sound st' :=
    fun st c h hc => perform_sound h hc.1 hc.2
  obtain ⟨st, hrun, hst⟩ :=
    Along.foldlM hstep (hp.and hs) (fresh_sound mem hsize hlt hspace hpos)
  exact ⟨st, hrun, hst.promised⟩

/-- A block below one that is aligned to 256 bytes grows, and keeps the byte written to it. -/
def growBelow : List Call :=
  [.alloc 8, .alignedAlloc 64 8, .alloc 20, .store 0x1020 3 9, .realloc 0x1020 40, .free 0x1100,
    .store 0x1020 39 1]

theorem perform_promised_growBelow :
    ∃ st, growBelow.foldlM perform (fresh (fun _ => 0) 0x1000 1000) = .ok st ∧ Promised st :=
  perform_promised (fun _ => 0) (by decide) (by decide) (by decide) (by decide) growBelow
    (by decide +kernel) (by decide +kernel)

end JanusRT.Alloc
