import JanusRT.AllocRuns

/-!
# Requests of any length

A heap that is only allocated from has one unused block, its tail. The request length is
a `size_t` that nobody has looked at. The sum with the header size may wrap, and then a
small block is given out for a huge request. A request below four bytes that splits the
tail puts the header of the remainder over the links of the block it is cut off, before
these have been read. All other requests are served.
-/
namespace JanusRT.Alloc

open Outcome

/-- The allocator and what it has given out, newest first: pointers with the lengths that
were asked for. -/
structure Served where
  arena : Arena
  given : List (ℕ × ℕ)

def request (st : Served) (len : ℕ) : Except Halt Served := do
  let (p, s) ← alloc st.arena len
  return ⟨s, if p = 0 then st.given else (p, len) :: st.given⟩

/-- The region right after `alloc_init`. -/
def unserved (mem : ByteStore.Store) (base size : ℕ) : Served := ⟨allocInit mem base size, []⟩

/-- Every pointer has its length in bytes below the header that follows, and no two
payloads overlap. -/
structure Kept (st : Served) : Prop where
  room : ∀ g ∈ st.given, g.1 + g.2 ≤ st.arena.next (ptrBlock g.1) ∧
    st.arena.next (ptrBlock g.1) ≤ st.arena.endAddr
  apart : st.given.Pairwise fun g h => h.1 + h.2 ≤ g.1 ∨ g.1 + g.2 ≤ h.1

/-- The requests that are served: nothing is left to give out, or the length with its
header is a `size_t` and the remainder, if there is one, does not reach into the links. -/
def Sane (st : Served) (len : ℕ) : Prop :=
  st.arena.free = st.arena.endAddr ∨
    (len + usedHeaderSize < u64 ∧
      (4 ≤ len ∨ ¬ Cuts st.arena st.arena.free (len + usedHeaderSize)))

instance (st : Served) (len : ℕ) : Decidable (Sane st len) :=
  inferInstanceAs (Decidable (_ ∨ _))

/-- The unused tail of the region, or nothing. -/
structure Tail (s : Arena) : Prop extends Region s.base s.endAddr where
  low : s.base ≤ s.free
  high : s.free ≤ s.endAddr
  next : s.free ≠ s.endAddr → s.get s.free .next = s.endAddr - s.free
  nextFree : s.free ≠ s.endAddr → s.get s.free .nextFree = s.endAddr - s.free
  room : s.free ≠ s.endAddr → minSplitThreshold ≤ s.endAddr - s.free

namespace Tail
variable {s : Arena} {xlen len x : ℕ}

theorem nfree_eq (h : Tail s) (hne : s.free ≠ s.endAddr) : s.nfree s.free = s.endAddr := by
  have hhigh := h.high
  have hspace := h.space
  rw [Arena.nfree, h.nextFree hne, add64_eq (by omega)]
  omega

/-- Cutting the tail: the remainder is the new tail, and what lies below is not written. -/
theorem split (h : Tail s) (hne : s.free ≠ s.endAddr) (hx : usedHeaderSize + 4 ≤ xlen)
    (hcut : Cuts s s.free xlen) :
    (split s s.free xlen).nfree s.free = s.free + xlen ∧
      (Alloc.split s s.free xlen).get s.free .next = xlen ∧
      (Alloc.split s s.free xlen).get (s.free + xlen) .next = s.endAddr - (s.free + xlen) ∧
      (Alloc.split s s.free xlen).get (s.free + xlen) .nextFree = s.endAddr - (s.free + xlen) ∧
      ∀ x < s.free, (Alloc.split s s.free xlen).mem x = s.mem x := by
  have hhdr : usedHeaderSize = 12 ∧ minSplitThreshold = 40 := ⟨rfl, rfl⟩
  have hlow := h.low
  have hspace := h.space
  have hspan := h.span
  have hnext := h.next hne
  unfold Cuts at hcut
  obtain ⟨b, hb⟩ : ∃ b, s.free = b := ⟨_, rfl⟩
  obtain ⟨r, hr⟩ : ∃ r, b + xlen = r := ⟨_, rfl⟩
  have hnf := h.nextFree hne
  rw [hb] at hnext hnf hne hlow hcut ⊢
  rw [hr]
  have hmod : xlen % u32 = xlen := Nat.mod_eq_of_lt (by have := s.get_lt b .next; omega)
  have her : add64 b xlen = r := by rw [add64_eq (by omega), hr]
  have hsub : sub32 (s.endAddr - b) xlen = s.endAddr - r := by
    rw [sub32_eq (by omega) (by omega)]
    omega
  have hend : add64 r (s.endAddr - r) = s.endAddr := by
    rw [add64_eq (by omega)]
    omega
  have hsmall : (s.endAddr - r) % u32 = s.endAddr - r := Nat.mod_eq_of_lt (by omega)
  -- only the link back of the block is under the header of the remainder
  have hfar : ∀ {j k : Field}, j ≠ .prevFree → b + j.offset + 4 ≤ r + k.offset := by
    intro j k hj
    cases j <;> cases k <;> simp [Field.offset] at hj ⊢ <;> omega
  have hin : ∀ {a : ℕ} {j k : Field}, j ≠ k →
      a + j.offset + 4 ≤ a + k.offset ∨ a + k.offset + 4 ≤ a + j.offset := by
    intro a j k hjk
    have := Field.offset_apart hjk
    omega
  have hrb : ∀ (t : Arena) (k j : Field) (v : ℕ), j ≠ .prevFree →
      (t.set r k v).get b j = t.get b j := fun t k j v hj => Arena.get_set_far (.inr (hfar hj))
  have hbr : ∀ (t : Arena) (k j : Field) (v : ℕ), j ≠ .prevFree →
      (t.set b j v).get r k = t.get r k := fun t k j v hj => Arena.get_set_far (.inl (hfar hj))
  have hself : ∀ (t : Arena) (a : ℕ) (k j : Field) (v : ℕ), j ≠ k →
      (t.set a j v).get a k = t.get a k := fun t a k j v hjk => Arena.get_set_far (hin hjk)
  have hstate : Alloc.split s b xlen =
      ((((((s.set r .next (s.endAddr - r)).set b .next xlen).set r .prev xlen).set r .nextFree
        (s.endAddr - r)).set b .nextFree xlen).set r .prevFree xlen).set r .used 0 := by
    simp [Alloc.split, hmod, her, hrb, hbr, hself, Arena.get_set_same, Arena.next, Arena.nfree,
      hnext, hnf, hsub, hend, Arena.setBlock, hsmall]
  rw [hstate]
  refine ⟨?_, ?_, ?_, ?_, ?_⟩
  · simp [Arena.nfree, hrb, Arena.get_set_same, hmod, her]
  · simp [hrb, hself, Arena.get_set_same, hmod]
  · simp [hbr, hself, Arena.get_set_same, hsmall]
  · simp [hbr, hself, Arena.get_set_same, hsmall]
  · intro x hx
    have hoff : ∀ a k, b ≤ a → Off x a k := fun a k ha => .inl (by omega)
    simp [Arena.set_mem, hoff, show b ≤ r by omega]

/-- The tail of a later state starts higher up. -/
theorem moved (h : Tail s) {s' : Arena} {n : ℕ} (hbase : s'.base = s.base)
    (hend : s'.endAddr = s.endAddr) (hfree : s'.free = n) (hlow : s.free ≤ n)
    (hhigh : n ≤ s.endAddr) (hnext : n ≠ s.endAddr → s'.get n .next = s.endAddr - n)
    (hnextFree : n ≠ s.endAddr → s'.get n .nextFree = s.endAddr - n)
    (hroom : n ≠ s.endAddr → minSplitThreshold ≤ s.endAddr - n) : Tail s' := by
  have hregion := h.toRegion
  rw [← hbase, ← hend] at hregion
  rw [← hend, ← hfree] at hnext hnextFree hroom hhigh
  refine ⟨hregion, ?_, hhigh, hnext, hnextFree, hroom⟩
  rw [hbase, hfree]
  exact h.low.trans hlow

/-- Using up the first unused block when the next one is at `n`. -/
theorem useBlock_first {n : ℕ} (hn : s.nfree s.free = n) (hle : s.free + usedHeaderSize ≤ n) :
    (useBlock s s.free).free = n ∧ (useBlock s s.free).get s.free .next = s.get s.free .next ∧
      (useBlock s s.free).get n .next = s.get n .next ∧
      (useBlock s s.free).get n .nextFree = s.get n .nextFree ∧
      ∀ x < s.free, (useBlock s s.free).mem x = s.mem x := by
  have hhdr : usedHeaderSize = 12 := rfl
  have hoff : Field.next.offset = 4 ∧ Field.used.offset = 8 ∧ Field.nextFree.offset = 12 ∧
      Field.prevFree.offset = 16 := ⟨rfl, rfl, rfl, rfl⟩
  have hstate : useBlock s s.free =
      (Arena.set { s with free := n } n .prevFree 0).set s.free .used 1 := by
    rw [useBlock, if_pos rfl, hn]
  rw [hstate]
  refine ⟨rfl, ?_, ?_, ?_, ?_⟩
  · rw [Arena.get_set_far (by omega), Arena.get_set_far (by omega), Arena.get_withFree]
  · rw [Arena.get_set_far (by omega), Arena.get_set_far (by omega), Arena.get_withFree]
  · rw [Arena.get_set_far (by omega), Arena.get_set_far (by omega), Arena.get_withFree]
  · intro x hx
    rw [Arena.set_mem (.inl (by omega)), Arena.set_mem (.inl (by omega))]

/-- A request on the tail: it is too long, or the tail is used up, or cut. What lies below
the tail is not written. -/
theorem alloc (h : Tail s) (hpos : 0 < s.base) (hne : s.free ≠ s.endAddr)
    (hlen : len + usedHeaderSize < u64)
    (hsmall : 4 ≤ len ∨ ¬ Cuts s s.free (len + usedHeaderSize)) :
    alloc s len = .ok (0, s) ∨
      ∃ s', alloc s len = .ok (s.free + usedHeaderSize, s') ∧ Tail s' ∧ s'.base = s.base ∧
        s'.endAddr = s.endAddr ∧ s.free + usedHeaderSize + len ≤ s.free + s'.get s.free .next ∧
        s.free + s'.get s.free .next = s'.free ∧ ∀ x < s.free, s'.mem x = s.mem x := by
  have hhdr : usedHeaderSize = 12 ∧ minSplitThreshold = 40 := ⟨rfl, rfl⟩
  have hlow := h.low
  have hhigh := h.high
  have hspace := h.space
  have hspan := h.span
  have hnext := h.next hne
  have hroom := h.room hne
  have hptr : blockPtr s.free = s.free + usedHeaderSize := add64_eq (by omega)
  obtain ⟨xlen, hxlen⟩ : ∃ xlen, len + usedHeaderSize = xlen := ⟨_, rfl⟩
  rw [hxlen] at hsmall
  have hscan := bestFit_single hne (h.nfree_eq hne) xlen
  by_cases hfit : xlen ≤ s.get s.free .next
  · right
    rw [if_pos hfit] at hscan
    refine ⟨useBlock (cutTail s s.free xlen) s.free, ?_, ?_⟩
    · rw [Alloc.alloc, Nat.mod_eq_of_lt hlen, hxlen, hscan, ok_bind, if_neg (by omega), hptr]
      rfl
    rw [Shape.cutTail_eq hfit]
    split_ifs with hcut
    · have hlen4 := hsmall.resolve_right fun hno => hno hcut
      obtain ⟨hnf, hsize, hrest, hrestF, hkeep⟩ := h.split hne (by omega) hcut
      have hfirst := useBlock_first (s := Alloc.split s s.free xlen) (n := s.free + xlen)
        (by rw [split_free, hnf]) (by rw [split_free]; omega)
      rw [split_free] at hfirst
      obtain ⟨hfree, hsize', hrest', hrestF', hkeep'⟩ := hfirst
      rw [hsize] at hsize'
      rw [hrest] at hrest'
      rw [hrestF] at hrestF'
      unfold Cuts at hcut
      refine ⟨h.moved (by simp) (by simp) hfree (by omega) (by omega) (fun _ => hrest')
        (fun _ => hrestF') (fun _ => by omega), by simp, by simp, by omega, by omega, ?_⟩
      intro x hx
      rw [hkeep' x hx, hkeep x hx]
    · obtain ⟨hfree, hsize', _, _, hkeep'⟩ := useBlock_first (h.nfree_eq hne) (by omega)
      refine ⟨h.moved (by simp) (by simp) hfree hhigh le_rfl (fun hno => absurd rfl hno)
        (fun hno => absurd rfl hno) (fun hno => absurd rfl hno), by simp, by simp, by omega,
        by omega, hkeep'⟩
  · left
    rw [if_neg hfit] at hscan
    rw [Alloc.alloc, Nat.mod_eq_of_lt hlen, hxlen, hscan, ok_bind]
    rfl

end Tail

/-- What has been given out lies below the tail, block after block. -/
structure Growing (st : Served) : Prop where
  real : 0 < st.arena.base
  tail : Tail st.arena
  given : ∀ g ∈ st.given, ∃ b, g.1 = b + usedHeaderSize ∧ g.1 + g.2 ≤ b + st.arena.get b .next ∧
    b + st.arena.get b .next ≤ st.arena.free
  apart : st.given.Pairwise fun g h => h.1 + h.2 ≤ g.1

theorem Growing.kept {st : Served} (h : Growing st) : Kept st := by
  have hhigh := h.tail.high
  have hspace := h.tail.space
  refine ⟨?_, h.apart.imp .inl⟩
  intro g hg
  obtain ⟨b, hp, hroom, hle⟩ := h.given g hg
  have hblock : ptrBlock g.1 = b := by
    rw [hp, ptrBlock, sub64_eq (by omega) (by omega), Nat.add_sub_cancel]
  rw [hblock, Arena.next, add64_eq (by omega)]
  exact ⟨hroom, by omega⟩

/-- The scan of an empty list. -/
theorem alloc_empty {s : Arena} (hend : s.free = s.endAddr) (len : ℕ) :
    alloc s len = .ok (0, s) := by
  have hscan : ∀ xlen k, bestFit s xlen (k + 1) s.free 0 = .ok 0 := fun xlen k => if_pos hend
  have hfuel : u64 = u64 - 1 + 1 := by decide
  have hrun := hscan ((len + usedHeaderSize) % u64) (u64 - 1)
  rw [← hfuel] at hrun
  rw [alloc, hrun]
  rfl

/-- One request that is served. -/
theorem request_growing {st : Served} {len : ℕ} (h : Growing st) (hsane : Sane st len) :
    ∃ st', request st len = .ok st' ∧ Growing st' := by
  have hhdr : usedHeaderSize = 12 := rfl
  have hnull : alloc st.arena len = .ok (0, st.arena) → ∃ st', request st len = .ok st' ∧ Growing st' := by
    intro hrun
    refine ⟨st, ?_, h⟩
    rw [request, hrun]
    rfl
  by_cases hend : st.arena.free = st.arena.endAddr
  · exact hnull (alloc_empty hend len)
  obtain ⟨hlen, hsmall⟩ := hsane.resolve_left hend
  rcases h.tail.alloc h.real hend hlen hsmall with hrun | ⟨s', hrun, htail, hbase, _, hroom, hmove, hkeep⟩
  · exact hnull hrun
  refine ⟨⟨s', (st.arena.free + usedHeaderSize, len) :: st.given⟩, ?_, ?_⟩
  · rw [request, hrun]
    rfl
  have hnext : ∀ b, b + st.arena.get b .next ≤ st.arena.free →
      usedHeaderSize ≤ st.arena.get b .next → s'.get b .next = st.arena.get b .next := by
    intro b hb hb'
    refine ByteStore.rd32_congr fun x _ hx => hkeep x ?_
    have hoff : Field.next.offset = 4 := rfl
    omega
  refine ⟨hbase ▸ h.real, htail, ?_, List.pairwise_cons.mpr ⟨?_, h.apart⟩⟩
  · intro g hg
    rcases List.mem_cons.mp hg with rfl | hg
    · exact ⟨st.arena.free, rfl, hroom, hmove.le⟩
    · obtain ⟨b, hp, hlow, hle⟩ := h.given g hg
      refine ⟨b, hp, ?_⟩
      change _ ∧ b + s'.get b .next ≤ s'.free
      change g.1 + g.2 ≤ b + s'.get b .next ∧ _
      rw [hnext b hle (by omega)]
      exact ⟨hlow, by omega⟩
  · intro g hg
    obtain ⟨b, _, hlow, hle⟩ := h.given g hg
    change g.1 + g.2 ≤ st.arena.free + usedHeaderSize
    omega

/-- `alloc_init` makes the whole region the tail. -/
theorem unserved_growing (mem : ByteStore.Store) {base size : ℕ} (hsize : minSplitThreshold ≤ size)
    (hlt : size < u32) (hspace : base + size < u64) (hpos : 0 < base) :
    Growing (unserved mem base size) := by
  have hhdr : unusedHeaderSize = 20 ∧ minSplitThreshold = 40 := ⟨rfl, rfl⟩
  obtain ⟨hs, _⟩ := allocInit_shape mem (show unusedHeaderSize ≤ size by omega) hlt hspace
  have hmem : base ∈ ({base} : Finset ℕ) := Finset.mem_singleton_self base
  have hend : (allocInit mem base size).endAddr = base + size := add64_eq hspace
  have hfree : (allocInit mem base size).free = base := rfl
  obtain ⟨hgap, hnext⟩ := hs.blocks.next base hmem
  obtain ⟨hgapF, hnextF⟩ := hs.frees.next base hmem
  have hnext := hnext.resolve_left fun hz => hgap.1.ne' (Finset.mem_singleton.mp hz)
  have hnextF := hnextF.resolve_left fun hz => hgapF.1.ne' (Finset.mem_singleton.mp hz)
  refine ⟨hpos, ⟨hs.toRegion, le_rfl, ?_, fun _ => ?_, fun _ => ?_, fun _ => ?_⟩,
    fun g hg => absurd hg List.not_mem_nil, List.Pairwise.nil⟩
  all_goals
    simp only [unserved, hend, hfree]
    omega

/-- Every pointer of a run of served requests has its bytes to itself, and every call
returns. -/
theorem requests_kept (mem : ByteStore.Store) {base size : ℕ} (hsize : minSplitThreshold ≤ size)
    (hlt : size < u32) (hspace : base + size < u64) {lens : List ℕ}
    (hsane : Along request Sane (unserved mem base size) lens) :
    ∃ st, lens.foldlM request (unserved mem base size) = .ok st ∧ Kept st := by
  have hhdr : unusedHeaderSize = 20 ∧ minSplitThreshold = 40 := ⟨rfl, rfl⟩
  rcases Nat.eq_zero_or_pos base with rfl | hpos
  · -- a region at `NULL` gives out nothing
    have hstay : ∀ st len, st = unserved mem 0 size → Sane st len →
        ∃ st', request st len = .ok st' ∧ st' = unserved mem 0 size := by
      rintro _ len rfl _
      refine ⟨_, ?_, rfl⟩
      change (alloc (allocInit mem 0 size) len >>= _) = _
      rw [alloc_null mem (by omega) hlt]
      rfl
    obtain ⟨st, hrun, rfl⟩ := Along.foldlM hstay hsane rfl
    exact ⟨_, hrun, fun g hg => absurd hg List.not_mem_nil, List.Pairwise.nil⟩
  · obtain ⟨st, hrun, hst⟩ := Along.foldlM (fun _ _ hst hle => request_growing hst hle) hsane
      (unserved_growing mem hsize hlt hspace hpos)
    exact ⟨st, hrun, hst.kept⟩

/-- The region is cut twice, asked for too much, used up whole, and asked once more. -/
def assorted : List ℕ := [4, 1000, 20, 3, 2 ^ 64 - 1]

theorem assorted_kept : Along request Sane (unserved (fun _ => 0) 0x1000 100) assorted ∧
    ∃ st, assorted.foldlM request (unserved (fun _ => 0) 0x1000 100) = .ok st ∧ Kept st :=
  ⟨by decide +kernel, requests_kept (fun _ => 0) (by decide) (by decide) (by decide)
    (by decide +kernel)⟩

/-- A block that is its own successor. -/
theorem bestFit_stuck {s : Arena} {curr : ℕ} (hne : curr ≠ s.endAddr) (hself : s.nfree curr = curr)
    (xlen fuel best : ℕ) : bestFit s xlen fuel curr best = .error .hang := by
  induction fuel generalizing best with
  | zero => rfl
  | succ fuel ih =>
    rw [bestFit, if_neg hne, hself]
    exact ih _

/-- An empty request makes the remainder its own successor. -/
theorem request_after_empty :
    ∃ st, request (unserved (fun _ => 0) 0x1000 100) 0 = .ok st ∧ request st 0 = .error .hang := by
  have hval : ((request (unserved (fun _ => 0) 0x1000 100) 0).toOption.map fun st =>
      (st.arena.free, st.arena.endAddr, st.arena.nfree 0x100C)) =
      some (0x100C, 0x1064, 0x100C) := by decide +kernel
  cases hrun : request (unserved (fun _ => 0) 0x1000 100) 0 with
  | error e =>
    rw [hrun] at hval
    cases hval
  | ok st =>
    rw [hrun] at hval
    simp only [Except.toOption, Option.map_some, Option.some.injEq, Prod.mk.injEq] at hval
    obtain ⟨hfree, hend, hself⟩ := hval
    refine ⟨st, rfl, ?_⟩
    have hscan := bestFit_stuck (s := st.arena) (show 0x100C ≠ st.arena.endAddr by omega) hself
      ((0 + usedHeaderSize) % u64) u64 0
    rw [request, alloc, hfree, hscan]
    rfl

/-- A request of a whole address space is met with a few bytes, and two empty requests do
not both return. -/
theorem requests_not_kept :
    (¬ ∃ st, [2 ^ 64 - 1].foldlM request (unserved (fun _ => 0) 0x1000 100) = .ok st ∧ Kept st) ∧
      ¬ ∃ st, [0, 0].foldlM request (unserved (fun _ => 0) 0x1000 100) = .ok st ∧ Kept st := by
  constructor
  · rintro ⟨st, hrun, hkept⟩
    have hval : (([2 ^ 64 - 1].foldlM request (unserved (fun _ => 0) 0x1000 100)).toOption.map
        fun st => (st.arena.endAddr, st.given)) = some (0x1064, [(0x100C, 2 ^ 64 - 1)]) := by
      decide +kernel
    rw [hrun] at hval
    simp only [Except.toOption, Option.map_some, Option.some.injEq, Prod.mk.injEq] at hval
    obtain ⟨hend, hgiven⟩ := hval
    have := hkept.room (0x100C, 2 ^ 64 - 1) (by rw [hgiven]; exact List.mem_cons_self)
    omega
  · rintro ⟨st, hrun, _⟩
    obtain ⟨st', hfirst, hsecond⟩ := request_after_empty
    rw [List.foldlM_cons, hfirst, ok_bind, List.foldlM_cons, hsecond] at hrun
    cases hrun

end JanusRT.Alloc
