import JanusRT.Structs
import JanusRT.Lib.ByteStore

/-!
# The best-fit allocator

`alloc.c` over a byte memory. A block is the address of its header: twelve bytes in a
used block, and eight more for the links of the free list in an unused one, which lie
where the payload of a used block begins. All distances are 32-bit fields, pointers
are 64-bit, and the region's end is the terminator of both lists. `NULL` is zero. A
loop that has not ended after as many rounds as there are addresses never ends.
-/
namespace JanusRT.Alloc

open ByteStore

/-- The fields of `ablock_t`. -/
inductive Field
  | prev | next | used | nextFree | prevFree
  deriving DecidableEq, Repr

/-- `offsetof(ablock_t, field)`. -/
def Field.offset : Field → ℕ
  | .prev => 0
  | .next => 4
  | .used => 8
  | .nextFree => 12
  | .prevFree => 16

/-- `USED_HEADER_SIZE`. -/
def usedHeaderSize : ℕ := 3 * 4

/-- `UNUSED_HEADER_SIZE`. -/
def unusedHeaderSize : ℕ := 5 * 4

/-- `MIN_SPLIT_THRESHOLD`. -/
def minSplitThreshold : ℕ := 2 * unusedHeaderSize

/-- `alloc_t` with the memory its blocks live in; `endAddr` is its field `end`. -/
structure Arena where
  base : ℕ
  free : ℕ
  endAddr : ℕ
  mem : Store

/-- Arithmetic on `u32`. -/
def add32 (x y : ℕ) : ℕ := (x + y) % u32

def sub32 (x y : ℕ) : ℕ := (x + (u32 - y)) % u32

/-- `size_t` and pointer arithmetic. -/
def add64 (p d : ℕ) : ℕ := (p + d) % u64

def sub64 (p d : ℕ) : ℕ := (p + (u64 - d)) % u64

/-- `BLOCK_PTR`. -/
def blockPtr (b : ℕ) : ℕ := add64 b usedHeaderSize

/-- `PTR_BLOCK`. -/
def ptrBlock (p : ℕ) : ℕ := sub64 p usedHeaderSize

namespace Arena

/-- `b->field`. -/
def get (s : Arena) (b : ℕ) (k : Field) : ℕ := rd32 s.mem (b + k.offset)

/-- `b->field = v`. -/
def set (s : Arena) (b : ℕ) (k : Field) (v : ℕ) : Arena :=
  { s with mem := wr32 s.mem (b + k.offset) v }

/-- `if (b != a->end) b->field = v`. -/
def setBlock (s : Arena) (b : ℕ) (k : Field) (v : ℕ) : Arena :=
  if b ≠ s.endAddr then s.set b k v else s

/-- `nfree`. -/
def nfree (s : Arena) (b : ℕ) : ℕ := add64 b (s.get b .nextFree)

/-- `pfree`. -/
def pfree (s : Arena) (b : ℕ) : ℕ := sub64 b (s.get b .prevFree)

/-- `next`. -/
def next (s : Arena) (b : ℕ) : ℕ := add64 b (s.get b .next)

/-- `prev`. -/
def prev (s : Arena) (b : ℕ) : ℕ :=
  if s.get b .prev = 0 then 0 else sub64 b (s.get b .prev)

end Arena

/-- `alloc_init`. -/
def allocInit (mem : Store) (base size : ℕ) : Arena :=
  let s : Arena := ⟨base, base, add64 base size, mem⟩
  let s := s.set s.free .prev 0
  let s := s.set s.free .next size
  let s := s.set s.free .used 0
  let s := s.set s.free .nextFree size
  s.set s.free .prevFree 0

/-- `split`; `r` is the block it cuts off, called `s` in the source. -/
def split (s : Arena) (b size : ℕ) : Arena :=
  let size := size % u32
  let r := add64 b size
  let s := s.set r .next (sub32 (s.get b .next) size)
  let s := s.set b .next size
  let s := s.set r .prev size
  let s := s.set r .nextFree (sub32 (s.get b .nextFree) size)
  let s := s.set b .nextFree (s.get b .next)
  let s := s.set r .prevFree (s.get r .prev)
  let s := s.set r .used 0
  let n := s.next r
  let s := s.setBlock n .prev (sub32 (s.get n .prev) size)
  let n := s.nfree r
  s.setBlock n .prevFree (sub32 (s.get n .prevFree) size)

/-- `use_block`. -/
def useBlock (s : Arena) (b : ℕ) : Arena :=
  let s :=
    if b = s.free then
      let s := { s with free := s.nfree b }
      s.set s.free .prevFree 0
    else
      let pf := s.pfree b
      let s := s.set pf .nextFree (add32 (s.get pf .nextFree) (s.get b .nextFree))
      let nf := s.nfree b
      s.setBlock nf .prevFree (add32 (s.get nf .prevFree) (s.get b .prevFree))
  s.set b .used 1

/-- The loop of `alloc` over the free list. -/
def bestFit (s : Arena) (xlen : ℕ) : ℕ → ℕ → ℕ → Except Halt ℕ
  | 0, _, _ => .error .hang
  | fuel + 1, curr, best =>
    if curr = s.endAddr then .ok best
    else
      let best :=
        if xlen ≤ s.get curr .next ∧ (best = 0 ∨ s.get curr .next < s.get best .next) then curr
        else best
      bestFit s xlen fuel (s.nfree curr) best

/-- `alloc`. -/
def alloc (s : Arena) (len : ℕ) : Except Halt (ℕ × Arena) := do
  let xlen := (len + usedHeaderSize) % u64
  let best ← bestFit s xlen u64 s.free 0
  if best = 0 then return (0, s)
  let s :=
    if minSplitThreshold ≤ sub64 (s.get best .next) xlen then split s best xlen else s
  return (blockPtr best, useBlock s best)

/-- `get_align`. -/
def getAlign (p align : ℕ) : ℕ := p &&& sub64 align 1

/-- The loop of `aligned_alloc` over the free list. -/
def alignedFit (s : Arena) (xlen align : ℕ) : ℕ → ℕ → ℕ → Except Halt ℕ
  | 0, _, _ => .error .hang
  | fuel + 1, curr, best =>
    if curr = s.endAddr then .ok best
    else
      let best :=
        if xlen ≤ s.get curr .next then
          let ca := getAlign (blockPtr curr) align
          if ca = 0 ∧ (best = 0 ∨ s.get curr .next < s.get best .next) then curr
          else if add64 (sub64 align ca) xlen ≤ s.get curr .next then curr
          else best
        else best
      alignedFit s xlen align fuel (s.nfree curr) best

/-- `aligned_alloc`. -/
def alignedAlloc (s : Arena) (len align : ℕ) : Except Halt (ℕ × Arena) := do
  let xlen := (len + usedHeaderSize) % u64
  let best ← alignedFit s xlen align u64 s.free 0
  if best = 0 then return (0, s)
  let ca := getAlign (blockPtr best) align
  -- the unaligned beginning becomes a block of its own
  let s' := if ca ≠ 0 then split s best (sub64 align ca) else s
  let best := if ca ≠ 0 then s'.next best else best
  let s' :=
    if minSplitThreshold ≤ sub64 (s'.get best .next) xlen then split s' best xlen else s'
  return (blockPtr best, useBlock s' best)

/-- `while (n != a->end && n->used) n = next(n)`. -/
def skipUsed (s : Arena) : ℕ → ℕ → Except Halt ℕ
  | 0, _ => .error .hang
  | fuel + 1, n =>
    if n ≠ s.endAddr ∧ s.get n .used ≠ 0 then skipUsed s fuel (s.next n) else .ok n

/-- `while (p != NULL && p->used) p = prev(p)`. -/
def skipUsedBack (s : Arena) : ℕ → ℕ → Except Halt ℕ
  | 0, _ => .error .hang
  | fuel + 1, p =>
    if p ≠ 0 ∧ s.get p .used ≠ 0 then skipUsedBack s fuel (s.prev p) else .ok p

/-- The search of `free` for the previous unused block, once `n` is the next one. -/
def findPrevFree (s : Arena) (b n : ℕ) : Except Halt ℕ :=
  if n ≠ s.endAddr then .ok (s.pfree n) else skipUsedBack s u64 (s.prev b)

/-- The body of the coalescing loop: `n` joins `b` when it lies right above it. -/
def joinNext (s : Arena) (b n : ℕ) : Arena :=
  if n ≠ s.endAddr ∧ n = s.next b then
    let nn := s.nfree n
    let s := s.setBlock nn .prevFree (add32 (s.get nn .prevFree) (s.get b .nextFree))
    let nn := s.next n
    let s := s.setBlock nn .prev (add32 (s.get nn .prev) (s.get b .next))
    let s := s.set b .nextFree (add32 (s.get b .nextFree) (s.get n .nextFree))
    s.set b .next (add32 (s.get b .next) (s.get n .next))
  else s

/-- `KASSERT`. -/
def kassert (c : Bool) : Except Halt Unit := if c then .ok () else .error (.panic .eassert)

/-- The part of `free` that marks the block and moves the list head down to it. -/
def unuse (s : Arena) (b : ℕ) : Arena :=
  let s := s.set b .prevFree 0
  let s := s.set b .used 0
  { s with free := if b < s.free then b else s.free }

/-- The part of `free` that links `b` with the next and the previous unused block. -/
def relink (s : Arena) (b n p : ℕ) : Arena :=
  let s := s.set b .nextFree (sub64 n b % u32)
  let s := s.setBlock n .prevFree (s.get b .nextFree)
  if p ≠ 0 then
    let s := s.set b .prevFree (sub64 b p % u32)
    s.set p .nextFree (s.get b .prevFree)
  else s

/-- `free`. The `do` loop at its end runs once with `b`, and once more with `p`
in its place when there is a `p`. -/
def free (s : Arena) (ptr : ℕ) : Except Halt Arena := do
  kassert (ptr < s.endAddr)
  kassert (s.base < ptr)
  let b := ptrBlock ptr
  kassert (s.get b .used = 1)
  let s := unuse s b
  let n ← skipUsed s u64 (s.next b)
  let p ← findPrevFree s b n
  let s := relink s b n p
  let s := joinNext s b n
  return if p ≠ 0 then joinNext s p b else s

/-- `memcpy` between regions that do not overlap. -/
def memcpy (m : Store) (dst src n : ℕ) : Store := fun x =>
  if dst ≤ x ∧ x < dst + n then m (src + (x - dst)) else m x

/-- The part of `realloc` that takes the unused block `n` right above `b`, or its
beginning. -/
def resizeInPlace (s : Arena) (b n nlen : ℕ) : Arena :=
  let s :=
    if minSplitThreshold ≤ sub64 (s.get n .next) nlen then split s n nlen else s
  let s := useBlock s n
  let nn := s.next n
  let s := s.setBlock nn .prev (add32 (s.get nn .prev) (s.get b .next))
  s.set b .next (add32 (s.get b .next) (s.get n .next))

/-- The part of `realloc` after the label `new`. -/
def moveToNew (s : Arena) (p blen size : ℕ) : Except Halt (ℕ × Arena) := do
  let (np, s) ← alloc s size
  if np = 0 then return (0, s)
  let s ← free { s with mem := memcpy s.mem np p blen } p
  return (np, s)

/-- `realloc`. -/
def realloc (s : Arena) (p size : ℕ) : Except Halt (ℕ × Arena) := do
  kassert (p < s.endAddr)
  kassert (s.base < p)
  let b := ptrBlock p
  kassert (s.get b .used = 1)
  let blen := sub64 (s.get b .next) usedHeaderSize
  let n := s.next b
  if n = s.endAddr then moveToNew s p blen size
  else if s.get n .used ≠ 0 then moveToNew s p blen size
  else if add64 blen (s.get n .next) < size then moveToNew s p blen size
  else return (p, resizeInPlace s b n (sub64 size blen))

end JanusRT.Alloc
