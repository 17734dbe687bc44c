import JanusRT.Structs
import JanusRT.Lib.Masks
import JanusRT.Lib.Outcome
import JanusRT.Lib.RadixTree

/-!
# Page tables

The mapping functions of `mmu.c` with the constants of `mmu.h`, `config.mk` and
`uart.h`, and the translation the hardware makes of the tables. A table is an array
of 512 descriptors named by its page. Table pages come from `aligned_alloc`, which
is a parameter here: `pick used` is the page it returns when the pages in `used` are
handed out, and zero is NULL.
-/
namespace JanusRT
open RadixTree

/-- `PAGE_SIZE`. -/
def pageSize : ℕ := 1 <<< 12

/-- `PAGE_MASK`, which is also the `~0xFFFULL` of the descriptor helpers. -/
def pageMask : ℕ := Masks.field 12 64

def vaBits : ℕ := 48

def paBits : ℕ := 36

/-! ## Memory layout -/

/-- `JRT_CODE_PHYS` and `CODE_0`. -/
def code0 : ℕ := 0x50000000

/-- `JRT_CODE_SIZE`. -/
def jrtCodeSize : ℕ := 0x01000000

/-- `JRT_MEM_PHYS` and `MEM_0`. -/
def mem0 : ℕ := 0x51000000

/-- `JRT_MEM_SIZE`. -/
def jrtMemSize : ℕ := 0x01000000

def memEnd : ℕ := mem0 + (jrtMemSize - 1)

def uartPaBase : ℕ := 0x09000000

def uartPaSize : ℕ := 0x1000

def gicdPaBase : ℕ := 0x08000000

def gicdPaSize : ℕ := 0x00010000

def gicrPaBase0 : ℕ := 0x080A0000

def gicrFrameSize : ℕ := 0x00020000

def gicrNumCpus : ℕ := 4

/-! ## Descriptor bits -/

def descBlock : ℕ := 1
def descTableBits : ℕ := 3
def descPageBits : ℕ := 3

def pteUxn : ℕ := 1 <<< 54
def ptePxn : ℕ := 1 <<< 53
def pteNG : ℕ := 1 <<< 11
def pteAf : ℕ := 1 <<< 10
def pteShOuter : ℕ := 2 <<< 8
def pteShInner : ℕ := 3 <<< 8
def pteApRwEl1 : ℕ := 0 <<< 6
def pteAttridx (i : ℕ) : ℕ := i <<< 2
def pteValid : ℕ := 1 <<< 0
def mairIdxNormal : ℕ := 0
def mairIdxDevice : ℕ := 1

def pteKernRwx : ℕ :=
  pteValid ||| descPageBits ||| pteAf ||| pteShInner ||| pteApRwEl1 |||
    pteAttridx mairIdxNormal ||| pteUxn

def pteProcRwx : ℕ :=
  pteValid ||| descPageBits ||| pteAf ||| pteShInner ||| pteApRwEl1 |||
    pteAttridx mairIdxNormal ||| pteUxn ||| pteNG

def pteDevRwG : ℕ :=
  pteValid ||| descPageBits ||| pteAf ||| pteShOuter ||| pteApRwEl1 |||
    pteAttridx mairIdxDevice ||| pteUxn ||| ptePxn

/-! ## Indexing and descriptors -/

def idxL0 (va : ℕ) : ℕ := (va >>> 39) &&& 0x1FF
def idxL1 (va : ℕ) : ℕ := (va >>> 30) &&& 0x1FF
def idxL2 (va : ℕ) : ℕ := (va >>> 21) &&& 0x1FF
def idxL3 (va : ℕ) : ℕ := (va >>> 12) &&& 0x1FF

def descTable (pa : ℕ) : ℕ := (pa &&& pageMask) ||| pteValid ||| descTableBits

def descPage (pa attrs : ℕ) : ℕ := (pa &&& pageMask) ||| attrs

def valid (d : ℕ) : Bool := decide (d &&& pteValid ≠ 0)

/-! ## Building tables -/

/-- The table pages in memory and the pages the allocator has handed out. -/
structure PageMem where
  table : ℕ → ℕ → ℕ
  pages : List ℕ

variable (pick : List ℕ → ℕ)

/-- Both assertions of the source end in a kernel panic. -/
def ptAllocPageOrDie (m : PageMem) : Except Halt (ℕ × PageMem) :=
  let p := pick m.pages
  if p = 0 then .error (.panic .eassert)
  else if p &&& (pageSize - 1) ≠ 0 then .error (.panic .eassert)
  else .ok (p, { table := Function.update m.table p fun _ => 0, pages := p :: m.pages })

def ensureNext (m : PageMem) (lvl idx : ℕ) : Except Halt (ℕ × PageMem) :=
  let d := m.table lvl idx
  if valid d = false then do
    let r ← ptAllocPageOrDie pick m
    pure (r.1, { r.2 with table := write r.2.table lvl idx (descTable r.1) })
  else pure (d &&& pageMask, m)

def ptRootNew (m : PageMem) : Except Halt (PtRoot × PageMem) := do
  let r ← ptAllocPageOrDie pick m
  pure (⟨r.1, r.1⟩, r.2)

def mapPage (m : PageMem) (r : PtRoot) (va pa attrs : ℕ) : Except Halt PageMem := do
  let l1 ← ensureNext pick m r.l0 (idxL0 va)
  let l2 ← ensureNext pick l1.2 l1.1 (idxL1 va)
  let l3 ← ensureNext pick l2.2 l2.1 (idxL2 va)
  pure { l3.2 with table := write l3.2.table l3.1 (idxL3 va) (descPage pa attrs) }

/-- The loop of `map_range_pages`. There are `2 ^ 52` pages, so the bound on the
rounds is only reached by a loop that does not end. -/
def mapLoop (r : PtRoot) (end_ attrs : ℕ) : ℕ → PageMem → ℕ → ℕ → Except Halt PageMem
  | 0, _, _, _ => .error .hang
  | n + 1, m, va, pa =>
    if va < end_ then do
      let m ← mapPage pick m r va pa attrs
      mapLoop r end_ attrs n m ((va + pageSize) % u64) ((pa + pageSize) % u64)
    else pure m

-- up to thousands of insertions, which no proof evaluates
@[irreducible] def mapRangePages (m : PageMem) (r : PtRoot) (va pa len attrs : ℕ) : Except Halt PageMem :=
  let end_ := (va + len) % u64
  let va := va &&& pageMask
  let pa := pa &&& pageMask
  let end_ := (end_ + pageSize - 1) % u64 &&& pageMask
  mapLoop pick r end_ attrs (u64 / pageSize + 1) m va pa

def mapUart (m : PageMem) (r : PtRoot) : Except Halt PageMem :=
  mapRangePages pick m r uartPaBase uartPaBase uartPaSize pteDevRwG

def mapGic (m : PageMem) (r : PtRoot) : Except Halt PageMem := do
  let m ← mapRangePages pick m r gicdPaBase gicdPaBase gicdPaSize pteDevRwG
  (List.range gicrNumCpus).foldlM (fun m i =>
    let base := gicrPaBase0 + i * gicrFrameSize
    mapRangePages pick m r base base gicrFrameSize pteDevRwG) m

section Builders
variable (kernelEnd : ℕ)

def buildProcessMap (m : PageMem) (r : PtRoot) (procBasePa procImageLen : ℕ) :
    Except Halt PageMem := do
  let lowLen := if procImageLen < code0 then procImageLen else code0
  let m ← mapRangePages pick m r 0 procBasePa lowLen pteProcRwx
  let kEnd := if procBasePa < kernelEnd then procBasePa else kernelEnd
  let m ← (if code0 < kEnd then mapRangePages pick m r code0 code0 (kEnd - code0) pteKernRwx
    else pure m)
  let m ← mapRangePages pick m r mem0 mem0 (memEnd + 1 - mem0) pteKernRwx
  mapUart pick m r

def buildKernelMap (m : PageMem) (r : PtRoot) : Except Halt PageMem := do
  let m ← mapRangePages pick m r code0 code0 (memEnd + 1 - code0) pteKernRwx
  let m ← mapUart pick m r
  mapGic pick m r

/-- The table work of `proc_map_create`. -/
def procRoot (m : PageMem) (procBasePa imageLen : ℕ) : Except Halt (PtRoot × PageMem) := do
  let r ← ptRootNew pick m
  let m ← buildProcessMap pick kernelEnd r.2 r.1 procBasePa imageLen
  pure (r.1, m)

/-- The table work of `kern_map_create`. -/
def kernRoot (m : PageMem) : Except Halt (PtRoot × PageMem) := do
  let r ← ptRootNew pick m
  let m ← buildKernelMap pick r.2 r.1
  pure (r.1, m)

end Builders

/-! ## Translation -/

/-- Bits 47 to 12 of a descriptor, its output address. -/
def outMask : ℕ := Masks.field 12 48

/-- The other bits, its attributes. -/
def attrMask : ℕ := 2 ^ 64 - 1 - outMask

/-- The next table, when the descriptor type is table. -/
def tableNext (d : ℕ) : Option ℕ := if d &&& 3 = descTableBits then some (d &&& outMask) else none

/-- Output of a block or page descriptor that maps `2 ^ shift` bytes. -/
def output (shift d va : ℕ) : ℕ × ℕ :=
  ((d &&& outMask) / 2 ^ shift * 2 ^ shift + va % 2 ^ shift, d &&& attrMask)

/-- The four-level walk for a 48-bit address, with blocks at levels one and two. The
result is a physical address with the attributes of its page. -/
def walk (m : PageMem) (root va : ℕ) : Option (ℕ × ℕ) :=
  (tableNext (m.table root (idxL0 va))).bind fun l1 =>
    let d1 := m.table l1 (idxL1 va)
    if d1 &&& 3 = descBlock then some (output 30 d1 va)
    else (tableNext d1).bind fun l2 =>
      let d2 := m.table l2 (idxL2 va)
      if d2 &&& 3 = descBlock then some (output 21 d2 va)
      else (tableNext d2).bind fun l3 =>
        let d3 := m.table l3 (idxL3 va)
        if d3 &&& 3 = descPageBits then some (output 12 d3 va) else none

end JanusRT
