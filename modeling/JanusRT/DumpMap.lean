import JanusRT.ProcessMap
import JanusRT.Lib.RadixOrder
import JanusRT.Lib.Coalesce

/-!
# Printing an address space

`dump_map` walks the tables of a map and prints what they translate, with adjacent pages
joined into runs. The walk through the tables meets the pages by increasing address, and the
static run of the source holds the last block that may still grow.
-/
namespace JanusRT
open RadixTree Outcome Coalesce

/-! ## The code -/

/-- What a descriptor is at a level: 0 invalid, 1 table, 2 block or page. -/
def descKind (d level : ℕ) : ℕ :=
  if d &&& pteValid = 0 then 0
  else
    let low2 := d &&& 3
    if level < 3 then
      if low2 = descTableBits then 1
      else if low2 = descBlock ∧ (level = 1 ∨ level = 2) then 2
      else 0
    else if low2 = descPageBits then 2
    else 0

def outaddrMask : ℕ := (if 64 ≤ paBits then 2 ^ 64 - 1 else 1 <<< paBits - 1) &&& pageMask

def descOutaddr (d : ℕ) : ℕ := d &&& outaddrMask

def levelSpanBytes : ℕ → ℕ
  | 0 => 1 <<< 39
  | 1 => 1 <<< 30
  | 2 => 1 <<< 21
  | 3 => 1 <<< 12
  | _ => 0

/-- The static `run_`, with the ranges that `pr_map` has printed. -/
structure RunState where
  active : Bool
  va : ℕ
  pa : ℕ
  len : ℕ
  out : List Block
  deriving DecidableEq, Repr

def prMap (va pa len : ℕ) (s : RunState) : RunState := { s with out := s.out ++ [⟨va, pa, len⟩] }

def runFlush (s : RunState) : RunState :=
  if s.active = false then s else { prMap s.va s.pa s.len s with active := false }

def runVisit (va pa size : ℕ) (s : RunState) : RunState :=
  if s.active = true ∧ (s.va + s.len) % u64 = va ∧ (s.pa + s.len) % u64 = pa then
    { s with len := (s.len + size) % u64 }
  else { runFlush s with active := true, va := va, pa := pa, len := size }

/-- `ENTRIES_PER_TABLE`. -/
def entriesPerTable : ℕ := 512

/-- One round of the loop of `walk_level`; `next` walks a table of the next level. -/
def walkSlot (m : PageMem) (level table vaBase : ℕ) (next : ℕ → ℕ → RunState → RunState)
    (s : RunState) (i : ℕ) : RunState :=
  let d := m.table table i
  let k := descKind d level
  let vaSlot := (vaBase + i * levelSpanBytes level) % u64
  if k = 0 then s
  else if k = 1 then next (descOutaddr d) vaSlot s
  else runVisit vaSlot (descOutaddr d) (levelSpanBytes level) s

/-- `walk_level`. The first argument counts the levels below this one: an entry of level three
is never a table, so the recursion goes no deeper. -/
def walkLevel (m : PageMem) : ℕ → ℕ → ℕ → ℕ → RunState → RunState
  | 0, level, table, vaBase, s =>
    (List.range entriesPerTable).foldl (walkSlot m level table vaBase fun _ _ s => s) s
  | below + 1, level, table, vaBase, s =>
    (List.range entriesPerTable).foldl
      (walkSlot m level table vaBase (walkLevel m below (level + 1))) s

def rootTableVa (map : MmuMap) : ℕ := if map.root.l0 ≠ 0 then map.root.l0 else map.root.l0Pa

/-- `dump_map`; the message for a map without tables is left out. -/
def dumpMap (m : PageMem) (map : MmuMap) (s : RunState) : RunState :=
  let l0 := rootTableVa map
  if l0 = 0 then s else runFlush (walkLevel m 3 0 l0 0 { s with active := false })

/-! ## The static run -/

/-- Visiting a block. -/
def visit (s : RunState) (b : Block) : RunState := runVisit b.src b.dst b.len s

/-- The static run is this block. -/
structure RunState.Holds (s : RunState) (p : Block) : Prop where
  active : s.active = true
  va : s.va = p.src
  pa : s.pa = p.dst
  len : s.len = p.len

/-- Blocks that end inside the address space on both sides. -/
def Inside (b : Block) : Prop := b.src + b.len < u64 ∧ b.dst + b.len < u64

theorem foldl_visit {s : RunState} {p : Block} {l : List Block} (h : s.Holds p)
    (hin : ∀ b ∈ p :: l, Inside b) : (runFlush (l.foldl visit s)).out = s.out ++ join p l := by
  induction l generalizing s p with
  | nil =>
    obtain ⟨hact, hva, hpa, hlen⟩ := h
    simp [runFlush, prMap, hact, hva, hpa, hlen, join]
  | cons b l ih =>
    obtain ⟨hact, hva, hpa, hlen⟩ := h
    obtain ⟨hsrc, hdst⟩ := hin p List.mem_cons_self
    have hb := hin b (List.mem_cons_of_mem p List.mem_cons_self)
    have hl : ∀ c ∈ l, Inside c := fun c hc =>
      hin c (List.mem_cons_of_mem p (List.mem_cons_of_mem b hc))
    have hends : (s.va + s.len) % u64 = p.src + p.len ∧ (s.pa + s.len) % u64 = p.dst + p.len := by
      rw [hva, hpa, hlen, Nat.mod_eq_of_lt hsrc, Nat.mod_eq_of_lt hdst]
      exact ⟨rfl, rfl⟩
    rw [List.foldl_cons]
    by_cases hjoin : p.Joins b
    · -- the run grows
      have hgrown : Inside (p.extend b.len) := by
        obtain ⟨hs, hd⟩ := hjoin
        obtain ⟨hbs, hbd⟩ := hb
        unfold Inside Block.extend
        dsimp only
        omega
      have hvisit : visit s b = { s with len := p.len + b.len } := by
        have hlt : p.len + b.len < u64 := by
          obtain ⟨hg, -⟩ := hgrown
          unfold Block.extend at hg
          dsimp only at hg
          omega
        unfold visit runVisit
        rw [hends.1, hends.2, if_pos ⟨hact, hjoin⟩, hlen, Nat.mod_eq_of_lt hlt]
      have hheld : RunState.Holds { s with len := p.len + b.len } (p.extend b.len) :=
        ⟨hact, hva, hpa, rfl⟩
      rw [join_of_joins hjoin, hvisit]
      apply ih hheld
      intro c hc
      obtain rfl | hc := List.mem_cons.mp hc
      · exact hgrown
      · exact hl c hc
    · -- the run is printed and the next one starts
      have hvisit : visit s b =
          { runFlush s with active := true, va := b.src, pa := b.dst, len := b.len } := by
        unfold visit runVisit
        rw [hends.1, hends.2, if_neg fun h => hjoin h.2]
      have hout : (runFlush s).out = s.out ++ [p] := by
        simp [runFlush, prMap, hact, hva, hpa, hlen]
      rw [join_of_not hjoin, hvisit]
      refine (ih ⟨rfl, rfl, rfl, rfl⟩ ?_).trans ?_
      · exact fun c hc => hin c (List.mem_cons_of_mem p hc)
      · change (runFlush s).out ++ join b l = _
        rw [hout, List.append_assoc]
        rfl

/-- From an idle state the visited blocks are printed joined. -/
theorem foldl_visit_idle {s : RunState} {l : List Block} (h : s.active = false)
    (hin : ∀ b ∈ l, Inside b) : (runFlush (l.foldl visit s)).out = s.out ++ joinAll l := by
  cases l with
  | nil => simp [runFlush, h, joinAll]
  | cons p l =>
    have hvisit : visit s p = { s with active := true, va := p.src, pa := p.dst, len := p.len } := by
      unfold visit runVisit
      rw [if_neg (by simp [h])]
      simp [runFlush, h]
    rw [List.foldl_cons, hvisit]
    exact foldl_visit ⟨rfl, rfl, rfl, rfl⟩ hin

/-! ## The walk -/

/-- An entry of the upper levels that `walk_level` reads as `ensure_next` does. -/
def LowInner (d : ℕ) : Prop := d = 0 ∨ ∃ b, b % 4096 = 0 ∧ b < 2 ^ paBits ∧ d = descTable b

/-- The output address of an entry of the last level. -/
def leafAddr (d : ℕ) : Option ℕ := if d &&& 3 = descPageBits then some (descOutaddr d) else none

theorem descOutaddr_eq (d : ℕ) : descOutaddr d = (d &&& outMask) % 2 ^ paBits := by
  have hmask : outaddrMask = Masks.field 12 36 := by decide
  have hpow : (2 : ℕ) ^ 48 = 2 ^ 36 * 2 ^ 12 := by norm_num
  have hpow' : (2 : ℕ) ^ 36 = 2 ^ 24 * 2 ^ 12 := by norm_num
  rw [descOutaddr, hmask, outMask, Masks.and_field, Masks.and_field, paBits]
  omega

/-- A table entry of the upper levels. -/
theorem LowInner.descend {d level : ℕ} (h : LowInner d) (hlevel : level < 3) :
    (nextTable d = none ∧ descKind d level = 0) ∨
      (nextTable d = some (descOutaddr d) ∧ descKind d level = 1) := by
  obtain rfl | ⟨b, hb, hlt, rfl⟩ := h
  · exact .inl ⟨rfl, rfl⟩
  · have hlt48 : b < 2 ^ 48 := hlt.trans (by decide)
    obtain ⟨hv, hp, ht, ho⟩ := descTable_fields hb hlt48
    have haddr : descOutaddr (descTable b) = b := by
      rw [descOutaddr_eq, ho, Nat.mod_eq_of_lt hlt]
    have hvalid : descTable b &&& pteValid ≠ 0 := by simpa [valid] using hv
    refine .inr ⟨?_, ?_⟩
    · rw [nextTable, hv, hp, haddr]
      rfl
    · rw [descKind, if_neg hvalid]
      dsimp only
      rw [if_pos hlevel, ht]
      rfl

theorem descKind_leaf (d : ℕ) : descKind d 3 = if d &&& 3 = descPageBits then 2 else 0 := by
  unfold descKind
  by_cases hv : d &&& pteValid = 0
  · have hpage : d &&& 3 ≠ descPageBits := by
      intro h
      have hlow : (d &&& 3) &&& 1 = 0 := by
        rw [Nat.and_assoc]
        exact hv
      rw [h] at hlow
      exact absurd hlow (by decide)
    rw [if_pos hv, if_neg hpage]
  · rw [if_neg hv]
    rfl

theorem levelSpanBytes_eq {n : ℕ} (hn : n ≤ 3) : levelSpanBytes (3 - n) = 512 ^ n * 4096 := by
  obtain rfl | rfl | rfl | rfl : n = 0 ∨ n = 1 ∨ n = 2 ∨ n = 3 := by omega
  all_goals rfl

/-- The page of an entry. -/
def pageBlock (e : ℕ × ℕ) : Block := ⟨e.1 * 4096, e.2, 4096⟩

/-- The slots below a table stay inside the address space. -/
theorem vaSlot_eq {n key i : ℕ} (hi : i < 512)
    (hkey : (key + 1) * 512 ^ (n + 1) ≤ 2 ^ 36) :
    (key * 512 ^ (n + 1) * 4096 + i * (512 ^ n * 4096)) % u64 =
      (key * 512 + i) * 512 ^ n * 4096 := by
  have hsum : key * 512 ^ (n + 1) * 4096 + i * (512 ^ n * 4096) =
      (key * 512 + i) * 512 ^ n * 4096 := by ring
  obtain ⟨-, hbound⟩ := key_bounds key (512 ^ n) hi
  have hle : (key * 512 + i) * 512 ^ n ≤ (key * 512 + i + 1) * 512 ^ n :=
    Nat.mul_le_mul_right _ (Nat.le_succ _)
  rw [← pow_succ'] at hbound
  rw [hsum, u64]
  apply Nat.mod_eq_of_lt
  omega

/-- The walk below a table visits the pages of the tree in order. -/
theorem walkLevel_eq {m : PageMem} {n : ℕ} (a key : ℕ) (hn : n ≤ 3) (s : RunState)
    (hlow : ∀ p x i, p.length < n → descend nextTable m.table a p = some x →
      LowInner (m.table x i))
    (hkey : (key + 1) * 512 ^ (n + 1) ≤ 2 ^ 36) :
    walkLevel m n (3 - n) a (key * 512 ^ (n + 1) * 4096) s =
      ((entries nextTable leafAddr m.table 512 n a key).map pageBlock).foldl visit s := by
  have hsize : entriesPerTable = 512 := rfl
  induction n generalizing a key s with
  | zero =>
    rw [walkLevel, hsize, entries, List.foldl_map, List.foldl_filterMap]
    apply List.foldl_ext
    intro s i hi
    have hslot := vaSlot_eq (n := 0) (List.mem_range.mp hi) hkey
    rw [walkSlot, levelSpanBytes_eq hn, hslot, descKind_leaf, leafAddr]
    by_cases hpage : m.table a i &&& 3 = descPageBits
    · rw [if_pos hpage, if_pos hpage]
      simp [visit, pageBlock]
    · rw [if_neg hpage, if_neg hpage]
      rfl
  | succ n ih =>
    rw [walkLevel, hsize, entries, List.map_flatMap, List.foldl_flatMap]
    apply List.foldl_ext
    intro s i hi
    have hslot := vaSlot_eq (List.mem_range.mp hi) hkey
    rw [walkSlot, levelSpanBytes_eq hn, hslot]
    obtain ⟨hnext, hkind⟩ | ⟨hnext, hkind⟩ :=
      (hlow [] a i (Nat.succ_pos n) rfl).descend (show 3 - (n + 1) < 3 by omega)
    · rw [hkind, hnext]
      rfl
    · have hlevel : 3 - (n + 1) + 1 = 3 - n := by omega
      obtain ⟨-, hbound⟩ := key_bounds key (512 ^ (n + 1)) (List.mem_range.mp hi)
      rw [← pow_succ'] at hbound
      have hbelow : ∀ p x j, p.length < n →
          descend nextTable m.table (descOutaddr (m.table a i)) p = some x →
            LowInner (m.table x j) := by
        intro p x j hp hd
        apply hlow (i :: p) x j (Nat.succ_lt_succ hp)
        rw [descend, hnext]
        exact hd
      have hrec := ih (descOutaddr (m.table a i)) (key * 512 + i) (by omega) s hbelow (hbound.trans hkey)
      rw [hkind, hnext, hlevel]
      exact hrec

/-! ## What is printed -/

theorem leafAddr_eq : leafAddr = fun d => (leaf d).map fun o => o.1 % 2 ^ paBits := by
  funext d
  unfold leafAddr leaf
  split_ifs
  · rw [descOutaddr_eq]
    rfl
  · rfl

/-- Indices are the digits of the page number. -/
theorem path_of_digits {a b c i : ℕ} (ha : a < 512) (hb : b < 512) (hc : c < 512) (hi : i < 512) :
    path ((((a * 512 + b) * 512 + c) * 512 + i) * 4096) = [a, b, c] ∧
      idxL3 ((((a * 512 + b) * 512 + c) * 512 + i) * 4096) = i := by
  obtain ⟨h0, h1, h2, h3⟩ := idx_eq ((((a * 512 + b) * 512 + c) * 512 + i) * 4096)
  have ha' : (((a * 512 + b) * 512 + c) * 512 + i) * 4096 / 2 ^ 39 = a := by omega
  have hb' : (((a * 512 + b) * 512 + c) * 512 + i) * 4096 / 2 ^ 30 = a * 512 + b := by omega
  have hc' : (((a * 512 + b) * 512 + c) * 512 + i) * 4096 / 2 ^ 21 = (a * 512 + b) * 512 + c := by
    omega
  have hi' : (((a * 512 + b) * 512 + c) * 512 + i) * 4096 / 2 ^ 12 =
      ((a * 512 + b) * 512 + c) * 512 + i := Nat.mul_div_cancel _ (Nat.two_pow_pos 12)
  rw [path, h0, h1, h2, h3, ha', hb', hc', hi', Nat.mod_eq_of_lt ha, Nat.mul_add_mod_of_lt hb,
    Nat.mul_add_mod_of_lt hc, Nat.mul_add_mod_of_lt hi]
  exact ⟨rfl, rfl⟩

theorem spell_path {k : ℕ} (hk : k < 2 ^ 36) :
    k = spell 512 0 (path (k * 4096) ++ [idxL3 (k * 4096)]) := by
  obtain ⟨h0, h1, h2, h3⟩ := idx_eq (k * 4096)
  simp only [spell, path, List.cons_append, List.nil_append, List.foldl_cons, List.foldl_nil, h0,
    h1, h2, h3]
  omega

/-- The walk of the tables finds the pages of the tree. -/
theorem mem_entries_walk {m : PageMem} {root : ℕ} {own : List ℕ}
    (h : Tree nextTable Inner 3 m.table root own) {k v : ℕ} :
    (k, v) ∈ entries nextTable leafAddr m.table 512 3 root 0 ↔
      k < 2 ^ 36 ∧ ∃ o, walk m root (k * 4096) = some o ∧ v = o.1 % 2 ^ paBits := by
  have hwalk : (∃ o, walk m root (k * 4096) = some o ∧ v = o.1 % 2 ^ paBits) ↔
      find nextTable leafAddr m.table root (path (k * 4096)) (idxL3 (k * 4096)) = some v := by
    have hoff : k * 4096 % 4096 = 0 := Nat.mul_mod_left k 4096
    rw [walk_eq_find h, leafAddr_eq, find_map, hoff]
    cases find nextTable leaf m.table root (path (k * 4096)) (idxL3 (k * 4096)) with
    | none => simp
    | some o => simp [eq_comm]
  rw [hwalk, mem_entries]
  constructor
  · intro hmem
    obtain ⟨p, i, hlen, hp, hi, hfind, hk⟩ := hmem
    obtain ⟨a, b, c, rfl⟩ := List.length_eq_three.mp hlen
    have ha : a < 512 := hp a (by simp)
    have hb : b < 512 := hp b (by simp)
    have hc : c < 512 := hp c (by simp)
    have hspell : k = ((a * 512 + b) * 512 + c) * 512 + i := by
      simpa [spell] using hk
    obtain ⟨hpath, hidx⟩ := path_of_digits ha hb hc hi
    rw [hspell, hpath, hidx]
    exact ⟨by omega, hfind⟩
  · intro hmem
    obtain ⟨hk, hfind⟩ := hmem
    obtain ⟨hi0, hi1, hi2, hi3⟩ := idx_lt (k * 4096)
    refine ⟨path (k * 4096), idxL3 (k * 4096), rfl, ?_, hi3, hfind, spell_path hk⟩
    intro d hd
    simp only [path, List.mem_cons, List.not_mem_nil, or_false] at hd
    obtain rfl | rfl | rfl := hd
    · exact hi0
    · exact hi1
    · exact hi2

/-- The runs are in order and apart, their pages are those that the walk translates, with
`keep` of the frame, and no two neighbours could be one run. -/
structure Reports (m : PageMem) (root : ℕ) (keep : ℕ → ℕ) (runs : List Block) : Prop where
  whole : ∀ a ∈ runs, 0 < a.len ∧ pageSize ∣ a.len
  increasing : runs.Pairwise fun a b => a.src < b.src
  disjoint : runs.Pairwise fun a b => a.src + a.len ≤ b.src
  pages : ∀ va pa, (va, pa) ∈ runs.flatMap (Block.points pageSize) ↔
    va < 2 ^ 48 ∧ va % pageSize = 0 ∧ ∃ o, walk m root va = some o ∧ pa = keep o.1
  maximal : runs.IsChain fun a b => ¬ (a.src + a.len = b.src ∧ a.dst + a.len = b.dst)

theorem Reports.congr {m : PageMem} {root : ℕ} {keep keep' : ℕ → ℕ} {runs : List Block}
    (h : Reports m root keep runs)
    (heq : ∀ va, va < 2 ^ 48 → ∀ o, walk m root va = some o → keep o.1 = keep' o.1) :
    Reports m root keep' runs := by
  refine ⟨h.whole, h.increasing, h.disjoint, ?_, h.maximal⟩
  intro va pa
  rw [h.pages]
  constructor
  · intro hva
    obtain ⟨hlt, hpage, o, ho, rfl⟩ := hva
    exact ⟨hlt, hpage, o, ho, heq va hlt o ho⟩
  · intro hva
    obtain ⟨hlt, hpage, o, ho, rfl⟩ := hva
    exact ⟨hlt, hpage, o, ho, (heq va hlt o ho).symm⟩

/-- Tables below `2 ^ PA_BITS` are read as the mapping functions wrote them. -/
theorem lowInner_of_tree {m : PageMem} {root : ℕ} {own : List ℕ}
    (h : Tree nextTable Inner 3 m.table root own) (hlow : ∀ a ∈ own, a < 2 ^ paBits)
    {p : List ℕ} {x : ℕ} (hp : p.length < 3) (hd : descend nextTable m.table root p = some x)
    (i : ℕ) : LowInner (m.table x i) := by
  obtain hzero | ⟨b, hb, hlt, hentry⟩ := h.inner p x i hp hd
  · exact .inl hzero
  · refine .inr ⟨b, hb, ?_, hentry⟩
    have hnext : nextTable (m.table x i) = some b := by
      obtain ⟨hv, hm, -⟩ := descTable_fields hb hlt
      rw [hentry, nextTable, hv, hm]
      rfl
    apply hlow b (h.mem (p ++ [i]) b (by simpa using hp) ?_)
    rw [descend_concat, hd]
    exact hnext

/-- The dump of a tree shows each page with the low `PA_BITS` of its frame. -/
theorem dumpMap_tree {m : PageMem} {own : List ℕ} {map : MmuMap}
    (h : Tree nextTable Inner 3 m.table map.root.l0 own) (hlow : ∀ a ∈ own, a < 2 ^ paBits)
    (hroot : map.root.l0 ≠ 0) (s : RunState) :
    ∃ runs, (dumpMap m map s).out = s.out ++ runs ∧
      Reports m map.root.l0 (fun pa => pa % 2 ^ paBits) runs := by
  generalize hpages : entries nextTable leafAddr m.table 512 3 map.root.l0 0 = pages
  have hmem : ∀ k v, (k, v) ∈ pages ↔
      k < 2 ^ 36 ∧ ∃ o, walk m map.root.l0 (k * 4096) = some o ∧ v = o.1 % 2 ^ paBits := by
    intro k v
    rw [← hpages]
    exact mem_entries_walk h
  have hin : ∀ b ∈ pages.map pageBlock, Inside b := by
    intro b hb
    obtain ⟨⟨k, v⟩, hkv, rfl⟩ := List.mem_map.mp hb
    obtain ⟨hk, o, -, rfl⟩ := (hmem k v).mp hkv
    have hv : o.1 % 2 ^ paBits < 2 ^ 36 := Nat.mod_lt _ (by decide)
    unfold Inside pageBlock u64
    dsimp only
    omega
  have hdump : (dumpMap m map s).out = s.out ++ joinAll (pages.map pageBlock) := by
    have hva : rootTableVa map = map.root.l0 := if_pos hroot
    have hwalk := walkLevel_eq (m := m) (n := 3) map.root.l0 0 le_rfl
      { s with active := false } (fun p x i hp hd => lowInner_of_tree h hlow hp hd i) (by decide)
    rw [Nat.zero_mul, Nat.zero_mul, Nat.sub_self, hpages] at hwalk
    rw [dumpMap, hva, if_neg hroot, hwalk]
    exact foldl_visit_idle rfl hin
  have hjoined : Joined pageSize (pages.map pageBlock) (joinAll (pages.map pageBlock)) := by
    apply joinAll_joined (by decide)
    · intro a ha
      obtain ⟨e, -, rfl⟩ := List.mem_map.mp ha
      exact ⟨Nat.succ_pos 4095, dvd_rfl⟩
    · rw [List.pairwise_map, ← hpages]
      apply (entries_sorted 3 map.root.l0 0).imp
      intro x y hxy
      unfold Block.Before pageBlock
      dsimp only
      omega
  refine ⟨_, hdump, hjoined.whole, ?_, hjoined.ordered, ?_, hjoined.maximal⟩
  · apply hjoined.ordered.imp_of_mem
    intro a b ha _ hab
    have hpos := (hjoined.whole a ha).1
    unfold Block.Before at hab
    omega
  · intro va pa
    have hpoints : (pages.map pageBlock).flatMap (Block.points pageSize) =
        pages.map fun e => (e.1 * 4096, e.2) := by
      rw [List.flatMap_map, List.map_eq_flatMap]
      apply List.flatMap_congr
      intro e _
      exact Block.points_one rfl (by decide)
    rw [hjoined.points, hpoints, List.mem_map]
    constructor
    · intro he
      obtain ⟨⟨k, v⟩, hkv, heq⟩ := he
      obtain ⟨rfl, rfl⟩ := Prod.mk.inj heq
      obtain ⟨hk, hwalk⟩ := (hmem k v).mp hkv
      exact ⟨by dsimp only; omega, Nat.mul_mod_left k 4096, hwalk⟩
    · intro he
      obtain ⟨hlt, hpage, hwalk⟩ := he
      have hsize : pageSize = 4096 := rfl
      have hva : va / 4096 * 4096 = va := by
        rw [hsize] at hpage
        omega
      rw [← hva] at hwalk
      exact ⟨(va / 4096, pa), (hmem _ _).mpr ⟨by omega, hwalk⟩, by rw [hva]⟩

/-! ## Trees that are mapped -/

/-- A call of `map_range_pages`. -/
structure MapCall where
  va : ℕ
  pa : ℕ
  len : ℕ
  attrs : ℕ
  deriving DecidableEq, Repr

namespace MapCall

/-- The bounds of a call, and attributes of a page without address bits. -/
structure Allowed (c : MapCall) : Prop where
  va : c.va + c.len < 2 ^ 48 - 4096
  pa : c.pa + c.len ≤ 2 ^ 36
  attrs : GoodAttrs c.attrs

/-- The pages between the rounded ends. -/
def count (c : MapCall) : ℕ := (roundUp (c.va + c.len) - roundDown c.va) / 4096

/-- Every frame of the call lies below `2 ^ PA_BITS`. -/
def Fits (c : MapCall) : Prop := roundDown c.pa + 4096 * c.count ≤ 2 ^ paBits

instance : DecidablePred Fits := fun _ => inferInstanceAs (Decidable (_ ≤ _))

/-- The translation of an address after the call, given the one before. -/
def remap (x : ℕ) (w : Option (ℕ × ℕ)) (c : MapCall) : Option (ℕ × ℕ) :=
  if roundDown c.va ≤ x ∧ x < roundUp (c.va + c.len) then
    some (roundDown c.pa + (x - roundDown c.va), c.attrs)
  else w

end MapCall

/-- The translation that calls leave, oldest call first. -/
def translation (cs : List MapCall) (x : ℕ) : Option (ℕ × ℕ) := cs.foldl (MapCall.remap x) none

theorem MapCall.remap_lt {c : MapCall} (hc : c.Fits) {x : ℕ} {w : Option (ℕ × ℕ)}
    (hw : ∀ o, w = some o → o.1 < 2 ^ paBits) :
    ∀ o, c.remap x w = some o → o.1 < 2 ^ paBits := by
  intro o ho
  unfold MapCall.remap at ho
  split_ifs at ho with hin
  · obtain rfl := Option.some.inj ho
    unfold MapCall.Fits MapCall.count at hc
    unfold roundDown roundUp at hin hc
    unfold roundDown
    dsimp only
    omega
  · exact hw o ho

/-- Calls that fit give frames that fit. -/
theorem foldl_remap_lt {cs : List MapCall} (hcs : ∀ c ∈ cs, c.Fits) {x : ℕ} {w : Option (ℕ × ℕ)}
    (hw : ∀ o, w = some o → o.1 < 2 ^ paBits) :
    ∀ o, cs.foldl (MapCall.remap x) w = some o → o.1 < 2 ^ paBits := by
  induction cs generalizing w with
  | nil => exact hw
  | cons c cs ih =>
    apply ih fun d hd => hcs d (List.mem_cons_of_mem c hd)
    exact MapCall.remap_lt (hcs c List.mem_cons_self) hw

section
variable (pick : List ℕ → ℕ)

def mapCalls (r : PtRoot) : List MapCall → PageMem → Except Halt PageMem
  | [], m => pure m
  | c :: cs, m => do
    let m ← mapRangePages pick m r c.va c.pa c.len c.attrs
    mapCalls r cs m

/-- A new root and calls of `map_range_pages` on it. -/
def mapTree (cs : List MapCall) (m : PageMem) : Except Halt (PtRoot × PageMem) := do
  let r ← ptRootNew pick m
  let m ← mapCalls pick r.1 cs r.2
  pure (r.1, m)

end

section
variable {pick : List ℕ → ℕ} {m : PageMem} {own old : List ℕ} {table : ℕ → ℕ → ℕ}

theorem mapCall_spec (hpick : IdealPages pick) {r : PtRoot} (h : Built m r.l0 own old table)
    {c : MapCall} (hc : c.Allowed) :
    Allocs pick m.pages (3 * c.count) id (fun m' => (∃ own', Built m' r.l0 own' old table) ∧
      ∀ x, x < 2 ^ 48 → walk m' r.l0 x = c.remap x (walk m r.l0 x))
      (mapRangePages pick m r c.va c.pa c.len c.attrs) := by
  have hva := hc.va
  have hpa := hc.pa
  apply mapRangePages_spec hpick h c.va c.pa c.len hc.attrs
  · omega
  · omega
  · unfold roundDown roundUp
    omega

theorem mapCalls_spec (hpick : IdealPages pick) {r : PtRoot} (cs : List MapCall)
    (h : Built m r.l0 own old table) (hcs : ∀ c ∈ cs, c.Allowed) :
    Allocs pick m.pages (3 * (cs.map MapCall.count).sum) id
      (fun m' => (∃ own', Built m' r.l0 own' old table) ∧
        ∀ x, x < 2 ^ 48 → walk m' r.l0 x = cs.foldl (MapCall.remap x) (walk m r.l0 x))
      (mapCalls pick r cs m) := by
  induction cs generalizing m own with
  | nil => exact allocs_pure rfl ⟨⟨own, h⟩, fun _ _ => rfl⟩
  | cons c cs ih =>
    rw [mapCalls, List.map_cons, List.sum_cons, Nat.mul_add]
    apply (mapCall_spec hpick h (hcs c List.mem_cons_self)).bind
    intro m₁ hm₁
    obtain ⟨⟨own₁, h₁⟩, hwalk⟩ := hm₁
    apply (ih h₁ fun d hd => hcs d (List.mem_cons_of_mem c hd)).mono le_rfl
    intro m₂ hm₂
    obtain ⟨hbuilt, hwalk'⟩ := hm₂
    refine ⟨hbuilt, ?_⟩
    intro x hx
    rw [hwalk' x hx, hwalk x hx, List.foldl_cons]

/-- The panic on NULL leaves a root that is none. -/
theorem ptRootNew_root (hpick : IdealPages pick) (m : PageMem) :
    Allocs pick m.pages 1 Prod.snd
      (fun r => (∃ own, Built r.2 r.1.l0 own m.pages m.table) ∧ r.1.l0 ≠ 0 ∧
        ∀ x, walk r.2 r.1.l0 x = none) (ptRootNew pick m) := by
  have hspec := ptRootNew_spec hpick m
  cases hr : ptRootNew pick m with
  | error e =>
    rw [hr] at hspec
    exact hspec
  | ok r =>
    rw [hr] at hspec
    obtain ⟨hpages, hbuilt, -, hnone⟩ := hspec
    refine ⟨hpages, hbuilt, ?_, hnone⟩
    intro hzero
    unfold ptRootNew ptAllocPageOrDie at hr
    dsimp only at hr
    split_ifs at hr with hp halign
    · cases hr
    · cases hr
    · obtain rfl := Except.ok.inj hr
      exact hp hzero

/-- A root and calls on it translate as the calls say. -/
theorem mapTree_spec (hpick : IdealPages pick) (cs : List MapCall) (hcs : ∀ c ∈ cs, c.Allowed)
    (m : PageMem) :
    Allocs pick m.pages (1 + 3 * (cs.map MapCall.count).sum) Prod.snd
      (fun r => (∃ own, Built r.2 r.1.l0 own m.pages m.table) ∧ r.1.l0 ≠ 0 ∧
        ∀ x, x < 2 ^ 48 → walk r.2 r.1.l0 x = translation cs x)
      (mapTree pick cs m) := by
  unfold mapTree
  apply (ptRootNew_root hpick m).bind
  intro r hr
  obtain ⟨⟨own, hbuilt⟩, hne, hnone⟩ := hr
  apply ((mapCalls_spec hpick cs hbuilt hcs).bind (k := 0) ?_).mono le_rfl fun _ => id
  intro m₁ hm₁
  obtain ⟨hbuilt₁, hwalk⟩ := hm₁
  refine allocs_pure rfl ⟨hbuilt₁, hne, ?_⟩
  intro x hx
  rw [hwalk x hx, hnone x]
  rfl

/-- A dump of tables below `2 ^ PA_BITS`. -/
theorem dumpMap_built (map : MmuMap) (h : Built m map.root.l0 own old table)
    (hroot : map.root.l0 ≠ 0) (hlow : ∀ a ∈ m.pages, a ∉ old → a < 2 ^ paBits) (s : RunState) :
    ∃ runs, (dumpMap m map s).out = s.out ++ runs ∧
      Reports m map.root.l0 (fun pa => pa % 2 ^ paBits) runs := by
  apply dumpMap_tree h.tree ?_ hroot s
  intro a ha
  apply hlow a ?_ (h.disjoint a ha)
  rw [h.pages]
  exact List.mem_append_left _ ha

end

/-! ## Low table pages -/

/-- What is asked of the allocator: a page that is not NULL is aligned and not handed out
already. -/
structure FreshPages (pick : List ℕ → ℕ) : Prop where
  aligned : ∀ used, pick used % 4096 = 0
  fresh : ∀ used, pick used ≠ 0 → pick used ∉ used

/-- The allocator that has only the pages below `2 ^ PA_BITS`. -/
def lowPick (pick : List ℕ → ℕ) (used : List ℕ) : ℕ :=
  if pick used < 2 ^ paBits then pick used else 0

theorem FreshPages.low {pick : List ℕ → ℕ} (h : FreshPages pick) : IdealPages (lowPick pick) where
  aligned used := by
    unfold lowPick
    split_ifs
    · exact h.aligned used
    · rfl
  bound used := by
    have hbits : 2 ^ paBits ≤ 2 ^ 48 := by decide
    unfold lowPick
    split_ifs <;> omega
  fresh used hne := by
    unfold lowPick at hne ⊢
    split_ifs at hne ⊢
    · exact h.fresh used hne
    · exact absurd rfl hne

/-- All pages that have been taken since `old` are low. -/
def LowSince (old pages : List ℕ) : Prop := ∀ a ∈ pages, a ∉ old → a < 2 ^ paBits

/-- Where `x` succeeds with low pages, `y` has the same result. -/
def Follows (old : List ℕ) (m : PageMem) {α : Type} (mem : α → PageMem) (x y : Except Halt α) :
    Prop :=
  ∀ a, x = .ok a → m.pages ⊆ (mem a).pages ∧ (LowSince old (mem a).pages → y = .ok a)

section
variable {pick : List ℕ → ℕ} {old : List ℕ} {m : PageMem} {α β : Type}

theorem LowSince.mono {pages pages' : List ℕ} (h : LowSince old pages') (hsub : pages ⊆ pages') :
    LowSince old pages := fun a ha => h a (hsub ha)

theorem Follows.pure {mem : α → PageMem} {a : α} (h : m.pages ⊆ (mem a).pages) :
    Follows old m mem (.ok a) (.ok a) := by
  intro b hb
  obtain rfl := Except.ok.inj hb
  exact ⟨h, fun _ => rfl⟩

theorem Follows.bind {mem : α → PageMem} {mem' : β → PageMem} {x y : Except Halt α}
    {f g : α → Except Halt β} (h : Follows old m mem x y)
    (hf : ∀ a, m.pages ⊆ (mem a).pages → Follows old (mem a) mem' (f a) (g a)) :
    Follows old m mem' (x >>= f) (y >>= g) := by
  intro b hb
  cases hx : x with
  | error e =>
    rw [hx] at hb
    cases hb
  | ok a =>
    rw [hx] at hb
    obtain ⟨hsub, hy⟩ := h a hx
    obtain ⟨hsub', hg⟩ := hf a hsub b hb
    refine ⟨List.Subset.trans hsub hsub', ?_⟩
    intro hlow
    rw [hy (hlow.mono hsub')]
    exact hg hlow

theorem ptAllocPageOrDie_follows (hpick : FreshPages pick) (hold : old ⊆ m.pages) :
    Follows old m Prod.snd (ptAllocPageOrDie pick m) (ptAllocPageOrDie (lowPick pick) m) := by
  intro r hr
  unfold ptAllocPageOrDie at hr
  dsimp only at hr
  split_ifs at hr with hzero halign
  obtain rfl := Except.ok.inj hr
  refine ⟨List.subset_cons_self _ _, ?_⟩
  intro hlow
  have hlt : pick m.pages < 2 ^ paBits :=
    hlow _ List.mem_cons_self fun hmem => hpick.fresh _ hzero (hold hmem)
  have hsame : lowPick pick m.pages = pick m.pages := if_pos hlt
  unfold ptAllocPageOrDie
  dsimp only
  rw [hsame, if_neg hzero, if_neg halign]

theorem ensureNext_follows (hpick : FreshPages pick) (hold : old ⊆ m.pages) (lvl idx : ℕ) :
    Follows old m Prod.snd (ensureNext pick m lvl idx) (ensureNext (lowPick pick) m lvl idx) := by
  unfold ensureNext
  dsimp only
  split_ifs
  · apply (ptAllocPageOrDie_follows hpick hold).bind
    intro r _
    exact Follows.pure (List.Subset.refl _)
  · exact Follows.pure (List.Subset.refl _)

theorem mapPage_follows (hpick : FreshPages pick) (hold : old ⊆ m.pages) (r : PtRoot)
    (va pa attrs : ℕ) :
    Follows old m id (mapPage pick m r va pa attrs) (mapPage (lowPick pick) m r va pa attrs) := by
  unfold mapPage
  apply (ensureNext_follows hpick hold r.l0 (idxL0 va)).bind
  intro l1 h1
  apply (ensureNext_follows hpick (List.Subset.trans hold h1) l1.1 (idxL1 va)).bind
  intro l2 h2
  have hold₂ := List.Subset.trans (List.Subset.trans hold h1) h2
  apply (ensureNext_follows hpick hold₂ l2.1 (idxL2 va)).bind
  intro l3 _
  exact Follows.pure (List.Subset.refl _)

theorem mapLoop_follows (hpick : FreshPages pick) (r : PtRoot) (end_ attrs fuel va pa : ℕ)
    (hold : old ⊆ m.pages) :
    Follows old m id (mapLoop pick r end_ attrs fuel m va pa)
      (mapLoop (lowPick pick) r end_ attrs fuel m va pa) := by
  induction fuel generalizing m va pa with
  | zero =>
    intro a ha
    cases ha
  | succ fuel ih =>
    unfold mapLoop
    split_ifs
    · apply (mapPage_follows hpick hold r va pa attrs).bind
      intro m₁ h₁
      exact ih _ _ (List.Subset.trans hold h₁)
    · exact Follows.pure (List.Subset.refl _)

theorem mapCalls_follows (hpick : FreshPages pick) (r : PtRoot) (cs : List MapCall)
    (hold : old ⊆ m.pages) :
    Follows old m id (mapCalls pick r cs m) (mapCalls (lowPick pick) r cs m) := by
  induction cs generalizing m with
  | nil => exact Follows.pure (List.Subset.refl _)
  | cons c cs ih =>
    unfold mapCalls mapRangePages
    apply (mapLoop_follows hpick r _ _ _ _ _ hold).bind
    intro m₁ h₁
    exact ih (List.Subset.trans hold h₁)

theorem ptRootNew_follows (hpick : FreshPages pick) (hold : old ⊆ m.pages) :
    Follows old m Prod.snd (ptRootNew pick m) (ptRootNew (lowPick pick) m) := by
  unfold ptRootNew
  apply (ptAllocPageOrDie_follows hpick hold).bind
  intro r _
  exact Follows.pure (List.Subset.refl _)

/-- A tree with low tables is one that the smaller allocator builds too. -/
theorem mapTree_follows (hpick : FreshPages pick) (cs : List MapCall) (m : PageMem) :
    Follows m.pages m Prod.snd (mapTree pick cs m) (mapTree (lowPick pick) cs m) := by
  unfold mapTree
  apply (ptRootNew_follows hpick (List.Subset.refl _)).bind
  intro r hr
  apply (mapCalls_follows hpick r.1 cs hr).bind
  intro m₁ _
  exact Follows.pure (List.Subset.refl _)

end

/-! ## Pages from an empty memory -/

/-- A few calls on an empty memory succeed, with low table pages. -/
theorem mapTree_nextPage (cs : List MapCall) (hcs : ∀ c ∈ cs, c.Allowed)
    (hcount : 1 + 3 * (cs.map MapCall.count).sum ≤ 2 ^ 20) :
    ∃ r m, mapTree nextPage cs ⟨fun _ _ => 0, []⟩ = .ok (r, m) ∧ ∀ a ∈ m.pages, a < 2 ^ paBits := by
  obtain ⟨rm, hmap, hmax⟩ := (mapTree_spec nextPage_ideal cs hcs ⟨fun _ _ => 0, []⟩).returns
    (k := 0) (by omega) (by decide)
  refine ⟨rm.1, rm.2, hmap, ?_⟩
  intro a ha
  have hle := le_foldr_max _ 0x51800000 a ha
  have hbits : 2 ^ paBits = 0x1000000000 := by decide
  omega

/-- The dump of a map built by calls of `map_range_pages` prints its translation page by page,
the frames by their low `PA_BITS`, in ordered runs that cannot be joined. When no call leaves
those bits, the frames are those of the walk. -/
theorem dumpMap_reports {pick : List ℕ → ℕ} (hpick : FreshPages pick) (m₀ : PageMem)
    (cs : List MapCall) (hcs : ∀ c ∈ cs, c.Allowed) {r : PtRoot} {m : PageMem}
    (hmap : mapTree pick cs m₀ = .ok (r, m))
    (hlow : ∀ a ∈ m.pages, a ∉ m₀.pages → a < 2 ^ paBits) (asid : ℕ) (s : RunState) :
    ∃ runs, (dumpMap m ⟨r, asid⟩ s).out = s.out ++ runs ∧
      Reports m r.l0 (fun pa => pa % 2 ^ paBits) runs ∧
      ((∀ c ∈ cs, c.Fits) → Reports m r.l0 id runs) := by
  have hspec := mapTree_spec hpick.low cs hcs m₀
  rw [(mapTree_follows hpick cs m₀ (r, m) hmap).2 hlow] at hspec
  obtain ⟨-, ⟨own, hbuilt⟩, hroot, hwalk⟩ := hspec
  obtain ⟨runs, hout, hruns⟩ := dumpMap_built (m := m) ⟨r, asid⟩ hbuilt hroot hlow s
  refine ⟨runs, hout, hruns, ?_⟩
  intro hfits
  apply hruns.congr
  intro va hva o ho
  rw [hwalk va hva] at ho
  exact Nat.mod_eq_of_lt (foldl_remap_lt hfits (by simp) o ho)


/-- Two adjacent pages that are mapped one by one. -/
theorem dumpMap_reports_two :
    ∃ r m runs,
      mapTree nextPage [⟨0x2000, 0x9000, 0x1000, pteProcRwx⟩, ⟨0x1000, 0x8000, 0x1000, pteProcRwx⟩]
        ⟨fun _ _ => 0, []⟩ = .ok (r, m) ∧
      (dumpMap m ⟨r, 1⟩ ⟨false, 0, 0, 0, []⟩).out = runs ∧ Reports m r.l0 id runs := by
  have hcs : ∀ c ∈ ([⟨0x2000, 0x9000, 0x1000, pteProcRwx⟩, ⟨0x1000, 0x8000, 0x1000, pteProcRwx⟩] :
      List MapCall), c.Allowed := by
    intro c hc
    simp only [List.mem_cons, List.not_mem_nil, or_false] at hc
    obtain rfl | rfl := hc
    all_goals exact ⟨by decide, by decide, goodAttrs_proc⟩
  obtain ⟨r, m, hmap, hlow⟩ := mapTree_nextPage _ hcs (by decide)
  obtain ⟨runs, hout, -, hexact⟩ := dumpMap_reports
    ⟨nextPage_ideal.aligned, nextPage_ideal.fresh⟩ _ _ hcs hmap
    (fun a ha _ => hlow a ha) 1 ⟨false, 0, 0, 0, []⟩
  exact ⟨r, m, runs, hmap, hout, hexact (by decide)⟩

/-- Two bytes across a page boundary, sent to the last two bytes below `2 ^ PA_BITS`: the second
page gets the frame behind them, which the dump shows as zero. -/
theorem dumpMap_beyond :
    let c : MapCall := ⟨4095, 2 ^ 36 - 2, 2, pteProcRwx⟩
    c.Allowed ∧ ∃ r m, mapTree nextPage [c] ⟨fun _ _ => 0, []⟩ = .ok (r, m) ∧
      (∀ a ∈ m.pages, a < 2 ^ paBits) ∧ walk m r.l0 4096 = some (2 ^ 36, pteProcRwx) ∧
      ∀ runs, (dumpMap m ⟨r, 1⟩ ⟨false, 0, 0, 0, []⟩).out = runs →
        (4096, 0) ∈ runs.flatMap (Block.points pageSize) ∧ ¬ Reports m r.l0 id runs := by
  intro c
  have hc : c.Allowed := ⟨by decide, by decide, goodAttrs_proc⟩
  have hcs : ∀ d ∈ [c], d.Allowed := by
    intro d hd
    rw [List.mem_singleton.mp hd]
    exact hc
  obtain ⟨r, m, hmap, hlow⟩ := mapTree_nextPage [c] hcs (by decide)
  have hspec := mapTree_spec nextPage_ideal [c] hcs ⟨fun _ _ => 0, []⟩
  rw [hmap] at hspec
  obtain ⟨-, ⟨own, hbuilt⟩, hroot, hwalk⟩ := hspec
  have hmapped : translation [⟨4095, 2 ^ 36 - 2, 2, pteProcRwx⟩] 4096 =
      some (2 ^ 36, pteProcRwx) := by decide
  have hframe : walk m r.l0 4096 = some (2 ^ 36, pteProcRwx) :=
    (hwalk 4096 (by decide)).trans hmapped
  refine ⟨hc, r, m, hmap, hlow, hframe, ?_⟩
  intro runs hruns
  obtain ⟨runs', hout, hreports⟩ := dumpMap_built (m := m) ⟨r, 1⟩ hbuilt hroot
    (fun a ha _ => hlow a ha) ⟨false, 0, 0, 0, []⟩
  obtain rfl : runs' = runs := hout.symm.trans hruns
  have hshown : (4096, 0) ∈ runs'.flatMap (Block.points pageSize) :=
    (hreports.pages 4096 0).mpr ⟨by decide, by decide, _, hframe, by decide⟩
  refine ⟨hshown, ?_⟩
  intro hid
  obtain ⟨-, -, o, ho, hpa⟩ := (hid.pages 4096 0).mp hshown
  rw [hframe] at ho
  obtain rfl := Option.some.inj ho
  exact absurd hpa (by decide)

end JanusRT
