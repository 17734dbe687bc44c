import JanusRT.Rtcore
import JanusRT.Lib.FetchCache
import JanusRT.Lib.Masks

/-!
# Making a program fetchable

`rtcore_icache_sync_phys_range` cleans the data cache and then invalidates the instruction cache, a
line at a time, over the addresses at which the module has the code window mapped. The loops come
to an end unless the range ends in the last line of the address space; then they touch the lines
that meet the range and no others.
-/
namespace JanusRT.CacheSync
open Outcome FetchCache

/-! ## The loops -/

/-- `dc cvau` and `ic ivau`. -/
inductive Maint
  | dcCvau (addr : ℕ)
  | icIvau (addr : ℕ)
  deriving DecidableEq, Repr

/-- The fields of `CTR_EL0`. -/
def dminline (ctr : ℕ) : ℕ := (ctr >>> 16) &&& 0xF

def iminline (ctr : ℕ) : ℕ := ctr &&& 0xF

/-- `4UL << minline`. -/
def lineBytes (minline : ℕ) : ℕ := 4 <<< minline

/-- `start & ~(line - 1)`. -/
def lineStart (line start : ℕ) : ℕ := start &&& (u64 - 1 - (line - 1))

/-- The addresses that `for (addr = start; addr < end; addr += line)` gets to. -/
def lineLoop (line stop : ℕ) : ℕ → ℕ → Except Stop (List ℕ)
  | 0, _ => .error .loopBound
  | fuel + 1, addr =>
    if addr < stop then do
      let rest ← lineLoop line stop fuel ((addr + line) % u64)
      pure (addr :: rest)
    else pure []

/-- No run that ends gets to an address twice. -/
def lines (minline start stop : ℕ) : Except Stop (List ℕ) :=
  lineLoop (lineBytes minline) stop u64 (lineStart (lineBytes minline) start)

def cleanDcachePouRange (ctr start stop : ℕ) : Except Stop (List Maint) := do
  let addrs ← lines (dminline ctr) start stop
  pure (addrs.map .dcCvau)

def invalIcachePouRange (ctr start stop : ℕ) : Except Stop (List Maint) := do
  let addrs ← lines (iminline ctr) start stop
  pure (addrs.map .icIvau)

def rtcoreIcacheSyncPhysRange (ctr jrtMemVirt phys len : ℕ) : Except Stop (List Maint) :=
  if len = 0 then pure []
  else do
    let off := (phys + (u64 - code0)) % u64
    let start := (jrtMemVirt + off) % u64
    let stop := (start + len) % u64
    let cleans ← cleanDcachePouRange ctr start stop
    let invals ← invalIcachePouRange ctr start stop
    pure (cleans ++ invals)

/-- The physical address behind one of the window's mapping. -/
def physOf (jrtMemVirt va : ℕ) : ℕ := code0 + (va - jrtMemVirt)

/-- What an instruction does to the lines of the caches. -/
def Maint.op {V : Type} (ctr jrtMemVirt : ℕ) : Maint → Op V
  | .dcCvau va => .clean ⟨lineBytes (dminline ctr), physOf jrtMemVirt va⟩
  | .icIvau va => .invalidate ⟨lineBytes (iminline ctr), physOf jrtMemVirt va⟩

def Maint.addr : Maint → ℕ
  | .dcCvau va => va
  | .icIvau va => va

/-! ## Lines -/

theorem lineBytes_eq (minline : ℕ) : lineBytes minline = 2 ^ (minline + 2) := by
  rw [lineBytes, Nat.shiftLeft_eq, pow_add, Nat.mul_comm]
  norm_num

theorem dminline_le (ctr : ℕ) : dminline ctr ≤ 15 := Nat.and_le_right

theorem iminline_le (ctr : ℕ) : iminline ctr ≤ 15 := Nat.and_le_right

section Lines
variable {minline start stop : ℕ}

theorem lineBytes_pos (minline : ℕ) : 0 < lineBytes minline := by
  rw [lineBytes_eq]
  exact Nat.two_pow_pos _

theorem lineBytes_dvd (hmin : minline ≤ 15) {n : ℕ} (hn : 2 ^ 17 ∣ n) : lineBytes minline ∣ n := by
  rw [lineBytes_eq]
  exact (pow_dvd_pow 2 (by omega)).trans hn

theorem lineBytes_le (hmin : minline ≤ 15) : lineBytes minline ≤ 2 ^ 17 :=
  Nat.le_of_dvd (by decide) (lineBytes_dvd hmin (dvd_refl _))

theorem lineStart_eq (hmin : minline ≤ 15) (hstart : start < u64) :
    lineStart (lineBytes minline) start = start / lineBytes minline * lineBytes minline := by
  have hpos := Nat.two_pow_pos (minline + 2)
  have hsub : 64 - (minline + 2) + (minline + 2) = 64 := by omega
  have hmask : u64 - 1 - (2 ^ (minline + 2) - 1) = Masks.field (minline + 2) 64 := by
    have hsplit : 2 ^ (64 - (minline + 2)) * 2 ^ (minline + 2) = 2 ^ 64 := by
      rw [← pow_add, hsub]
    rw [Masks.field, Nat.shiftLeft_eq, Nat.sub_mul, hsplit, one_mul]
    unfold u64
    omega
  have hmod : start % 2 ^ 64 = start := Nat.mod_eq_of_lt hstart
  rw [lineStart, lineBytes_eq, hmask, Masks.and_field, hmod]

end Lines

/-! ## When the loops end -/

section Loop
variable {line stop addr fuel n : ℕ}

/-- The `n` lines from `addr` on reach the end, and `n - 1` do not. -/
theorem lineLoop_eq (hlt : addr + n * line < stop + line) (hge : stop ≤ addr + n * line)
    (hw : stop + line ≤ u64) (hf : n < fuel) :
    lineLoop line stop fuel addr = .ok (List.range' addr n line) := by
  induction n generalizing addr fuel with
  | zero =>
    obtain ⟨fuel, rfl⟩ : ∃ f, fuel = f + 1 := ⟨fuel - 1, by omega⟩
    rw [lineLoop, if_neg (by omega)]
    rfl
  | succ n ih =>
    obtain ⟨fuel, rfl⟩ : ∃ f, fuel = f + 1 := ⟨fuel - 1, by omega⟩
    rw [Nat.succ_mul] at hlt hge
    have haddr : addr < stop := by omega
    rw [lineLoop, if_pos haddr, Nat.mod_eq_of_lt (by omega),
      ih (by omega) (by omega) (by omega)]
    rfl

/-- When the range ends in the last line, `addr` wraps to zero. -/
theorem lineLoop_stuck (hline : line ∣ u64) (hw : u64 < stop + line) (haddr : line ∣ addr)
    (hlt : addr < u64) : lineLoop line stop fuel addr = .error .loopBound := by
  induction fuel generalizing addr with
  | zero => rfl
  | succ fuel ih =>
    have hpos : 0 < line := Nat.pos_of_dvd_of_pos hline (by decide)
    have hle : addr + line ≤ u64 := by
      obtain ⟨q, hq⟩ := hline
      obtain ⟨k, rfl⟩ := haddr
      rw [hq] at hlt ⊢
      have hk : k < q := Nat.lt_of_mul_lt_mul_left hlt
      calc line * k + line = line * (k + 1) := by ring
        _ ≤ line * q := Nat.mul_le_mul_left line hk
    have hnext : line ∣ (addr + line) % u64 :=
      (Nat.dvd_mod_iff hline).mpr ((Nat.dvd_add_right haddr).mpr (dvd_refl line))
    rw [lineLoop, if_pos (by omega), ih hnext (Nat.mod_lt _ (by decide))]
    rfl

end Loop

section Lines
variable {minline start stop : ℕ}

/-- The first line that meets the range, and how many of them there are. -/
theorem lines_eq (hmin : minline ≤ 15) (hlt : start < stop)
    (hw : stop + lineBytes minline ≤ u64) :
    ∃ n, lines minline start stop =
        .ok (List.range' (start / lineBytes minline * lineBytes minline) n (lineBytes minline)) ∧
      stop ≤ start / lineBytes minline * lineBytes minline + n * lineBytes minline ∧
      start / lineBytes minline * lineBytes minline + n * lineBytes minline <
        stop + lineBytes minline := by
  have hpos := lineBytes_pos minline
  set line := lineBytes minline with hline
  set first := start / line * line with hfirst
  have hle : first ≤ start := Nat.div_mul_le_self start line
  let n := (stop - first + (line - 1)) / line
  have hdiv := Nat.div_add_mod (stop - first + (line - 1)) line
  have hmod := Nat.mod_lt (stop - first + (line - 1)) hpos
  have hn : n * line = line * n := Nat.mul_comm _ _
  have hn' : line * n = line * ((stop - first + (line - 1)) / line) := rfl
  refine ⟨n, ?_, by omega, by omega⟩
  have hle' : n ≤ n * line := Nat.le_mul_of_pos_right n hpos
  rw [lines, ← hline, lineStart_eq hmin (by omega), ← hline, ← hfirst]
  exact lineLoop_eq (by omega) (by omega) hw (by omega)

/-- The loops return if and only if the range ends before the last line. -/
theorem lines_returns_iff (hmin : minline ≤ 15) (hlt : start < stop) (hstop : stop < u64) :
    (∃ addrs, lines minline start stop = .ok addrs) ↔ stop + lineBytes minline ≤ u64 := by
  constructor
  · rintro ⟨addrs, haddrs⟩
    by_contra hw
    have hdvd : lineBytes minline ∣ u64 := lineBytes_dvd hmin (by decide)
    have hstart : lineStart (lineBytes minline) start ≤ start := Nat.and_le_left
    rw [lines, lineLoop_stuck hdvd (by omega) ?_ (by omega)] at haddrs
    · cases haddrs
    · rw [lineStart_eq hmin (by omega)]
      exact Nat.dvd_mul_left _ _
  · intro hw
    obtain ⟨n, hn, -⟩ := lines_eq hmin hlt hw
    exact ⟨_, hn⟩

/-- A line for every address of the range, and none that does not meet it. -/
theorem mem_lines (hmin : minline ≤ 15) (start stop : ℕ) (hlt : start < stop)
    (hw : stop + lineBytes minline ≤ u64) :
    ∃ addrs, lines minline start stop = .ok addrs ∧
      (∀ va, start ≤ va → va < stop → va / lineBytes minline * lineBytes minline ∈ addrs) ∧
      ∀ x ∈ addrs, lineBytes minline ∣ x ∧ start < x + lineBytes minline ∧ x < stop := by
  have hpos := lineBytes_pos minline
  obtain ⟨n, hn, hge, hlast⟩ := lines_eq hmin hlt hw
  generalize lineBytes minline = line at *
  refine ⟨_, hn, ?_, ?_⟩
  · intro va hlo hhi
    rw [List.mem_range']
    have hq : start / line ≤ va / line := Nat.div_le_div_right hlo
    refine ⟨va / line - start / line, ?_, ?_⟩
    · have hlt' : va / line * line < (start / line + n) * line := by
        rw [Nat.add_mul]
        exact (Nat.div_mul_le_self va line).trans_lt (by omega)
      have := Nat.lt_of_mul_lt_mul_right hlt'
      omega
    · rw [Nat.mul_sub, Nat.mul_comm line, Nat.mul_comm line]
      have := Nat.mul_le_mul_right line hq
      omega
  · intro x hx
    obtain ⟨i, hi, rfl⟩ := List.mem_range'.mp hx
    have hfirst := Nat.div_add_mod start line
    have hmod := Nat.mod_lt start hpos
    have hcomm : start / line * line = line * (start / line) := Nat.mul_comm _ _
    have hlast' : line * i + line ≤ n * line := by
      calc line * i + line = (i + 1) * line := by ring
        _ ≤ n * line := Nat.mul_le_mul_right line hi
    refine ⟨?_, by omega, by omega⟩
    exact (Nat.dvd_add_right (Nat.dvd_mul_left _ _)).mpr (Nat.dvd_mul_right _ _)

end Lines

/-! ## Both loops -/

/-- The window is mapped on whole lines and not at the very end of the address space. -/
structure WindowMapped (ctr jrtMemVirt : ℕ) : Prop where
  dline : lineBytes (dminline ctr) ∣ jrtMemVirt
  iline : lineBytes (iminline ctr) ∣ jrtMemVirt
  room : jrtMemVirt + jrtCodeSize + 2 ^ 17 ≤ u64

/-- Virtual and physical lines are the same. -/
theorem physOf_covers {line jrtMemVirt va : ℕ} (hpos : 0 < line) (hcode : line ∣ code0)
    (hvirt : line ∣ jrtMemVirt) (hle : jrtMemVirt ≤ va) :
    (⟨line, physOf jrtMemVirt (va / line * line)⟩ : Line).Covers (physOf jrtMemVirt va) := by
  obtain ⟨c, hc⟩ := hcode
  obtain ⟨v, rfl⟩ := hvirt
  have hdiv := Nat.div_add_mod va line
  have hmod := Nat.mod_lt va hpos
  have hv : v ≤ va / line := by
    rw [Nat.le_div_iff_mul_le hpos, Nat.mul_comm]
    exact hle
  have hva : physOf (line * v) va = line * (c + (va / line - v)) + va % line := by
    rw [physOf, hc, Nat.mul_add, Nat.mul_sub]
    have := Nat.mul_le_mul_left line hv
    omega
  have hline : physOf (line * v) (va / line * line) = line * (c + (va / line - v)) := by
    rw [physOf, hc, Nat.mul_add, Nat.mul_sub, Nat.mul_comm (va / line)]
  rw [Line.Covers, hva, hline, Nat.mul_add_div hpos, Nat.div_eq_of_lt hmod,
    Nat.mul_div_cancel_left _ hpos, Nat.add_zero]

/-- A line that ends above a line boundary starts there at the earliest. -/
theorem le_of_line {line x y : ℕ} (hx : line ∣ x) (hy : line ∣ y) (hlt : y < x + line) : y ≤ x := by
  obtain ⟨i, rfl⟩ := hx
  obtain ⟨j, rfl⟩ := hy
  have hsucc : line * j < line * (i + 1) := by rwa [Nat.mul_succ]
  exact Nat.mul_le_mul_left line (Nat.lt_succ_iff.mp (Nat.lt_of_mul_lt_mul_left hsucc))

section Sync
variable {ctr jrtMemVirt phys len : ℕ}

/-- The instructions for `[phys, phys + len)` stay in the mapping of the window, and they are what it
takes to make every address of the range fetchable. -/
structure Syncs (ctr jrtMemVirt phys len : ℕ) (ms : List Maint) : Prop where
  mapped : ∀ m ∈ ms, jrtMemVirt ≤ m.addr ∧ m.addr < jrtMemVirt + jrtCodeSize
  due : ∀ (V : Type) (h : Hierarchy V) (a : ℕ), phys ≤ a → a < phys + len →
    Due a h (ms.map (Maint.op ctr jrtMemVirt))

theorem rtcoreIcacheSyncPhysRange_syncs (hmap : WindowMapped ctr jrtMemVirt) (hlow : code0 ≤ phys)
    (hhigh : phys + len ≤ code0 + jrtCodeSize) :
    ∃ ms, rtcoreIcacheSyncPhysRange ctr jrtMemVirt phys len = .ok ms ∧
      Syncs ctr jrtMemVirt phys len ms := by
  obtain rfl | hlen := Nat.eq_zero_or_pos len
  · exact ⟨[], rfl, by simp, fun V h a hlo hhi => by omega⟩
  have hcode : code0 = 0x50000000 ∧ jrtCodeSize = 0x1000000 ∧ u64 = 2 ^ 64 := ⟨rfl, rfl, rfl⟩
  have hroom := hmap.room
  have hd := lineBytes_le (dminline_le ctr)
  have hi := lineBytes_le (iminline_le ctr)
  have hoff : (phys + (u64 - code0)) % u64 = phys - code0 := by
    rw [hcode.1, hcode.2.2]
    omega
  have hstart : (jrtMemVirt + (phys - code0)) % u64 = jrtMemVirt + (phys - code0) :=
    Nat.mod_eq_of_lt (by omega)
  have hstop : (jrtMemVirt + (phys - code0) + len) % u64 = jrtMemVirt + (phys - code0) + len :=
    Nat.mod_eq_of_lt (by omega)
  obtain ⟨ds, hds, hdcover, hdmeet⟩ := mem_lines (dminline_le ctr) (jrtMemVirt + (phys - code0))
    (jrtMemVirt + (phys - code0) + len) (by omega) (by omega)
  obtain ⟨is, his, hicover, himeet⟩ := mem_lines (iminline_le ctr) (jrtMemVirt + (phys - code0))
    (jrtMemVirt + (phys - code0) + len) (by omega) (by omega)
  refine ⟨ds.map .dcCvau ++ is.map .icIvau, ?_, ?_, ?_⟩
  · simp only [rtcoreIcacheSyncPhysRange, if_neg hlen.ne', hoff, hstart, hstop,
      cleanDcachePouRange, invalIcachePouRange, hds, his]
    rfl
  · intro m hm
    obtain hm | hm := List.mem_append.mp hm
    · obtain ⟨x, hx, rfl⟩ := List.mem_map.mp hm
      obtain ⟨hdvd, hlo, hhi⟩ := hdmeet x hx
      have := le_of_line hdvd hmap.dline (by omega)
      exact ⟨this, by dsimp only [Maint.addr]; omega⟩
    · obtain ⟨x, hx, rfl⟩ := List.mem_map.mp hm
      obtain ⟨hdvd, hlo, hhi⟩ := himeet x hx
      have := le_of_line hdvd hmap.iline (by omega)
      exact ⟨this, by dsimp only [Maint.addr]; omega⟩
  · intro V h a hlo hhi
    let va := jrtMemVirt + (a - code0)
    have ha : physOf jrtMemVirt va = a := by
      unfold physOf
      omega
    have hdl := hdcover va (by omega) (by omega)
    have hil := hicover va (by omega) (by omega)
    have hclean := List.mem_map_of_mem (f := fun x => (Maint.dcCvau x).op (V := V) ctr jrtMemVirt) hdl
    have hinval := List.mem_map_of_mem (f := fun x => (Maint.icIvau x).op (V := V) ctr jrtMemVirt) hil
    rw [← ha]
    apply Due.both
    · rw [List.map_append, List.map_map, List.map_map]
      exact (List.singleton_sublist.mpr hclean).append (List.singleton_sublist.mpr hinval)
    · exact physOf_covers (lineBytes_pos _) (lineBytes_dvd (dminline_le ctr) (by decide)) hmap.dline
        (Nat.le_add_right _ _)
    · exact physOf_covers (lineBytes_pos _) (lineBytes_dvd (iminline_le ctr) (by decide)) hmap.iline
        (Nat.le_add_right _ _)

/-- However the instructions are interleaved with those of other threads and with what the caches
do on their own: what nobody stores to meanwhile is fetched as it was stored. -/
theorem rtcoreIcacheSyncPhysRange_fetch (hmap : WindowMapped ctr jrtMemVirt) (hlow : code0 ≤ phys)
    (hhigh : phys + len ≤ code0 + jrtCodeSize) :
    ∃ ms, rtcoreIcacheSyncPhysRange ctr jrtMemVirt phys len = .ok ms ∧
      (∀ m ∈ ms, jrtMemVirt ≤ m.addr ∧ m.addr < jrtMemVirt + jrtCodeSize) ∧
      ∀ (V : Type) (h : Hierarchy V) (ops : List (Op V)),
        (ms.map (Maint.op ctr jrtMemVirt)).Sublist ops →
        ∀ a, phys ≤ a → a < phys + len → (∀ op ∈ ops, ¬ op.StoresAt a) →
          fetch (run h ops) a = h.data a := by
  obtain ⟨ms, hms, hsync⟩ := rtcoreIcacheSyncPhysRange_syncs hmap hlow hhigh
  refine ⟨ms, hms, hsync.mapped, ?_⟩
  intro V h ops hsub a hlo hhi hops
  rw [((hsync.due V h a hlo hhi).run hsub hops).fetch_eq, run_data hops]

/-- Lines of 64 bytes on both sides, for one page of the window. -/
theorem rtcoreIcacheSyncPhysRange_fetch_onePage :
    ∃ ms, rtcoreIcacheSyncPhysRange 0x84448004 0xFFFF800010000000 0x50100000 4096 = .ok ms ∧
      (∀ m ∈ ms, 0xFFFF800010000000 ≤ m.addr ∧ m.addr < 0xFFFF800010000000 + jrtCodeSize) ∧
      ∀ (V : Type) (h : Hierarchy V) (ops : List (Op V)),
        (ms.map (Maint.op 0x84448004 0xFFFF800010000000)).Sublist ops →
        ∀ a, 0x50100000 ≤ a → a < 0x50100000 + 4096 → (∀ op ∈ ops, ¬ op.StoresAt a) →
          fetch (run h ops) a = h.data a :=
  rtcoreIcacheSyncPhysRange_fetch ⟨by decide, by decide, by decide⟩ (by decide) (by decide)

end Sync

end JanusRT.CacheSync
