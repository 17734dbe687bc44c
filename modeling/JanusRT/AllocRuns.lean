import JanusRT.AllocBytes

/-!
# Runs of the allocator

A client allocates, frees what it has been given, and writes into the payload of the
blocks it holds. The heap stays well formed along every such run in which no block is
freed while the first unused block lies above it; a single free of the other kind leaves
a heap that is not well formed.
-/
namespace JanusRT.Alloc

open LinkedSet Outcome

/-- The allocator and the pointers its client holds. -/
structure Client where
  arena : Arena
  live : Finset ℕ

/-- What a client does. -/
inductive Event
  | alloc (len : ℕ)
  | free (p : ℕ)
  | store (p i : ℕ) (v : UInt8)

def step (st : Client) : Event → Except Halt Client
  | .alloc len => do
    let (p, s) ← alloc st.arena len
    return ⟨s, if p = 0 then st.live else insert p st.live⟩
  | .free p => do
    let s ← free st.arena p
    return ⟨s, st.live.erase p⟩
  | .store p i v =>
    return { st with arena := { st.arena with mem := Function.update st.arena.mem (p + i) v } }

/-- The heap right after `alloc_init`. -/
def boot (mem : ByteStore.Store) (base size : ℕ) : Client := ⟨allocInit mem base size, ∅⟩

/-- The calls the interface allows: lengths that a block can have, frees of live pointers
and writes inside a live block. -/
def Lawful (st : Client) : Event → Prop
  | .alloc len => 8 ≤ len ∧ len + usedHeaderSize < u32
  | .free p => p ∈ st.live
  | .store p i _ => p ∈ st.live ∧ usedHeaderSize + i < st.arena.get (p - usedHeaderSize) .next

instance (st : Client) : (e : Event) → Decidable (Lawful st e)
  | .alloc _ => inferInstanceAs (Decidable (_ ∧ _))
  | .free _ => inferInstanceAs (Decidable (_ ∈ _))
  | .store _ _ _ => inferInstanceAs (Decidable (_ ∧ _))

/-- A block is freed above the first unused block, or there is no unused block. -/
def AboveHole (st : Client) : Event → Prop
  | .free p => st.arena.free < ptrBlock p ∨ st.arena.free = st.arena.endAddr
  | _ => True

instance (st : Client) : (e : Event) → Decidable (AboveHole st e)
  | .alloc _ => isTrue trivial
  | .free _ => inferInstanceAs (Decidable (_ ∨ _))
  | .store _ _ _ => isTrue trivial

/-- The blocks tile the region, all links are exact, no two unused blocks are adjacent and
the used blocks are those of the live pointers. -/
def WellFormed (st : Client) : Prop :=
  ∃ B F, Shape st.arena B F ∧ Coalesced st.arena F ∧
    ∀ p, p ∈ st.live ↔ ∃ b, b ∈ B ∧ b ∉ F ∧ p = b + usedHeaderSize

/-- `alloc_init` makes one unused block. -/
theorem allocInit_shape (mem : ByteStore.Store) {base size : ℕ} (hsize : unusedHeaderSize ≤ size)
    (hlt : size < u32) (hspace : base + size < u64) :
    Shape (allocInit mem base size) {base} {base} ∧
      Coalesced (allocInit mem base size) {base} := by
  have hhdr : unusedHeaderSize = 20 := rfl
  have hend : add64 base size = base + size := add64_eq hspace
  have hD : Apart base base := .inl rfl
  have hmod : size % u32 = size := Nat.mod_eq_of_lt hlt
  have hget : ∀ j, (allocInit mem base size).get base j = match j with
      | .next => size
      | .nextFree => size
      | _ => 0 := by
    intro j
    cases j <;> simp [allocInit, Arena.get_set, hD, hmod]
  refine ⟨⟨⟨show add64 base size < u64 by omega, ?_⟩, Finset.mem_singleton_self base, ?_, ?_, ?_,
    Finset.Subset.refl _, ?_, ?_, .inl (Finset.mem_singleton_self base), ?_⟩, ?_⟩
  · change add64 base size < base + u32
    omega
  · intro b hb
    exact (Finset.mem_singleton.mp hb).ge
  · refine Linked.singleton (e := add64 base size) ?_ ?_ ?_
    · omega
    · simp only [hget]
      omega
    · simp only [hget]
  · intro b hb
    obtain rfl := Finset.mem_singleton.mp hb
    simp only [hget]
    omega
  · intro b hb
    obtain rfl := Finset.mem_singleton.mp hb
    simp only [hget, Finset.mem_singleton_self, if_true]
  · refine Linked.singleton (e := add64 base size) ?_ ?_ ?_
    · omega
    · simp only [hget]
      omega
    · simp only [hget]
  · intro b hb
    exact (Finset.mem_singleton.mp hb).ge
  · intro b hb hadj
    obtain rfl := Finset.mem_singleton.mp hb
    have := Finset.mem_singleton.mp hadj
    simp only [hget] at this
    omega

/-- A write into the payload of a used block touches no header. -/
theorem Shape.store {s : Arena} {B F : Finset ℕ} (h : Shape s B F) {b i : ℕ} (hb : b ∈ B)
    (hbF : b ∉ F) (hi : usedHeaderSize + i < s.get b .next) (v : UInt8) :
    Shape { s with mem := Function.update s.mem (b + usedHeaderSize + i) v } B F ∧
      ∀ c ∈ B, Arena.get { s with mem := Function.update s.mem (b + usedHeaderSize + i) v } c .next =
        s.get c .next := by
  refine h.payload hb hbF fun x hx => Function.update_of_ne ?_ _ _
  omega

/-- One call on a well-formed heap. -/
theorem step_wellFormed {st : Client} {e : Event} (hpos : 0 < st.arena.base) (h : WellFormed st)
    (hl : Lawful st e) (ha : AboveHole st e) :
    ∃ st', step st e = .ok st' ∧ 0 < st'.arena.base ∧ WellFormed st' := by
  obtain ⟨B, F, hs, hco, hlive⟩ := h
  cases e with
  | alloc len =>
    obtain ⟨p, s', hrun, hbase, hcase⟩ := hs.alloc hpos hco hl.1 hl.2
    refine ⟨⟨s', if p = 0 then st.live else insert p st.live⟩, ?_, hbase ▸ hpos, ?_⟩
    · rw [step, hrun]
      rfl
    rcases hcase with ⟨rfl, rfl⟩ | ⟨b, hb, rfl, B', F', hs', hco', hused⟩
    · exact ⟨B, F, hs, hco, hlive⟩
    · refine ⟨B', F', hs', hco', ?_⟩
      intro p
      have hp0 : b + usedHeaderSize ≠ 0 := Nat.succ_ne_zero _
      rw [if_neg hp0, Finset.mem_insert, hlive p]
      constructor
      · rintro (rfl | ⟨c, hcB, hcF, rfl⟩)
        · have := (hused b).mpr (.inr rfl)
          exact ⟨b, this.1, this.2, rfl⟩
        · have := (hused c).mpr (.inl ⟨hcB, hcF⟩)
          exact ⟨c, this.1, this.2, rfl⟩
      · rintro ⟨c, hcB, hcF, rfl⟩
        rcases (hused c).mp ⟨hcB, hcF⟩ with hc | rfl
        · exact .inr ⟨c, hc.1, hc.2, rfl⟩
        · exact .inl rfl
  | free p =>
    obtain ⟨b, hb, hbF, rfl⟩ := (hlive p).mp hl
    have hblock : ptrBlock (b + usedHeaderSize) = b := hs.ptrBlock_eq hb
    rw [AboveHole, hblock] at ha
    obtain ⟨s', hrun, hbase, B', F', hs', hco', hused⟩ := hs.free hpos hco hb hbF ha
    refine ⟨⟨s', st.live.erase (b + usedHeaderSize)⟩, ?_, hbase ▸ hpos, B', F', hs', hco', ?_⟩
    · rw [step, hrun]
      rfl
    · intro p
      rw [Finset.mem_erase, hlive p]
      constructor
      · rintro ⟨hne, c, hcB, hcF, rfl⟩
        have := (hused c).mpr ⟨⟨hcB, hcF⟩, fun he => hne (by rw [he])⟩
        exact ⟨c, this.1, this.2, rfl⟩
      · rintro ⟨c, hcB, hcF, rfl⟩
        obtain ⟨hc, hcb⟩ := (hused c).mp ⟨hcB, hcF⟩
        exact ⟨by omega, c, hc.1, hc.2, rfl⟩
  | store p i v =>
    obtain ⟨b, hb, hbF, rfl⟩ := (hlive p).mp hl.1
    have hi := hl.2
    rw [Nat.add_sub_cancel] at hi
    obtain ⟨hs', hnext⟩ := hs.store hb hbF hi v
    refine ⟨_, rfl, hpos, B, F, hs', ?_, hlive⟩
    intro c hc hadj
    rw [hnext c (hs.sub hc)] at hadj
    exact hco c hc hadj

/-- Freeing a block that lies below the first unused one. -/
theorem step_free_below {st : Client} {p : ℕ} (hpos : 0 < st.arena.base) (h : WellFormed st)
    (hl : Lawful st (.free p)) (ha : ¬ AboveHole st (.free p)) :
    ∃ st', step st (.free p) = .ok st' ∧ ¬ WellFormed st' := by
  obtain ⟨B, F, hs, hco, hlive⟩ := h
  obtain ⟨b, hb, hbF, rfl⟩ := (hlive p).mp hl
  rw [AboveHole, hs.ptrBlock_eq hb, not_or] at ha
  have hne : st.arena.free ≠ b := by
    intro he
    rcases hs.head with hF | hF
    · exact hbF (he ▸ hF)
    · exact ha.2 hF
  obtain ⟨s', hrun, hend, hfree, hback⟩ := hs.free_below hpos hb hbF (by omega) ha.2
  refine ⟨⟨s', st.live.erase (b + usedHeaderSize)⟩, ?_, ?_⟩
  · rw [step, hrun]
    rfl
  rintro ⟨B', F', hs', _, _⟩
  -- the freed block is the first of the list, so its link back should be zero
  have hbF' : b ∈ F' := by
    rcases hs'.head with hF | hF
    · exact hfree ▸ hF
    · have := hs.blocks.lt b hb
      have hF : s'.free = s'.endAddr := hF
      omega
  exact hback (hs'.frees.first b hbF' fun y hy => hfree ▸ hs'.lowest y hy)

/-- A run on a heap that is not at address zero. -/
theorem run_wellFormed {st : Client} (hpos : 0 < st.arena.base) (h : WellFormed st) (es : List Event)
    (hl : Along step Lawful st es) (ha : Along step AboveHole st es) :
    ∃ st', es.foldlM step st = .ok st' ∧ 0 < st'.arena.base ∧ WellFormed st' :=
  Along.foldlM (I := fun st : Client => 0 < st.arena.base ∧ WellFormed st)
    (fun _ _ hst hle => step_wellFormed hst.1 hst.2 hle.1 hle.2) (hl.and ha) ⟨hpos, h⟩

theorem boot_wellFormed (mem : ByteStore.Store) {base size : ℕ} (hsize : unusedHeaderSize ≤ size)
    (hlt : size < u32) (hspace : base + size < u64) : WellFormed (boot mem base size) := by
  obtain ⟨hs, hco⟩ := allocInit_shape mem hsize hlt hspace
  refine ⟨{base}, {base}, hs, hco, fun p => ⟨fun hp => absurd hp (Finset.notMem_empty p), ?_⟩⟩
  rintro ⟨b, hb, hbF, _⟩
  exact absurd hb hbF

/-- The scan of a list with one block. -/
theorem bestFit_single {s : Arena} {b : ℕ} (hne : b ≠ s.endAddr) (hnfree : s.nfree b = s.endAddr)
    (xlen : ℕ) :
    bestFit s xlen u64 b 0 = .ok (if xlen ≤ s.get b .next then b else 0) := by
  have hscan : ∀ k, bestFit s xlen (k + 2) b 0 = .ok (if xlen ≤ s.get b .next then b else 0) := by
    intro k
    rw [bestFit, if_neg hne, hnfree, bestFit, if_pos rfl]
    simp
  have hfuel : u64 = u64 - 2 + 2 := by decide
  rw [hfuel]
  exact hscan _

/-- A heap at address zero gives out nothing: its only block looks like `NULL`. -/
theorem alloc_null (mem : ByteStore.Store) {size : ℕ} (hsize : unusedHeaderSize ≤ size)
    (hlt : size < u32) (len : ℕ) :
    alloc (allocInit mem 0 size) len = .ok (0, allocInit mem 0 size) := by
  have hu : u32 < u64 := by decide
  have hhdr : unusedHeaderSize = 20 := rfl
  obtain ⟨hs, _⟩ := allocInit_shape mem hsize hlt (show 0 + size < u64 by omega)
  have hmem : 0 ∈ ({0} : Finset ℕ) := Finset.mem_singleton_self 0
  have hne : 0 ≠ (allocInit mem 0 size).endAddr := (hs.frees.lt 0 hmem).ne
  have hnfree : (allocInit mem 0 size).nfree 0 = (allocInit mem 0 size).endAddr := by
    obtain ⟨hgap, hn⟩ := hs.frees.next 0 hmem
    rw [hs.nfree_eq hmem]
    exact hn.resolve_left fun hz => hgap.1.ne' (Finset.mem_singleton.mp hz)
  have hfree : (allocInit mem 0 size).free = 0 := rfl
  rw [alloc, hfree, bestFit_single hne hnfree, ite_self]
  rfl

/-- A heap kept by a client that only frees above the first hole is well formed after
every call; a free below it, on any well-formed heap, is not survived. -/
theorem allocRun_wellFormed (mem : ByteStore.Store) {base size : ℕ}
    (hsize : unusedHeaderSize ≤ size) (hlt : size < u32) (hspace : base + size < u64) :
    (∀ es : List Event, Along step Lawful (boot mem base size) es →
      Along step AboveHole (boot mem base size) es →
      ∃ st, es.foldlM step (boot mem base size) = .ok st ∧ WellFormed st) ∧
    ∀ st p, 0 < st.arena.base → WellFormed st → Lawful st (.free p) → ¬ AboveHole st (.free p) →
      ∃ st', step st (.free p) = .ok st' ∧ ¬ WellFormed st' := by
  have hboot := boot_wellFormed mem hsize hlt hspace
  refine ⟨?_, fun st p => step_free_below⟩
  intro es hl ha
  rcases Nat.eq_zero_or_pos base with rfl | hpos
  · have hstay : ∀ st e, st = boot mem 0 size → Lawful st e →
        ∃ st', step st e = .ok st' ∧ st' = boot mem 0 size := by
      rintro _ e rfl hle
      cases e with
      | alloc len =>
        refine ⟨_, ?_, rfl⟩
        change (alloc (allocInit mem 0 size) len >>= _) = _
        rw [alloc_null mem hsize hlt]
        rfl
      | free p => exact absurd hle (Finset.notMem_empty p)
      | store p i v => exact absurd hle.1 (Finset.notMem_empty p)
    obtain ⟨st, hrun, rfl⟩ := Along.foldlM hstay hl rfl
    exact ⟨_, hrun, hboot⟩
  · obtain ⟨st, hrun, _, hst⟩ := run_wellFormed (show 0 < base from hpos) hboot _ hl ha
    exact ⟨st, hrun, hst⟩

/-- Two blocks fill the region and come back in the order in which they were given out. -/
def fillAndReturn : List Event := [.alloc 8, .alloc 8, .store 0x100C 7 1, .free 0x100C, .free 0x1020]

theorem fillAndReturn_wellFormed :
    ∃ st, fillAndReturn.foldlM step (boot (fun _ => 0) 0x1000 60) = .ok st ∧ WellFormed st :=
  (allocRun_wellFormed (fun _ => 0) (by decide) (by decide) (by decide)).1 fillAndReturn
    (by decide +kernel) (by decide +kernel)

/-- One block is given out and comes back while the rest of the region is unused. -/
theorem giveAndReturn_not_wellFormed :
    Along step Lawful (boot (fun _ => 0) 0x1000 100) [.alloc 8, .free 0x100C] ∧
      ∃ st, [Event.alloc 8, .free 0x100C].foldlM step (boot (fun _ => 0) 0x1000 100) = .ok st ∧
        ¬ WellFormed st := by
  refine ⟨by decide +kernel, ?_⟩
  have hval : (([Event.alloc 8, .free 0x100C].foldlM step
      (boot (fun _ => 0) 0x1000 100)).toOption.map fun st =>
        (st.arena.free, st.arena.endAddr, st.arena.get 0x1000 .prevFree)) =
      some (0x1000, 0x1064, 2 ^ 32 - 20) := by decide +kernel
  cases hrun : [Event.alloc 8, .free 0x100C].foldlM step (boot (fun _ => 0) 0x1000 100) with
  | error e =>
    rw [hrun] at hval
    cases hval
  | ok st =>
    rw [hrun] at hval
    simp only [Except.toOption, Option.map_some, Option.some.injEq, Prod.mk.injEq] at hval
    obtain ⟨hfree, hend, hback⟩ := hval
    refine ⟨st, rfl, ?_⟩
    rintro ⟨B, F, hs, _, _⟩
    have hmem : 0x1000 ∈ F := by
      rcases hs.head with hF | hF
      · exact hfree ▸ hF
      · omega
    have hzero := hs.frees.first 0x1000 hmem fun y hy => hfree ▸ hs.lowest y hy
    omega

end JanusRT.Alloc
