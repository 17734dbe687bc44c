import JanusRT.Translations
import JanusRT.Resumption
import JanusRT.Lib.TaggedCache

/-!
# What a memory access can see

`mmu_map_switch` writes `TTBR0` and invalidates nothing, neither does the release of a map. So the
core keeps what it found in tables that are gone, under the identifier they had, and the global
entries of the kernel's map under every identifier. Translations may be looked up and dropped at
any time between two exceptions, and for the kernel's map during one: its tables never change, so
it does not matter when. The identifiers are numbers of sixteen bits, but `make_tcr_el1` leaves
`AS` clear and the core tells only the low eight apart.
-/
namespace JanusRT.Tlb
open Heap Outcome Exceptions TaggedCache

/-! ## The translation control register -/

def tcrIpsEnc : ℕ → ℕ
  | 32 => 0
  | 36 => 1
  | 40 => 2
  | 42 => 3
  | 44 => 4
  | 48 => 5
  | 52 => 6
  | _ => 1

def makeTcrEl1 (vaBits paBits : ℕ) (enableTtbr1 : Bool) : ℕ :=
  let t0sz := (64 + u32 - vaBits) % u32
  let t1sz := (64 + u32 - vaBits) % u32
  -- EPD0, TG0 and A1 are zero, and the bit of AS is not among these
  let ttbr0 := t0sz ||| 0 <<< 7 ||| 1 <<< 8 ||| 1 <<< 10 ||| 3 <<< 12 ||| 0 <<< 14
  let ttbr1 := t1sz <<< 16 ||| 0 <<< 22 ||| (if enableTtbr1 then 0 else 1) <<< 23 |||
    1 <<< 24 ||| 1 <<< 26 ||| 3 <<< 28 ||| 1 <<< 30
  ttbr0 ||| ttbr1 ||| tcrIpsEnc paBits <<< 32

/-- The register as `mmu_enable` sets it. -/
def gTcr : ℕ := makeTcrEl1 vaBits paBits false

/-- `T0SZ`: the addresses that are translated. -/
def inputBits (tcr : ℕ) : ℕ := 64 - tcr % 2 ^ 6

/-- `AS`: the width of an identifier. -/
def asidBits (tcr : ℕ) : ℕ := if tcr.testBit 36 then 16 else 8

theorem inputBits_gTcr : inputBits gTcr = 48 := by decide

/-- How many identifiers the core tells apart. -/
def asidCount : ℕ := 2 ^ asidBits gTcr

theorem asidCount_eq : asidCount = 256 := by decide

/-- The identifier that the core reads in `TTBR0`. -/
def asidTag (ttbr0 : ℕ) : ℕ := ttbr0 / 2 ^ 48 % asidCount

/-! ## The translation cache -/

abbrev TlbEntry := TaggedCache.Entry ℕ ℕ (ℕ × ℕ)

/-- The descriptor had `nG` clear. -/
def IsGlobal (v : ℕ × ℕ) : Prop := isGlobal v.2 = true

instance : DecidablePred IsGlobal := fun v => inferInstanceAs (Decidable (isGlobal v.2 = true))

/-- A walk from `TTBR0`, for the addresses that `TCR_EL1` allows. -/
def tableWalk (m : IdealMem) (ttbr0 va : ℕ) : Option (ℕ × ℕ) :=
  if va < 2 ^ inputBits gTcr then m.walk (ttbr0 % 2 ^ 48) va else none

/-- What the core remembers of a walk: a page, under the identifier in `TTBR0`. -/
def fillEntry (m : IdealMem) (ttbr0 va : ℕ) : Option TlbEntry :=
  (tableWalk m ttbr0 (va / 4096 * 4096)).map fun o => ⟨asidTag ttbr0, va / 4096, o⟩

/-- The translation that a remembered page gives. -/
def translated (e : TlbEntry) (va : ℕ) : ℕ × ℕ := (e.val.1 + va % 4096, e.val.2)

/-- What a lookup of `va` can give: an entry of the cache or a walk. -/
def Gets (m : IdealMem) (tlb : List TlbEntry) (ttbr0 va : ℕ) (o : ℕ × ℕ) : Prop :=
  (∃ e ∈ tlb, e.Hits IsGlobal (asidTag ttbr0) (va / 4096) ∧ o = translated e va) ∨
    tableWalk m ttbr0 va = some o

instance (m : IdealMem) (tlb : List TlbEntry) (ttbr0 va : ℕ) (o : ℕ × ℕ) :
    Decidable (Gets m tlb ttbr0 va o) := by
  unfold Gets
  infer_instance

/-! ## The core -/

/-- The machine, its translation cache, and the events it has handled. -/
structure Core where
  machine : Machine IdealMem
  tlb : List TlbEntry
  log : List Event

/-- Address `va` is looked up, an entry is dropped, or an exception is taken in which the kernel
looks up `vas`. -/
inductive CoreStep
  | fill (va : ℕ)
  | evict (i : ℕ)
  | trap (t : Trap) (vas : List ℕ)

/-- `TTBR0` while a process runs. -/
def ttbr0Of (k : Kernel IdealMem) (r : ProcRef) : ℕ :=
  writeTtbr0Asid (k.sched.proc r).ctx.mmap.root.l0Pa (k.sched.proc r).ctx.mmap.asid

def Core.fill (c : Core) (ttbr0 va : ℕ) : Core :=
  { c with tlb := (fillEntry c.machine.kernel.mem ttbr0 va).toList ++ c.tlb }

/-- The events of an exception. -/
def handled {M : Type} (t : Trap) (k : Kernel M) : List Event :=
  match k.sched.curr with
  | none => []
  | some r =>
    match t.events (suspend t k r).sched with
    | .error _ => []
    | .ok es => es

section Steps
variable (pf : Platform IdealMem) (gSched : ℕ)

def coreStep (c : Core) : CoreStep → Except Stop Core
  | .fill va => pure (c.fill c.machine.ttbr0 va)
  | .evict i => pure { c with tlb := c.tlb.eraseIdx i }
  | .trap t vas => do
    let m ← takeTrap pf gSched t c.machine
    let c : Core := ⟨m, c.tlb, c.log ++ handled t c.machine.kernel⟩
    pure (vas.foldl (fun c va => c.fill (ttbr0Of c.machine.kernel .p0) va) c)

/-- `sched_init` and `mmu_enable`, which invalidates the cache before it turns the MMU on. -/
def bootCore (m : Machine IdealMem) (mem : IdealMem) : Except Stop Core := do
  let k ← schedInit pf mem
  pure ⟨{ m with kernel := k, ttbr0 := k.sched.p0.ctx.mmap.root.l0Pa }, [], []⟩

def coreRun (m : Machine IdealMem) (mem : IdealMem) (ss : List CoreStep) : Except Stop Core := do
  let c ← bootCore pf m mem
  ss.foldlM (coreStep pf gSched) c

theorem coreRun_snoc (m : Machine IdealMem) (mem : IdealMem) (ss : List CoreStep) (s : CoreStep) :
    coreRun pf gSched m mem (ss ++ [s]) =
      coreRun pf gSched m mem ss >>= fun c => coreStep pf gSched c s := by
  simp [coreRun, List.foldlM_append]

end Steps

/-- What an access to `va` can get. -/
def Access (c : Core) (va : ℕ) (o : ℕ × ℕ) : Prop :=
  Gets c.machine.kernel.mem c.tlb c.machine.ttbr0 va o

/-- The pages of the current process, and everything the kernel maps. -/
def visible (sc : Sched) (va : ℕ) : Option (ℕ × ℕ) :=
  match sc.curr with
  | some (.pb i) =>
    if va < roundUp (sc.pb i).progSize then some (roundDown (sc.pb i).paPc + va, pteProcRwx)
    else kernelSpace va
  | _ => kernelSpace va

/-- The requests of the mailbox are such as `rtcore_sched_prog` sends. -/
def CoreStep.Sent : CoreStep → Prop
  | .trap t _ => ∀ x ∈ t.pending.ring, x.1 < code0 + jrtCodeSize ∧ x.2.1 ≤ jrtCodeSize
  | _ => True

/-! ## Exceptions -/

/-- The request of an event is one that `rtcore_sched_prog` sends. -/
def EventSent : Event → Prop
  | .scheduleReq pc progSize _ => pc < code0 + jrtCodeSize ∧ progSize ≤ jrtCodeSize
  | _ => True

theorem syscallEvents_sent (c : Ctx) : ∀ e ∈ syscallEvents c, EventSent e := by
  intro e he
  unfold syscallEvents at he
  split_ifs at he <;> simp at he <;> subst he <;> trivial

theorem irqEvents_sent (intid : ℕ) {ring : List (ℕ × ℕ × ℕ)}
    (h : ∀ x ∈ ring, x.1 < code0 + jrtCodeSize ∧ x.2.1 ≤ jrtCodeSize) :
    Holds LawfulStop (fun es => ∀ e ∈ es, EventSent e) (irqEvents intid ring) := by
  unfold irqEvents
  split_ifs
  · simp
  · simp [LawfulStop]
  · simp [EventSent]
  · intro e he
    obtain ⟨x, hx, rfl⟩ := List.mem_map.mp he
    exact h x (List.mem_of_mem_take hx)
  · simp

theorem events_sent {t : Trap} {vas : List ℕ} (h : CoreStep.Sent (.trap t vas)) (sc : Sched) :
    Holds LawfulStop (fun es => ∀ e ∈ es, EventSent e) (t.events sc) := by
  unfold Trap.events
  split_ifs
  · exact irqEvents_sent _ h
  · unfold syncEvents
    split_ifs
    · have hcur : Holds LawfulStop (fun _ => True) (deref sc.curr) := by
        cases sc.curr <;> simp [deref, LawfulStop]
      exact hcur.bind fun cur _ => syscallEvents_sent _
    · simp
    · simp [LawfulStop, illegalFree]

section Rule
variable {M : Type} {pf : Platform M} {gSched : ℕ}

/-- What the events of an exception and the interruption itself keep, the exception keeps. `I` may
speak about the events handled so far. -/
theorem takeTrap_rule {E : Stop → Prop} (I : List Event → Kernel M → Prop) {P : Event → Prop}
    (hkernel : ∀ log k, I log k → KernelInv k)
    (hsuspend : ∀ t log k r, I log k → k.sched.curr = some r → I log (suspend t k r))
    (hstep : ∀ log k e, I log k → P e → Holds E (I (log ++ [e])) (step pf k e))
    {t : Trap} {m : Machine M} {log : List Event} (hm : I log m.kernel)
    (hP : ∀ sc, Holds E (fun es => ∀ e ∈ es, P e) (t.events sc)) :
    Holds E (fun m' => I (log ++ handled t m.kernel) m'.kernel ∧
        ∃ r, m'.kernel.sched.curr = some r ∧ Loaded m' r) (takeTrap pf gSched t m) := by
  have hinv := hkernel _ _ hm
  obtain ⟨r, hcur, _⟩ := hinv.places.curr
  obtain ⟨back, htrap, hback⟩ := takeTrap_eq pf gSched t (exists_of_curr hinv hcur) hcur
  have hrun : ∀ (es : List Event) (log : List Event) (k : Kernel M), I log k → (∀ e ∈ es, P e) →
      Holds E (I (log ++ es)) (es.foldlM (step pf) k) := by
    intro es
    induction es with
    | nil =>
      intro log k hk _
      rw [List.append_nil]
      exact hk
    | cons e es ih =>
      intro log k hk hes
      rw [List.foldlM_cons]
      apply (hstep log k e hk (hes e List.mem_cons_self)).bind
      intro k' hk'
      have hrest := ih (log ++ [e]) k' hk' fun e' he' => hes e' (List.mem_cons_of_mem _ he')
      rwa [List.append_assoc, List.singleton_append] at hrest
  have hes : Holds E (fun es => handled t m.kernel = es ∧ ∀ e ∈ es, P e)
      (t.events (suspend t m.kernel r).sched) := by
    apply (hP _).of_value
    intro es hes hsent
    refine ⟨?_, hsent⟩
    unfold handled
    rw [hcur]
    simp only [hes]
  rw [htrap]
  apply hes.bind
  rintro es ⟨hlog, hsent⟩
  rw [hlog]
  apply (hrun es log _ (hsuspend t log _ r hm hcur) hsent).bind
  intro k hk
  obtain ⟨s, hs, _⟩ := (hkernel _ _ hk).places.curr
  obtain ⟨m', hm', hloaded, rfl⟩ := hback k s hs (exists_of_curr (hkernel _ _ hk) hs)
  rw [hm']
  exact ⟨hk, s, hs, hloaded⟩

end Rule

/-! ## The invariant -/

/-- The pages of a translation. -/
def pageAt (space : ℕ → Option (ℕ × ℕ)) (p : ℕ) : Option (ℕ × ℕ) := space (4096 * p)

/-- The maps in force, by what the core sees of their identifier. -/
def maps (kernelEnd : ℕ) (k : Kernel IdealMem) (tag : ℕ) (f : ℕ → Option (ℕ × ℕ)) : Prop :=
  ∃ r ∈ liveProcs k.sched, asidOf k.sched r % asidCount = tag ∧
    f = pageAt (ownSpace kernelEnd (k.sched.proc r))

/-- The identifiers handed out, which leave zero to the kernel. -/
def HandedOut (log : List Event) (asid : ℕ) : Prop := 1 ≤ asid ∧ asid ≤ creations log

/-- What the cache may hold after `log`. -/
def CacheOk (kernelEnd : ℕ) (tlb : List TlbEntry) (log : List Event) (k : Kernel IdealMem) : Prop :=
  Coherent IsGlobal (pageAt kernelSpace) (HandedOut log) (maps kernelEnd k) tlb

structure KernelOk (kernelEnd : ℕ) (tlb : List TlbEntry) (log : List Event) (k : Kernel IdealMem) :
    Prop where
  accounted : Accounted k
  spaces : SpacesExact kernelEnd k
  kernelAsid : k.sched.p0.ctx.mmap.asid = 0
  window : ∀ r, r = .p0 ∨ r ∈ liveProcs k.sched → InWindow (k.sched.proc r)
  numbered : ∃ num, Numbered (creations log) k num
  cache : creations log < asidCount → CacheOk kernelEnd tlb log k

theorem creations_append (es es' : List Event) :
    creations (es ++ es') = creations es + creations es' := List.countP_append

section Keep
variable {k k' : Kernel IdealMem} {kernelEnd : ℕ} {tlb : List TlbEntry} {log : List Event}

/-- A new process has an identifier that no entry carries, and the old ones keep theirs. -/
theorem CacheOk.step (h : CacheOk kernelEnd tlb log k) {e : Event} (hlive : LiveStep k k' e)
    (hnext : k.asid = (creations log + 1) % u16) (hlt : creations (log ++ [e]) < asidCount) :
    CacheOk kernelEnd tlb (log ++ [e]) k' := by
  have hcount : asidCount < u16 := asidCount_eq.trans_lt (by decide)
  rw [creations_append] at hlt
  apply h.change
  · rintro asid ⟨hpos, hle⟩
    refine ⟨hpos, ?_⟩
    rw [creations_append]
    exact hle.trans (Nat.le_add_right _ _)
  · rintro asid ⟨-, hasid⟩ f ⟨r, hr, rfl, rfl⟩
    obtain ⟨hold, hsame⟩ | ⟨he, hnew, -⟩ := hlive r hr
    · refine ⟨r, hold, ?_, ?_⟩
      · rw [asidOf, asidOf, hsame.map]
      · rw [hsame.ownSpace_eq]
    · have hone : creations [e] = 1 := by simp [creations, he]
      rw [hone] at hlt
      rw [hnew, hnext, Nat.mod_eq_of_lt (hlt.trans hcount), Nat.mod_eq_of_lt hlt] at hasid
      omega

variable {place : List HeapCall → ℕ → ℕ → ℕ} {ignoresNull : Bool} {jrtExit : ℕ} {cntpct : ℕ → ℕ}

theorem KernelOk.step (hp : IdealAlloc place) (hk : kernelEnd ≤ code0 + jrtCodeSize)
    (h : KernelOk kernelEnd tlb log k) {e : Event} (he : EventSent e) :
    Holds LawfulStop (KernelOk kernelEnd tlb (log ++ [e]))
      (JanusRT.step (idealPlatform place ignoresNull kernelEnd cntpct jrtExit) k e) := by
  obtain ⟨num, hnum⟩ := h.numbered
  apply ((step_accounted hp h.accounted e).and
    (step_spacesExact hp hk h.accounted h.spaces e)).of_value
  rintro k' hok ⟨hacc, hsp⟩
  obtain ⟨hp0, hlive⟩ := (step_live h.accounted.inv e).of_ok hok
  obtain ⟨-, num', hnum', -⟩ := (step_numbered _ h.accounted.inv hnum e).of_ok hok
  refine ⟨hacc, hsp, ?_, ?_, ⟨num', ?_⟩, ?_⟩
  · rw [hp0.map]
    exact h.kernelAsid
  · rintro r (rfl | hr)
    · exact hp0.inWindow (h.window .p0 (Or.inl rfl))
    · obtain ⟨hold, hsame⟩ | ⟨-, -, hasked⟩ := hlive r hr
      · exact hsame.inWindow (h.window r (Or.inr hold))
      · cases e with
        | scheduleReq pc progSize memReq =>
          exact ⟨hasked.1.trans_lt he.1, hasked.2.trans_le he.2⟩
        | spawn deadline ep ap memReq =>
          obtain ⟨cur, hcur, hpc, hsize⟩ := hasked
          have hw : InWindow (k.sched.proc cur) := by
            apply h.window
            cases cur with
            | p0 => exact Or.inl rfl
            | pb i => exact Or.inr (Sched.mem_liveProcs_curr hcur)
          exact ⟨hpc.trans_lt hw.start, hsize.trans_le hw.size⟩
        | timerFn => exact hasked.elim
        | waitUntil u => exact hasked.elim
        | exit => exact hasked.elim
  · rw [creations_append]
    exact hnum'
  · intro hlt
    have hle : creations log < asidCount := by
      rw [creations_append] at hlt
      omega
    exact (h.cache hle).step hlive hnum.next hlt

end Keep

/-! ## Interruption -/

section Suspend
variable {k : Kernel IdealMem} {kernelEnd : ℕ} {tlb : List TlbEntry} {log : List Event}

theorem suspend_proc (t : Trap) (k : Kernel IdealMem) (r s : ProcRef) :
    ∃ c : Ctx, c.mmap = (k.sched.proc s).ctx.mmap ∧
      (suspend t k r).sched.proc s = { k.sched.proc s with ctx := c } := by
  rw [suspend, proc_withCtx]
  split_ifs with hs
  · subst hs
    exact ⟨t.saved (k.sched.proc s).ctx, rfl, rfl⟩
  · exact ⟨(k.sched.proc s).ctx, rfl, rfl⟩

theorem suspend_sameImage (t : Trap) (k : Kernel IdealMem) (r s : ProcRef) :
    SameImage (k.sched.proc s) ((suspend t k r).sched.proc s) := by
  obtain ⟨c, hc, hs⟩ := suspend_proc t k r s
  rw [hs]
  exact ⟨hc, rfl, rfl⟩

theorem suspend_assets (t : Trap) (k : Kernel IdealMem) (r s : ProcRef) :
    assets (suspend t k r).mem ((suspend t k r).sched.proc s) = assets k.mem (k.sched.proc s) := by
  obtain ⟨c, hc, hs⟩ := suspend_proc t k r s
  rw [hs, assets, assets, mapBlocks, mapBlocks]
  simp only [hc]
  rfl

theorem suspend_live (t : Trap) (k : Kernel IdealMem) (r : ProcRef) :
    liveProcs (suspend t k r).sched = liveProcs k.sched := by
  unfold liveProcs suspend withCtx
  rw [Sched.modify_ready, Sched.modify_waiting, Sched.modify_curr]

theorem suspend_accounted (t : Trap) (h : Accounted k) (r : ProcRef) : Accounted (suspend t k r) := by
  have howned : owned (suspend t k r) = owned k := by
    have hp0 : mapBlocks (suspend t k r).mem (suspend t k r).sched.p0 = mapBlocks k.mem k.sched.p0 := by
      have hsame := (suspend_sameImage t k r .p0).map
      unfold mapBlocks
      exact congrArg (fun map : MmuMap => (tablePages k.mem.table 3 map.root.l0 : Multiset ℕ)) hsame
    rw [owned, owned, suspend_live, hp0]
    simp only [suspend_assets]
  refine ⟨suspend_inv t h.inv r, ⟨?_, ?_⟩, ?_⟩
  · rw [howned]
    exact h.ownership.exact
  · rw [howned]
    exact h.ownership.once
  · intro s hs hne
    rw [suspend_live] at hs
    obtain ⟨c, -, he⟩ := suspend_proc t k r s
    rw [he] at hne ⊢
    exact h.known s hs hne

theorem suspend_spaces (t : Trap) (h : SpacesExact kernelEnd k) (r : ProcRef) :
    SpacesExact kernelEnd (suspend t k r) := by
  refine h.carry (suspend_sameImage t k r .p0).map (fun _ _ => rfl) ?_
  intro s hs
  rw [suspend_live] at hs
  exact Or.inl ⟨hs, suspend_sameImage t k r s, fun _ _ => rfl⟩

theorem KernelOk.suspend (h : KernelOk kernelEnd tlb log k) (t : Trap) (r : ProcRef) :
    KernelOk kernelEnd tlb log (suspend t k r) := by
  have hsame := suspend_sameImage t k r
  have hasid : ∀ s, asidOf (Exceptions.suspend t k r).sched s = asidOf k.sched s := by
    intro s
    rw [asidOf, asidOf, (hsame s).map]
  refine ⟨suspend_accounted t h.accounted r, suspend_spaces t h.spaces r, ?_, ?_, ?_, ?_⟩
  · exact (congrArg MmuMap.asid (hsame .p0).map).trans h.kernelAsid
  · intro s hs
    rw [suspend_live] at hs
    exact (hsame s).inWindow (h.window s hs)
  · obtain ⟨num, hnum⟩ := h.numbered
    refine ⟨num, hnum.keep rfl ?_ fun s _ => hasid s⟩
    intro s hs
    rw [suspend_live] at hs
    exact hs
  · intro hlt
    apply (h.cache hlt).change (fun _ hasid => hasid)
    rintro asid - f ⟨s, hs, rfl, rfl⟩
    rw [suspend_live] at hs
    refine ⟨s, hs, ?_, by rw [(hsame s).ownSpace_eq]⟩
    rw [hasid s]

end Suspend

/-! ## The core -/

/-- The address and the identifier that `write_ttbr0_asid` packs. -/
theorem ttbr0_fields {pa asid : ℕ} (hpa : pa % 4096 = 0) (hlt : pa < 2 ^ 48) (hasid : asid < u16) :
    writeTtbr0Asid pa asid % 2 ^ 48 = pa ∧ writeTtbr0Asid pa asid / 2 ^ 48 = asid := by
  have hdown : pa / 0x1000 * 0x1000 = pa := by omega
  have hor : pa ||| asid <<< 48 = asid * 2 ^ 48 + pa := by
    rw [Nat.lor_comm, Nat.shiftLeft_eq, Nat.mul_comm, Nat.two_pow_add_eq_or_of_lt hlt]
  rw [writeTtbr0Asid, hdown, Nat.mod_eq_of_lt hasid, hor]
  omega

/-- The map of a process is in `TTBR0`. -/
def Running (k : Kernel IdealMem) (ttbr0 : ℕ) (r : ProcRef) : Prop :=
  k.sched.curr = some r ∧ ttbr0 = ttbr0Of k r

structure CoreOk (kernelEnd : ℕ) (c : Core) : Prop where
  kernel : KernelOk kernelEnd c.tlb c.log c.machine.kernel
  running : ∃ r, Running c.machine.kernel c.machine.ttbr0 r

section Core
variable {k : Kernel IdealMem} {kernelEnd : ℕ} {tlb : List TlbEntry} {log : List Event} {c : Core}

/-- The space of a process, whether it is the kernel or another. -/
def spaceOf (kernelEnd : ℕ) (k : Kernel IdealMem) : ProcRef → ℕ → Option (ℕ × ℕ)
  | .p0 => kernelSpace
  | .pb i => ownSpace kernelEnd (k.sched.pb i)

/-- A process that is live or the kernel. -/
def Present (k : Kernel IdealMem) (r : ProcRef) : Prop := r = .p0 ∨ r ∈ liveProcs k.sched

instance (k : Kernel IdealMem) (r : ProcRef) : Decidable (Present k r) :=
  inferInstanceAs (Decidable (_ ∨ _))

theorem present_of_curr {r : ProcRef} (hcur : k.sched.curr = some r) : Present k r := by
  cases r with
  | p0 => exact Or.inl rfl
  | pb i => exact Or.inr (Sched.mem_liveProcs_curr hcur)

theorem KernelOk.mapsTo (h : KernelOk kernelEnd tlb log k) {r : ProcRef} (hr : Present k r) :
    MapsTo k.mem (k.sched.proc r).ctx.mmap (spaceOf kernelEnd k r) := by
  obtain rfl | hr := hr
  · exact h.spaces.kernel
  · cases r with
    | p0 => exact absurd hr h.accounted.inv.places.p0_not_live
    | pb i => exact h.spaces.procs _ hr (h.window _ (Or.inr hr))

theorem KernelOk.asid_lt (h : KernelOk kernelEnd tlb log k) {r : ProcRef} (hr : Present k r) :
    (k.sched.proc r).ctx.mmap.asid < u16 := by
  obtain rfl | hr := hr
  · exact h.kernelAsid.trans_lt (by decide)
  · obtain ⟨num, hnum⟩ := h.numbered
    exact (hnum.asid r hr).trans_lt (Nat.mod_lt _ (by decide))

/-- The walk from the root of a process. -/
theorem KernelOk.walk_eq (h : KernelOk kernelEnd tlb log k) {r : ProcRef} (hr : Present k r) (va : ℕ) :
    tableWalk k.mem (ttbr0Of k r) va =
        (if va < 2 ^ 48 then spaceOf kernelEnd k r va else none) ∧
      asidTag (ttbr0Of k r) = (k.sched.proc r).ctx.mmap.asid % asidCount := by
  have hmaps := h.mapsTo hr
  have hroot := hmaps.root
  have haligned : (k.sched.proc r).ctx.mmap.root.l0Pa % 4096 = 0 := by
    rw [hroot]
    exact hmaps.aligned
  have hbound : (k.sched.proc r).ctx.mmap.root.l0Pa < 2 ^ 48 := by
    rw [hroot]
    exact hmaps.bound
  obtain ⟨hmod, hdiv⟩ := ttbr0_fields haligned hbound (h.asid_lt hr)
  refine ⟨?_, by rw [asidTag, ttbr0Of, hdiv]⟩
  rw [tableWalk, ttbr0Of, inputBits_gTcr, hmod, hroot]
  split_ifs with hva
  · exact hmaps.exact va hva
  · rfl

/-! ### Spaces page by page -/

/-- A space is constant over each page, up to the offset. -/
def PageWise (space : ℕ → Option (ℕ × ℕ)) : Prop :=
  ∀ va, space va = (pageAt space (va / 4096)).map fun o => (o.1 + va % 4096, o.2)

theorem kernelSpace_pageWise : PageWise kernelSpace := by
  have hsize : code0 = 0x50000000 ∧ memEnd = 0x51FFFFFF := ⟨rfl, rfl⟩
  have huart : uartPaBase = 0x9000000 ∧ uartPaSize = 0x1000 := ⟨rfl, rfl⟩
  have hgicd : gicdPaBase = 0x8000000 ∧ gicdPaSize = 0x10000 := ⟨rfl, rfl⟩
  have hgic : gicrPaBase0 = 0x80A0000 ∧ gicrNumCpus * gicrFrameSize = 0x80000 := ⟨rfl, rfl⟩
  intro va
  have hva : 4096 * (va / 4096) + va % 4096 = va := Nat.div_add_mod va 4096
  unfold pageAt kernelSpace
  split_ifs <;> first | omega | simp only [Option.map_some, Option.map_none, hva]

theorem sharedSpace_pageWise (kEnd : ℕ) : PageWise (sharedSpace kEnd) := by
  have hsize : code0 = 0x50000000 := rfl
  have hmem : mem0 = 0x51000000 ∧ memEnd = 0x51FFFFFF := ⟨rfl, rfl⟩
  have huart : uartPaBase = 0x9000000 ∧ uartPaSize = 0x1000 := ⟨rfl, rfl⟩
  intro va
  have hva : 4096 * (va / 4096) + va % 4096 = va := Nat.div_add_mod va 4096
  unfold pageAt sharedSpace roundUp
  split_ifs <;> first | omega | simp only [Option.map_some, Option.map_none, hva]

theorem ownSpace_pageWise (q : Proc) : PageWise (ownSpace kernelEnd q) := by
  intro va
  have hshared := sharedSpace_pageWise (min kernelEnd q.paPc) va
  unfold pageAt at hshared ⊢
  unfold ownSpace
  by_cases hlow : va < roundUp q.progSize
  · have hpage : 4096 * (va / 4096) < roundUp q.progSize := by omega
    have hva : roundDown q.paPc + 4096 * (va / 4096) + va % 4096 = roundDown q.paPc + va := by omega
    rw [if_pos hlow, if_pos hpage, Option.map_some, hva]
  · have hpage : ¬ 4096 * (va / 4096) < roundUp q.progSize := by
      unfold roundUp at *
      omega
    rw [if_neg hlow, if_neg hpage]
    exact hshared

theorem kernelSpace_global {va : ℕ} {o : ℕ × ℕ} (ho : kernelSpace va = some o) : IsGlobal o := by
  have hattrs : isGlobal pteKernRwx = true ∧ isGlobal pteDevRwG = true := by decide
  unfold kernelSpace at ho
  unfold IsGlobal
  split_ifs at ho <;> obtain rfl := Option.some.inj ho <;> simp only [hattrs]

/-- A process's own pages are the ones that are not global, the others are the kernel's. -/
theorem ownSpace_cases {q : Proc} (hk : kernelEnd ≤ code0 + jrtCodeSize) {va : ℕ} {o : ℕ × ℕ}
    (ho : ownSpace kernelEnd q va = some o) :
    (va < roundUp q.progSize ∧ o = (roundDown q.paPc + va, pteProcRwx) ∧ ¬ IsGlobal o) ∨
      (roundUp q.progSize ≤ va ∧ kernelSpace va = some o ∧ IsGlobal o) := by
  unfold ownSpace at ho
  split_ifs at ho with hlow
  · left
    obtain rfl := Option.some.inj ho
    have hattr : ¬ isGlobal pteProcRwx = true := by decide
    exact ⟨hlow, rfl, hattr⟩
  · right
    have hkernel := sharedSpace_kernel hk _ ho
    exact ⟨Nat.le_of_not_lt hlow, hkernel, kernelSpace_global hkernel⟩

/-- The kernel maps nothing where a process has its image. -/
theorem kernelSpace_low {q : Proc} (hq : InWindow q) {va : ℕ} (hva : va < roundUp q.progSize) :
    kernelSpace va = none := by
  have hsize : code0 = 0x50000000 ∧ jrtCodeSize = 0x1000000 := ⟨rfl, rfl⟩
  have huart : uartPaBase = 0x9000000 := rfl
  have hgic : gicdPaBase = 0x8000000 ∧ gicrPaBase0 = 0x80A0000 := ⟨rfl, rfl⟩
  have hle := hq.size
  unfold roundUp at hva
  rw [kernelSpace, if_neg (by omega), if_neg (by omega), if_neg (by omega), if_neg (by omega)]

/-! ### One step -/

/-- The identifiers that the core sees are the numbers of the processes. -/
theorem tag_of_numbered {num : ProcRef → ℕ} (h : Numbered (creations log) k num)
    (hlt : creations log < asidCount) {r : ProcRef} (hr : r ∈ liveProcs k.sched) :
    asidOf k.sched r % asidCount = num r := by
  have hcount : asidCount < u16 := asidCount_eq.trans_lt (by decide)
  have hle := (h.le r hr).trans_lt hlt
  rw [h.asid r hr, Nat.mod_eq_of_lt (hle.trans hcount), Nat.mod_eq_of_lt hle]

/-- A lookup in the map of a present process may be remembered. -/
theorem KernelOk.fill (hk : kernelEnd ≤ code0 + jrtCodeSize) (h : KernelOk kernelEnd tlb log k)
    {r : ProcRef} (hr : Present k r) (va : ℕ) :
    KernelOk kernelEnd ((fillEntry k.mem (ttbr0Of k r) va).toList ++ tlb) log k := by
  refine ⟨h.accounted, h.spaces, h.kernelAsid, h.window, h.numbered, ?_⟩
  intro hlt
  obtain ⟨hwalk, hasid⟩ := h.walk_eq hr (va / 4096 * 4096)
  unfold fillEntry
  rw [hwalk, hasid, Nat.mul_comm]
  cases hspace : (if 4096 * (va / 4096) < 2 ^ 48 then spaceOf kernelEnd k r (4096 * (va / 4096))
      else none) with
  | none => exact h.cache hlt
  | some o =>
    have ho : spaceOf kernelEnd k r (4096 * (va / 4096)) = some o := by
      split_ifs at hspace
      exact hspace
    cases r with
    | p0 =>
      have hglobal := kernelSpace_global ho
      exact (h.cache hlt).fill (fun _ => ho) (fun hn => absurd hglobal hn)
        (fun hn => absurd hglobal hn)
    | pb i =>
      have hlive : ProcRef.pb i ∈ liveProcs k.sched := hr.resolve_left (by simp)
      obtain ⟨num, hnum⟩ := h.numbered
      apply (h.cache hlt).fill
      · intro hglobal
        obtain ⟨-, -, hn⟩ | ⟨-, hkernel, -⟩ := ownSpace_cases hk ho
        · exact absurd hglobal hn
        · exact hkernel
      · intro _
        change HandedOut log (asidOf k.sched (.pb i) % asidCount)
        rw [tag_of_numbered hnum hlt hlive]
        exact ⟨hnum.pos _ hlive, hnum.le _ hlive⟩
      · rintro - f ⟨s, hs, he, rfl⟩
        -- below `asidCount` creations only one live process has this identifier
        change asidOf k.sched s % asidCount = asidOf k.sched (.pb i) % asidCount at he
        rw [tag_of_numbered hnum hlt hs, tag_of_numbered hnum hlt hlive] at he
        rw [hnum.inj s hs (.pb i) hlive he]
        exact ho

theorem KernelOk.evict (h : KernelOk kernelEnd tlb log k) (i : ℕ) :
    KernelOk kernelEnd (tlb.eraseIdx i) log k :=
  { h with cache := fun hlt => (h.cache hlt).evict fun _ he => List.mem_of_mem_eraseIdx he }

theorem CoreOk.fill (hk : kernelEnd ≤ code0 + jrtCodeSize) (h : CoreOk kernelEnd c) (va : ℕ) :
    CoreOk kernelEnd (c.fill c.machine.ttbr0 va) := by
  obtain ⟨r, hcur, httbr⟩ := h.running
  refine ⟨?_, r, hcur, httbr⟩
  have hfill := h.kernel.fill hk (present_of_curr hcur) va
  rw [← httbr] at hfill
  exact hfill

/-- Lookups during an exception. -/
theorem CoreOk.kernelFills (hk : kernelEnd ≤ code0 + jrtCodeSize) (vas : List ℕ)
    (h : CoreOk kernelEnd c) :
    CoreOk kernelEnd (vas.foldl (fun c va => c.fill (ttbr0Of c.machine.kernel .p0) va) c) := by
  induction vas generalizing c with
  | nil => exact h
  | cons va vas ih => exact ih ⟨h.kernel.fill hk (Or.inl rfl) va, h.running⟩

variable {place : List HeapCall → ℕ → ℕ → ℕ} {ignoresNull : Bool} {jrtExit gSched : ℕ}
  {cntpct : ℕ → ℕ}

theorem coreStep_ok (hp : IdealAlloc place) (hk : kernelEnd ≤ code0 + jrtCodeSize)
    (h : CoreOk kernelEnd c) {s : CoreStep} (hs : s.Sent) :
    Holds LawfulStop (CoreOk kernelEnd)
      (coreStep (idealPlatform place ignoresNull kernelEnd cntpct jrtExit) gSched c s) := by
  cases s with
  | fill va => exact h.fill hk va
  | evict i => exact ⟨h.kernel.evict i, h.running⟩
  | trap t vas =>
    refine (takeTrap_rule (KernelOk kernelEnd c.tlb) (fun _ _ hok => hok.accounted.inv)
      (fun t _ _ r hok _ => hok.suspend t r) (fun _ _ _ hok he => hok.step hp hk he) h.kernel
      fun sc => events_sent hs sc).bind ?_
    rintro m ⟨hkernel, r, hcur, hloaded⟩
    exact CoreOk.kernelFills hk vas ⟨hkernel, r, hcur, hloaded.ttbr0⟩

theorem schedInit_kernel {M : Type} (pf : Platform M) (mem : M) :
    Holds Stop.IsHalt (fun k => k.sched.p0.ctx.mmap.asid = 0 ∧ k.sched.p0.paPc = 0 ∧
      k.sched.p0.progSize = 0 ∧ k.sched.curr = some .p0) (schedInit pf mem) := by
  unfold schedInit kernMapCreate
  simp only [bind_assoc, pure_bind]
  apply (holds_call _).bind
  intro r _
  exact ⟨rfl, rfl, rfl, rfl⟩

theorem schedInit_kernelOk (hp : IdealAlloc place) (table : ℕ → ℕ → ℕ) :
    Holds LawfulStop (fun k => KernelOk kernelEnd [] [] k ∧ k.sched.curr = some .p0)
      (schedInit (idealPlatform place ignoresNull kernelEnd cntpct jrtExit) ⟨[], table⟩) := by
  apply ((schedInit_accounted hp table).and (schedInit_spacesExact hp table)).of_value
  rintro k hk ⟨hacc, hsp⟩
  obtain ⟨hasid, hpc, hsize, hcur⟩ := (schedInit_kernel _ _).of_ok hk
  have hidle : liveProcs k.sched = 0 := (schedInit_idle _ _).of_ok hk
  obtain ⟨-, num, hnum⟩ := (run_numbered (idealPlatform place ignoresNull kernelEnd cntpct jrtExit)
    ⟨[], table⟩ []).of_ok (a := k) (by simpa [run] using hk)
  refine ⟨⟨hacc, hsp, hasid, ?_, ⟨num, hnum⟩, fun _ => Coherent.nil⟩, hcur⟩
  rintro r (rfl | hr)
  · exact ⟨hpc.trans_lt (by decide), hsize.trans_le (by decide)⟩
  · rw [hidle] at hr
    exact absurd hr (Multiset.notMem_zero r)

theorem bootCore_ok (hp : IdealAlloc place) (m : Machine IdealMem) (table : ℕ → ℕ → ℕ) :
    Holds LawfulStop (CoreOk kernelEnd)
      (bootCore (idealPlatform place ignoresNull kernelEnd cntpct jrtExit) m ⟨[], table⟩) := by
  apply (schedInit_kernelOk hp table).bind
  rintro k ⟨hok, hcur⟩
  have hmaps : MapsTo k.mem k.sched.p0.ctx.mmap kernelSpace := hok.spaces.kernel
  have haligned : k.sched.p0.ctx.mmap.root.l0Pa % 4096 = 0 := by
    rw [hmaps.root]
    exact hmaps.aligned
  refine ⟨hok, .p0, hcur, ?_⟩
  change k.sched.p0.ctx.mmap.root.l0Pa =
    writeTtbr0Asid k.sched.p0.ctx.mmap.root.l0Pa k.sched.p0.ctx.mmap.asid
  rw [hok.kernelAsid, writeTtbr0Asid, Nat.zero_mod, Nat.zero_shiftLeft, Nat.or_zero]
  omega

theorem coreRun_ok (hp : IdealAlloc place) (hk : kernelEnd ≤ code0 + jrtCodeSize)
    (m : Machine IdealMem) (table : ℕ → ℕ → ℕ) (ss : List CoreStep) (hs : ∀ s ∈ ss, s.Sent) :
    Holds LawfulStop (CoreOk kernelEnd)
      (coreRun (idealPlatform place ignoresNull kernelEnd cntpct jrtExit) gSched m ⟨[], table⟩ ss) := by
  apply (bootCore_ok hp m table).bind
  intro c hc
  induction ss generalizing c with
  | nil => exact hc
  | cons s ss ih =>
    rw [List.foldlM_cons]
    apply (coreStep_ok hp hk hc (hs s List.mem_cons_self)).bind
    exact fun c' hc' => ih (fun s' hs' => hs s' (List.mem_cons_of_mem s hs')) c' hc'

/-! ## Results -/

/-- A lookup for a present process gives what the kernel maps or what its own space says. -/
theorem KernelOk.gets (h : KernelOk kernelEnd tlb log k) (hlt : creations log < asidCount)
    {r : ProcRef} (hr : Present k r) {va : ℕ} {o : ℕ × ℕ} (ho : Gets k.mem tlb (ttbr0Of k r) va o) :
    kernelSpace va = some o ∨ spaceOf kernelEnd k r va = some o := by
  obtain ⟨hwalk, hasid⟩ := h.walk_eq hr va
  obtain ⟨e, he, hhit, rfl⟩ | hspace := ho
  · by_cases hglobal : IsGlobal e.val
    · left
      rw [kernelSpace_pageWise va, ← hhit.1, (h.cache hlt).shared e he hglobal]
      rfl
    right
    have htag := hhit.2.resolve_left hglobal
    rw [hasid] at htag
    cases r with
    | p0 =>
      -- the kernel's identifier is nobody else's
      have hpos := ((h.cache hlt).used e he hglobal).1
      have hzero : (k.sched.proc .p0).ctx.mmap.asid % asidCount = 0 := by
        rw [show (k.sched.proc .p0).ctx.mmap.asid = 0 from h.kernelAsid, Nat.zero_mod]
      omega
    | pb i =>
      have hlive : ProcRef.pb i ∈ liveProcs k.sched := hr.resolve_left (by simp)
      have hown := (h.cache hlt).current e he hglobal (pageAt (ownSpace kernelEnd (k.sched.pb i)))
        ⟨.pb i, hlive, htag.symm, rfl⟩
      change ownSpace _ _ va = _
      rw [ownSpace_pageWise _ va, ← hhit.1, hown]
      rfl
  · rw [hwalk] at hspace
    split_ifs at hspace
    exact Or.inr hspace

/-- An access of the running process gets a page of its own image below its size, and above it
only what the kernel maps. -/
theorem CoreOk.access (hk : kernelEnd ≤ code0 + jrtCodeSize) (h : CoreOk kernelEnd c)
    (hlt : creations c.log < asidCount) {va : ℕ} {o : ℕ × ℕ} (ha : Access c va o) :
    visible c.machine.kernel.sched va = some o := by
  obtain ⟨r, hcur, httbr⟩ := h.running
  have hr := present_of_curr hcur
  unfold Access at ha
  rw [httbr] at ha
  have hcases := h.kernel.gets hlt hr ha
  rw [visible, hcur]
  cases r with
  | p0 => exact hcases.elim id id
  | pb i =>
    have hwin : InWindow (c.machine.kernel.sched.pb i) := h.kernel.window (.pb i) hr
    dsimp only
    split_ifs with hlow
    · obtain hkernel | hown := hcases
      · rw [kernelSpace_low hwin hlow] at hkernel
        cases hkernel
      · obtain ⟨-, rfl, -⟩ | ⟨hhigh, -⟩ := ownSpace_cases hk hown
        · rfl
        · omega
    · obtain hkernel | hown := hcases
      · exact hkernel
      · obtain ⟨hlow', -⟩ | ⟨-, hkernel, -⟩ := ownSpace_cases hk hown
        · exact absurd hlow' hlow
        · exact hkernel

/-- The lookups of an exception change nothing but the cache, which then has all of them. -/
theorem kernelFills_mem (vas : List ℕ) (c : Core) :
    let c' := vas.foldl (fun c va => c.fill (ttbr0Of c.machine.kernel .p0) va) c
    c'.machine = c.machine ∧ (∀ e ∈ c.tlb, e ∈ c'.tlb) ∧ ∀ va ∈ vas,
      ∀ e ∈ fillEntry c.machine.kernel.mem (ttbr0Of c.machine.kernel .p0) va, e ∈ c'.tlb := by
  induction vas generalizing c with
  | nil => exact ⟨rfl, fun _ he => he, fun _ h => absurd h List.not_mem_nil⟩
  | cons va vas ih =>
    obtain ⟨hmachine, hold, hnew⟩ := ih (c.fill (ttbr0Of c.machine.kernel .p0) va)
    refine ⟨hmachine, fun e he => hold e (List.mem_append_right _ he), ?_⟩
    intro va' hva' e he
    obtain rfl | hva' := List.mem_cons.mp hva'
    · exact hold e (List.mem_append_left _ (Option.mem_toList.mpr he))
    · exact hnew va' hva' e he

theorem kernelSpace_lt {va : ℕ} {o : ℕ × ℕ} (ho : kernelSpace va = some o) : va < 2 ^ 48 := by
  have hsize : memEnd = 0x51FFFFFF := rfl
  have huart : uartPaBase = 0x9000000 ∧ uartPaSize = 0x1000 := ⟨rfl, rfl⟩
  have hgicd : gicdPaBase = 0x8000000 ∧ gicdPaSize = 0x10000 := ⟨rfl, rfl⟩
  have hgic : gicrPaBase0 = 0x80A0000 ∧ gicrNumCpus * gicrFrameSize = 0x80000 := ⟨rfl, rfl⟩
  unfold kernelSpace at ho
  split_ifs at ho <;> omega

/-- What the kernel looked up hits under every identifier. -/
theorem CoreOk.kernel_access (h : CoreOk kernelEnd c) {va : ℕ} {o : ℕ × ℕ}
    (ho : kernelSpace va = some o)
    (hmem : ∀ e ∈ fillEntry c.machine.kernel.mem (ttbr0Of c.machine.kernel .p0) va, e ∈ c.tlb) :
    Access c va o := by
  obtain ⟨hwalk, -⟩ := h.kernel.walk_eq (r := .p0) (Or.inl rfl) (va / 4096 * 4096)
  have hlt := kernelSpace_lt ho
  have hpage : ∃ p, kernelSpace (va / 4096 * 4096) = some p ∧ (p.1 + va % 4096, p.2) = o := by
    have hmap := ho
    rw [kernelSpace_pageWise va, pageAt, Nat.mul_comm] at hmap
    exact Option.map_eq_some_iff.mp hmap
  obtain ⟨p, hp, rfl⟩ := hpage
  left
  refine ⟨⟨asidTag (ttbr0Of c.machine.kernel .p0), va / 4096, p⟩, hmem _ ?_, ⟨rfl, ?_⟩, rfl⟩
  · have hfill : tableWalk c.machine.kernel.mem (ttbr0Of c.machine.kernel .p0) (va / 4096 * 4096) =
        some p := by
      refine hwalk.trans ?_
      rw [if_pos (by omega)]
      exact hp
    rw [fillEntry, hfill]
    rfl
  · exact Or.inl (kernelSpace_global hp)

end Core

/-! ### A program arrives -/

/-- A core before `sched_init`. -/
def bareMachine : Machine IdealMem where
  x _ := 0
  sp := 0
  pc := 0
  pstate := 0
  elr := 0
  spsr := 0
  ttbr0 := 0
  eoir := 0
  stack _ := 0
  kernel := ⟨blankMachine.kernel.sched, emptyHeap, 0, ⟨false, 0, 0⟩, 0⟩

/-- A request for a program of one page, with one page of memory. -/
def pageArrival : Trap :=
  { arrival with pending := { arrival.pending with ring := [(0x50100000, 4096, 4096)] } }

/-- The kernel looks at an address outside the image while it creates the process. -/
def oneArrival : CoreStep := .trap pageArrival [0x50200000]

theorem oneArrival_sent : CoreStep.Sent oneArrival := by
  intro x hx
  obtain rfl := List.mem_singleton.mp hx
  exact ⟨by decide, by decide⟩

theorem oneArrival_returns :
    ∃ c i, coreRun bumpPlatform 0x50020000 bareMachine emptyHeap ([] ++ [oneArrival]) = .ok c ∧
      c.machine.kernel.sched.curr = some (.pb i) ∧ creations c.log = 1 := by
  obtain ⟨k, hboot, hroomy⟩ := bump_boot
  have hinit : schedInit bumpPlatform emptyHeap = .ok k := by simpa [run] using hboot
  have hinv := (run_inv bumpPlatform emptyHeap []).of_ok hboot
  have hcur := hroomy.calm.curr
  -- the interrupted kernel still has room
  have hsusp : Roomy .p0 (2 ^ 24 - 1 + 1) (suspend pageArrival k .p0) :=
    ⟨⟨(suspend_inv pageArrival hinv .p0).places, hcur, hroomy.calm.ready, hroomy.calm.cap⟩,
      hroomy.slots, hroomy.room⟩
  obtain ⟨k', i, hk', hcalm, -⟩ := bump_scheduleReq (n := 100000) hsusp (by decide)
    (show 0x50100000 < code0 + jrtCodeSize by decide) (show 4096 ≤ jrtCodeSize by decide)
  have hevents : pageArrival.events (suspend pageArrival k .p0).sched =
      .ok [.scheduleReq 0x50100000 4096 4096] := rfl
  let m : Machine IdealMem :=
    { bareMachine with kernel := k, ttbr0 := k.sched.p0.ctx.mmap.root.l0Pa }
  obtain ⟨back, htrap, hback⟩ := takeTrap_eq (m := m) bumpPlatform 0x50020000 pageArrival
    (r := .p0) trivial hcur
  obtain ⟨m', hm', -, hkernel⟩ := hback k' (.pb i) hcalm.curr
    (exists_of_curr ((step_inv bumpPlatform (suspend_inv pageArrival hinv .p0)
      (.scheduleReq 0x50100000 4096 4096)).of_ok hk') hcalm.curr)
  have hlog : handled pageArrival m.kernel = [.scheduleReq 0x50100000 4096 4096] := by
    change handled pageArrival k = _
    unfold handled
    rw [hcur]
    rfl
  have hstep : takeTrap bumpPlatform 0x50020000 pageArrival m = .ok m' := by
    rw [htrap, hevents, ok_bind, List.foldlM_cons]
    change (scheduleReq bumpPlatform (suspend pageArrival k .p0) 0x50100000 4096 4096 >>= _) >>= _ = _
    rw [hk']
    exact hm'
  have hcore : coreRun bumpPlatform 0x50020000 bareMachine emptyHeap ([] ++ [oneArrival]) =
      .ok (Core.fill ⟨m', [], [.scheduleReq 0x50100000 4096 4096]⟩ (ttbr0Of m'.kernel .p0) 0x50200000) := by
    have hfirst : coreRun bumpPlatform 0x50020000 bareMachine emptyHeap [] = .ok ⟨m, [], []⟩ := by
      rw [coreRun, bootCore, hinit]
      rfl
    rw [coreRun_snoc, hfirst, ok_bind, oneArrival, coreStep, hstep, ok_bind, hlog]
    simp only [List.nil_append, List.foldl_cons, List.foldl_nil]
    rfl
  refine ⟨_, i, hcore, ?_, rfl⟩
  change m'.kernel.sched.curr = _
  rw [hkernel]
  exact hcalm.curr

section Results
variable {kernelEnd : ℕ} {place : List HeapCall → ℕ → ℕ → ℕ} {ignoresNull : Bool}
  {jrtExit gSched : ℕ} {cntpct : ℕ → ℕ}

/-- In every run with fewer creations than identifiers, whatever the cache keeps and drops: no
access ever gets a translation of a process that is gone, or of another that is there. -/
theorem coreRun_visible (hp : IdealAlloc place) (hk : kernelEnd ≤ code0 + jrtCodeSize)
    (m : Machine IdealMem) (table : ℕ → ℕ → ℕ) (ss : List CoreStep) (hs : ∀ s ∈ ss, s.Sent) :
    Holds LawfulStop (fun c => creations c.log < asidCount → ∀ va o, Access c va o →
        visible c.machine.kernel.sched va = some o)
      (coreRun (idealPlatform place ignoresNull kernelEnd cntpct jrtExit) gSched m ⟨[], table⟩ ss) :=
  (coreRun_ok hp hk m table ss hs).mono fun _ hc hlt _ _ ha => hc.access hk hlt ha

/-- The process has come. -/
theorem coreRun_visible_oneArrival :
    ∃ c i, coreRun bumpPlatform 0x50020000 bareMachine emptyHeap ([] ++ [oneArrival]) = .ok c ∧
      c.machine.kernel.sched.curr = some (.pb i) ∧
      ∀ va o, Access c va o → visible c.machine.kernel.sched va = some o := by
  obtain ⟨c, i, hc, hcur, hone⟩ := oneArrival_returns
  have hsent : ∀ s ∈ ([] ++ [oneArrival]), CoreStep.Sent s := by
    intro s hs
    obtain rfl := List.mem_singleton.mp hs
    exact oneArrival_sent
  have hvisible : creations c.log < asidCount → ∀ va o, Access c va o →
      visible c.machine.kernel.sched va = some o :=
    (coreRun_visible bumpPlace_ideal (by decide) bareMachine (fun _ _ => 0) _ hsent).of_ok hc
  exact ⟨c, i, hc, hcur, hvisible (by rw [hone]; decide)⟩

/-- What an exception has looked up in the kernel's map stays visible to the process it returns
to, although the tables of that process do not have it. -/
theorem coreRun_kernel_visible (hp : IdealAlloc place) (hk : kernelEnd ≤ code0 + jrtCodeSize)
    (m : Machine IdealMem) (table : ℕ → ℕ → ℕ) (ss : List CoreStep) (hs : ∀ s ∈ ss, s.Sent)
    (t : Trap) (vas : List ℕ) (ht : CoreStep.Sent (.trap t vas)) :
    Holds LawfulStop (fun c => ∀ va ∈ vas, ∀ o, kernelSpace va = some o → Access c va o)
      (coreRun (idealPlatform place ignoresNull kernelEnd cntpct jrtExit) gSched m ⟨[], table⟩
        (ss ++ [.trap t vas])) := by
  have hrun : Holds LawfulStop (CoreOk kernelEnd)
      (coreRun (idealPlatform place ignoresNull kernelEnd cntpct jrtExit) gSched m ⟨[], table⟩ ss) :=
    coreRun_ok hp hk m table ss hs
  rw [coreRun_snoc]
  apply hrun.bind
  intro c hc
  apply (coreStep_ok hp hk hc ht).of_value
  intro c' hstep hc' va hva o ho
  rw [coreStep] at hstep
  cases hm : takeTrap (idealPlatform place ignoresNull kernelEnd cntpct jrtExit) gSched t c.machine with
  | error e =>
    rw [hm] at hstep
    cases hstep
  | ok m' =>
    rw [hm, ok_bind] at hstep
    obtain rfl := Except.ok.inj hstep
    obtain ⟨hmachine, -, hnew⟩ := kernelFills_mem vas ⟨m', c.tlb, c.log ++ handled t c.machine.kernel⟩
    refine hc'.kernel_access ho ?_
    rw [hmachine]
    exact hnew va hva

/-- The process runs, and sees an address that is not in its tables. -/
theorem coreRun_kernel_visible_oneArrival :
    ∃ c i, coreRun bumpPlatform 0x50020000 bareMachine emptyHeap ([] ++ [oneArrival]) = .ok c ∧
      c.machine.kernel.sched.curr = some (.pb i) ∧ Access c 0x50200000 (0x50200000, pteKernRwx) := by
  obtain ⟨c, i, hc, hcur, -⟩ := oneArrival_returns
  have haccess : ∀ va ∈ [0x50200000], ∀ o, kernelSpace va = some o → Access c va o :=
    (coreRun_kernel_visible bumpPlace_ideal (by decide) bareMachine (fun _ _ => 0) []
      (fun _ h => absurd h List.not_mem_nil) pageArrival [0x50200000] oneArrival_sent).of_ok hc
  exact ⟨c, i, hc, hcur, haccess _ List.mem_cons_self _ (by decide)⟩

end Results

end JanusRT.Tlb
