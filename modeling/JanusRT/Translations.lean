import JanusRT.Accounts
import JanusRT.Images
import JanusRT.Spaces

/-!
# The address spaces of a run

What the tables of the kernel and of every live process mean in each state of a run. Processes
come and go over one allocator that hands the pages of old tables out again, so the exactness of
one map rests on the ownership of all of them: a creation writes fresh pages only, and an exit
writes no page that another map can reach.
-/
namespace JanusRT
open Heap Outcome RadixTree

/-- The translation that the record of a process stands for. -/
def ownSpace (kernelEnd : ℕ) (q : Proc) (va : ℕ) : Option (ℕ × ℕ) :=
  if va < roundUp q.progSize then some (roundDown q.paPc + va, pteProcRwx)
  else sharedSpace (min kernelEnd q.paPc) va

/-- An image that starts in the code window and is no longer than it, which is all that
`rtcore_sched_prog` lets through. -/
structure InWindow (q : Proc) : Prop where
  start : q.paPc < code0 + jrtCodeSize
  size : q.progSize ≤ jrtCodeSize

/-- The tables of a map: they are its own, and the walk finds `space` in them. The root fits
the address field of `TTBR0`. -/
structure MapsTo (m : IdealMem) (map : MmuMap) (space : ℕ → Option (ℕ × ℕ)) : Prop where
  root : map.root.l0Pa = map.root.l0
  aligned : map.root.l0 % 4096 = 0
  bound : map.root.l0 < 2 ^ 48
  rooted : ∃ ps : List ℕ, Rooted m.table map.root.l0 ps ∧ ps.Nodup
  exact : ∀ va, va < 2 ^ 48 → m.walk map.root.l0 va = space va

/-- The maps of the kernel and of the live processes. -/
structure SpacesExact (kernelEnd : ℕ) (k : Kernel IdealMem) : Prop where
  kernel : MapsTo k.mem k.sched.p0.ctx.mmap kernelSpace
  procs : ∀ r ∈ liveProcs k.sched, InWindow (k.sched.proc r) →
    MapsTo k.mem (k.sched.proc r).ctx.mmap (ownSpace kernelEnd (k.sched.proc r))

/-! ## One map -/

section Map
variable {m m' : IdealMem} {map : MmuMap} {space : ℕ → Option (ℕ × ℕ)}

/-- A walk reads the pages of its own tables only. -/
theorem Rooted.walk_congr {root : ℕ} {ps : List ℕ} (h : Rooted m.table root ps)
    (hagree : ∀ a ∈ ps, m'.table a = m.table a) (va : ℕ) : m'.walk root va = m.walk root va := by
  have hnew : Tree nextTable Inner 3 (PageMem.table ⟨m'.table, []⟩) root ps := h.tree.congr hagree
  have hold : Tree nextTable Inner 3 (PageMem.table ⟨m.table, []⟩) root ps := h.tree
  rw [IdealMem.walk, IdealMem.walk, walk_eq_find hnew, walk_eq_find hold,
    h.tree.find_congr hagree _ (by simp [path])]

theorem MapsTo.congr (h : MapsTo m map space)
    (hagree : ∀ a ∈ tablePages m.table 3 map.root.l0, m'.table a = m.table a) :
    MapsTo m' map space := by
  obtain ⟨ps, hrooted, hnd⟩ := h.rooted
  have hsub : ∀ a ∈ ps, m'.table a = m.table a :=
    fun a ha => hagree a ((hrooted.perm hnd).mem_iff.mpr ha)
  refine ⟨h.root, h.aligned, h.bound, ⟨ps, hrooted.congr hsub, hnd⟩, ?_⟩
  intro va hva
  rw [hrooted.walk_congr hsub, h.exact va hva]

end Map

/-! ## New maps -/

section New
variable {place : List HeapCall → ℕ → ℕ → ℕ} {ignoresNull : Bool} {kernelEnd jrtExit : ℕ}
  {cntpct : ℕ → ℕ}

/-- A builder returns the root that `pt_root_new` took. -/
theorem newRoot_eq (pick : List ℕ → ℕ) (m : PageMem) (build : PtRoot → PageMem → Except Halt PageMem) :
    Holds (fun _ => True) (fun x => x.1.l0 = pick m.pages)
      (ptRootNew pick m >>= fun r => build r.1 r.2 >>= fun m => pure (r.1, m)) := by
  have hnew : Holds (fun _ => True) (fun r => r.1.l0 = pick m.pages) (ptRootNew pick m) := by
    simp only [ptRootNew, ptAllocPageOrDie]
    split_ifs
    · trivial
    · trivial
    · rfl
  apply hnew.bind
  intro r hr
  have hbuild : Holds (fun _ => True) (fun _ => True) (build r.1 r.2) := by
    cases build r.1 r.2 <;> trivial
  exact hbuild.bind fun m' _ => hr

/-- What the table code built on its own pages is there in the memory around them. -/
theorem onTables_mapsTo (hp : IdealAlloc place) {m m' : IdealMem} {r : PtRoot}
    {f : PageMem → Except Halt (PtRoot × PageMem)} {space : ℕ → Option (ℕ × ℕ)}
    (hf : onTables m f = .ok (r, m'))
    (hgrown : Holds Lawful (fun x => Grown m.hist m.table x.1.l0 x.2) (f ⟨m.table, []⟩))
    (hnew : ∀ x, f ⟨m.table, []⟩ = .ok x → x.1.l0 = idealPick place m.hist [])
    (hspec : ∀ x, f ⟨m.table, []⟩ = .ok x → x.1.l0Pa = x.1.l0 ∧
      ∀ va, va < 2 ^ 48 → walk x.2 x.1.l0 va = space va) (asid : ℕ) :
    MapsTo m' ⟨r, asid⟩ space := by
  unfold onTables at hf
  cases hx : f ⟨m.table, []⟩ with
  | error e =>
    rw [hx] at hf
    cases hf
  | ok x =>
    rw [hx, ok_bind] at hf
    obtain ⟨rfl, rfl⟩ := Prod.mk.inj (Except.ok.inj hf)
    have hg := hgrown.of_ok hx
    obtain ⟨hpa, hwalk⟩ := hspec x hx
    have hideal := hp.pages m.hist
    refine ⟨hpa, ?_, ?_, ⟨x.2.pages, ⟨hg.tree, hg.covered⟩, hg.nodup⟩, hwalk⟩
    · change x.1.l0 % 4096 = 0
      rw [hnew x hx]
      exact hideal.aligned []
    · change x.1.l0 < 2 ^ 48
      rw [hnew x hx]
      exact hideal.bound []

theorem procRoot_mapsTo (hp : IdealAlloc place) (hk : kernelEnd ≤ code0 + jrtCodeSize)
    {m m' : IdealMem} {r : PtRoot} {q : Proc} (hq : InWindow q)
    (hroot : (idealPlatform place ignoresNull kernelEnd cntpct jrtExit).procRoot m q.paPc q.progSize =
      .ok (r, m')) (asid : ℕ) : MapsTo m' ⟨r, asid⟩ (ownSpace kernelEnd q) := by
  have hroot : onTables m (fun t => procRoot (idealPick place m.hist) kernelEnd t q.paPc q.progSize) =
    .ok (r, m') := hroot
  refine onTables_mapsTo hp hroot (procRoot_grown hp kernelEnd q.paPc q.progSize)
    (fun x hx => (newRoot_eq (idealPick place m.hist) ⟨m.table, []⟩ fun r m =>
      buildProcessMap _ kernelEnd m r q.paPc q.progSize).of_ok hx) ?_ asid
  intro x hx
  have hspec := procRoot_spec (hp.pages m.hist) ⟨m.table, []⟩ q.paPc q.progSize hk hq.start hq.size
  rw [hx] at hspec
  obtain ⟨_, _, hpa, hwalk⟩ := hspec
  exact ⟨hpa, hwalk⟩

theorem kernRoot_mapsTo (hp : IdealAlloc place) {m m' : IdealMem} {r : PtRoot}
    (hroot : (idealPlatform place ignoresNull kernelEnd cntpct jrtExit).kernRoot m = .ok (r, m'))
    (asid : ℕ) : MapsTo m' ⟨r, asid⟩ kernelSpace := by
  have hroot : onTables m (fun t => kernRoot (idealPick place m.hist) t) = .ok (r, m') := hroot
  refine onTables_mapsTo hp hroot (kernRoot_grown hp)
    (fun x hx => (newRoot_eq (idealPick place m.hist) ⟨m.table, []⟩ fun r m =>
      buildKernelMap _ m r).of_ok hx) ?_ asid
  intro x hx
  have hspec := kernRoot_spec (hp.pages m.hist) ⟨m.table, []⟩
  rw [hx] at hspec
  obtain ⟨_, _, hpa, hwalk⟩ := hspec
  exact ⟨hpa, hwalk⟩

end New

/-! ## What an event leaves alone -/

section Frame
variable {k k' : Kernel IdealMem} {ignoresNull : Bool}

/-- A creation writes no page that has an owner. -/
theorem Ownership.create_frame {place : List HeapCall → ℕ → ℕ → ℕ} (h : Ownership k)
    {m : IdealMem} {len ptr : ℕ} (halloc : idealAlloc place k.mem len = .ok (ptr, m))
    {r : PtRoot} {ps : List ℕ} (htake : TakesPages m k'.mem r ps) :
    ∀ a ∈ owned k, k'.mem.table a = k.mem.table a := by
  obtain ⟨-, rfl⟩ := Prod.mk.inj (Except.ok.inj halloc)
  intro a ha
  apply htake.frame a
  intro hap
  have hout := h.mem_live.mp ha
  apply (htake.fresh a hap).2
  rw [livePtrs_alloc]
  split_ifs
  · exact hout
  · exact List.mem_cons_of_mem _ hout

/-- An exit writes no page of the kernel map or of a process that stays. -/
theorem Ownership.exit_frame (h : Ownership k) (hinv : Inv 0 k.sched) (hinv' : Inv 0 k'.sched) {i : ℕ}
    (hx : Exits k.sched k'.sched i)
    (hroot : ptRootFree ignoresNull (afterFree k.mem (k.sched.pb i)) (k.sched.pb i).ctx.mmap.root =
      .ok k'.mem) :
    (∀ a ∈ mapBlocks k.mem k.sched.p0, k'.mem.table a = k.mem.table a) ∧
      ∀ r ∈ liveProcs k'.sched, ∀ a ∈ mapBlocks k.mem (k.sched.proc r),
        k'.mem.table a = k.mem.table a := by
  have hlive := hx.liveProcs hinv hinv'
  have hi : ProcRef.pb i ∈ liveProcs k.sched := hlive ▸ Multiset.mem_cons_self _ _
  obtain ⟨-, hframe⟩ := h.exit_blocks (r := .pb i) hi hroot
  have honce := h.once
  rw [owned, hlive, Multiset.map_cons, Multiset.sum_cons, add_left_comm] at honce
  obtain ⟨-, -, hdis⟩ := Multiset.nodup_add.mp honce
  have hother : ∀ a ∈ mapBlocks k.mem k.sched.p0 +
      ((liveProcs k'.sched).map fun r => assets k.mem (k.sched.proc r)).sum,
      k'.mem.table a = k.mem.table a :=
    fun a ha => hframe a fun hm => Multiset.disjoint_left.mp hdis hm ha
  refine ⟨fun a ha => hother a (Multiset.mem_add.mpr (Or.inl ha)), ?_⟩
  intro r hr a ha
  apply hother a
  obtain ⟨t, ht⟩ := Multiset.exists_cons_of_mem hr
  rw [ht, Multiset.map_cons, Multiset.sum_cons]
  exact Multiset.mem_add.mpr (Or.inr (Multiset.mem_add.mpr (Or.inl (Multiset.mem_add.mpr (Or.inr ha)))))

end Frame

/-! ## Events -/

section Event
variable {k k' : Kernel IdealMem} {kernelEnd : ℕ}

theorem SameImage.ownSpace_eq {q q' : Proc} (h : SameImage q q') :
    ownSpace kernelEnd q' = ownSpace kernelEnd q := by
  unfold ownSpace
  rw [h.start, h.size]

theorem SameImage.inWindow {q q' : Proc} (h : SameImage q q') (hq : InWindow q) : InWindow q' :=
  ⟨h.start.trans_lt hq.start, h.size.trans_le hq.size⟩

theorem SameImage.mapsTo {m m' : IdealMem} {q q' : Proc} (hs : SameImage q q')
    (h : InWindow q → MapsTo m q.ctx.mmap (ownSpace kernelEnd q))
    (hagree : ∀ a ∈ mapBlocks m q, m'.table a = m.table a) :
    InWindow q' → MapsTo m' q'.ctx.mmap (ownSpace kernelEnd q') := by
  intro hq'
  rw [hs.map, hs.ownSpace_eq]
  exact (h (hs.symm.inWindow hq')).congr fun a ha => hagree a (Multiset.mem_coe.mpr ha)

/-- The maps that stay, with their tables unchanged, and those that are new. -/
theorem SpacesExact.carry (h : SpacesExact kernelEnd k)
    (hp0 : k'.sched.p0.ctx.mmap = k.sched.p0.ctx.mmap)
    (hframe : ∀ a ∈ mapBlocks k.mem k.sched.p0, k'.mem.table a = k.mem.table a)
    (hprocs : ∀ r ∈ liveProcs k'.sched,
      (r ∈ liveProcs k.sched ∧ SameImage (k.sched.proc r) (k'.sched.proc r) ∧
        ∀ a ∈ mapBlocks k.mem (k.sched.proc r), k'.mem.table a = k.mem.table a) ∨
      (InWindow (k'.sched.proc r) →
        MapsTo k'.mem (k'.sched.proc r).ctx.mmap (ownSpace kernelEnd (k'.sched.proc r)))) :
    SpacesExact kernelEnd k' := by
  constructor
  · rw [hp0]
    exact h.kernel.congr fun a ha => hframe a (Multiset.mem_coe.mpr ha)
  · intro r hr
    obtain ⟨hold, hsame, hagree⟩ | hnew := hprocs r hr
    · exact hsame.mapsTo (h.procs r hold) hagree
    · exact hnew

/-- Events that only move processes. -/
theorem SpacesExact.moved (h : SpacesExact kernelEnd k) (hinv : Inv 0 k.sched)
    (hinv' : Inv 0 k'.sched) (hm : Moves k k') : SpacesExact kernelEnd k' := by
  have hsame : ∀ r, SameImage (k.sched.proc r) (k'.sched.proc r) := by
    intro r
    obtain ⟨u, s, hs⟩ := hm.procs r
    rw [hs]
    exact ⟨rfl, rfl, rfl⟩
  have hagree : ∀ a, k'.mem.table a = k.mem.table a := by
    intro a
    rw [hm.mem]
  refine h.carry (hsame .p0).map (fun a _ => hagree a) ?_
  intro r hr
  rw [liveProcs_eq hinv hinv' (freeStack_congr hm.freeProc hm.nfreeProc)] at hr
  exact Or.inl ⟨hr, hsame r, fun a _ => hagree a⟩

/-- A new process, whose record up to its state is `q`. -/
theorem SpacesExact.created {place : List HeapCall → ℕ → ℕ → ℕ} (h : SpacesExact kernelEnd k)
    (hown : Ownership k) (hinv : Inv 0 k.sched) (hinv' : Inv 0 k'.sched) {q : Proc}
    (hc : Creates k.sched k'.sched q) {m : IdealMem} {len ptr : ℕ}
    (halloc : idealAlloc place k.mem len = .ok (ptr, m)) {ps : List ℕ}
    (htake : TakesPages m k'.mem q.ctx.mmap.root ps)
    (hnew : InWindow q → MapsTo k'.mem q.ctx.mmap (ownSpace kernelEnd q)) :
    SpacesExact kernelEnd k' := by
  have hframe := hown.create_frame halloc htake
  have hlive := hc.liveProcs hinv hinv'
  have hsame : ∀ r, r ≠ k.sched.freeProc k'.sched.nfreeProc →
      SameImage (k.sched.proc r) (k'.sched.proc r) := by
    intro r hr
    obtain ⟨s, hs⟩ := hc.others r hr
    rw [hs]
    exact ⟨rfl, rfl, rfl⟩
  have hnd := hinv'.nodup_live
  have hp0 := hinv'.p0_not_live
  rw [hlive] at hnd hp0
  refine h.carry (hsame .p0 ?_).map (fun a ha => hframe a (mem_owned_of_kernel ha)) ?_
  · intro he
    exact hp0 (he ▸ Multiset.mem_cons_self _ _)
  · intro r hr
    rw [hlive, Multiset.mem_cons] at hr
    obtain rfl | hr := hr
    · right
      obtain ⟨s, hs⟩ := hc.created
      rw [hs]
      exact fun hw => hnew ⟨hw.start, hw.size⟩
    · left
      refine ⟨hr, hsame r ?_, ?_⟩
      · rintro rfl
        exact (Multiset.nodup_cons.mp hnd).1 hr
      · intro a ha
        exact hframe a (mem_owned_of_live hr (Multiset.mem_add.mpr (Or.inr ha)))

theorem SpacesExact.exited (h : SpacesExact kernelEnd k) (hown : Ownership k)
    (hinv : Inv 0 k.sched) (hinv' : Inv 0 k'.sched) {i : ℕ} (hx : Exits k.sched k'.sched i)
    {ignoresNull : Bool}
    (hroot : ptRootFree ignoresNull (afterFree k.mem (k.sched.pb i)) (k.sched.pb i).ctx.mmap.root =
      .ok k'.mem) : SpacesExact kernelEnd k' := by
  obtain ⟨hframe0, hframe⟩ := hown.exit_frame hinv hinv' hx hroot
  have hlive := hx.liveProcs hinv hinv'
  have hnd := hinv.nodup_live
  rw [hlive] at hnd
  have hsame : ∀ r, r ≠ .pb i → SameImage (k.sched.proc r) (k'.sched.proc r) := by
    intro r hr
    obtain ⟨s, hs⟩ := hx.others r hr
    rw [hs]
    exact ⟨rfl, rfl, rfl⟩
  refine h.carry (hsame .p0 (by simp)).map hframe0 ?_
  intro r hr
  left
  refine ⟨by rw [hlive]; exact Multiset.mem_cons_of_mem hr, hsame r ?_, hframe r hr⟩
  rintro rfl
  exact (Multiset.nodup_cons.mp hnd).1 hr

end Event

/-! ## Runs -/

section Run
variable {place : List HeapCall → ℕ → ℕ → ℕ} {ignoresNull : Bool} {kernelEnd jrtExit : ℕ}
  {cntpct : ℕ → ℕ} {k : Kernel IdealMem}

theorem schedInit_spacesExact (hp : IdealAlloc place) (table : ℕ → ℕ → ℕ) :
    Holds LawfulStop (SpacesExact kernelEnd)
      (schedInit (idealPlatform place ignoresNull kernelEnd cntpct jrtExit) ⟨[], table⟩) := by
  unfold schedInit kernMapCreate
  simp only [bind_assoc, pure_bind]
  have hroot : Holds LawfulStop (fun r => MapsTo r.2 ⟨r.1, 0⟩ kernelSpace) (call
      ((idealPlatform place ignoresNull kernelEnd cntpct jrtExit).kernRoot ⟨[], table⟩)) := by
    apply clean_call
    apply (idealPlatform_kernRoot hp _).of_value
    intro r hr _
    exact kernRoot_mapsTo hp hr 0
  apply hroot.bind
  intro r hr
  refine ⟨hr, ?_⟩
  intro p hp
  simp [liveProcs, queued] at hp

/-- One event. -/
theorem step_spacesExact (hp : IdealAlloc place) (hk : kernelEnd ≤ code0 + jrtCodeSize)
    (ha : Accounted k) (h : SpacesExact kernelEnd k) (e : Event) :
    Holds LawfulStop (SpacesExact kernelEnd)
      (step (idealPlatform place ignoresNull kernelEnd cntpct jrtExit) k e) := by
  apply (step_accounted hp ha e).of_value
  intro k' hok hacc
  have hinv := ha.inv.places
  have hinv' := hacc.inv.places
  cases e with
  | scheduleReq pc progSize memReq =>
    obtain ⟨-, -, -, -, mem, m, root, p, halloc, -, hroot, hc⟩ :=
      (scheduleReq_spec _ hinv pc progSize memReq).of_ok hok
    obtain ⟨ps, htake⟩ := (idealPlatform_procRoot hp m pc progSize).of_ok hroot
    exact h.created ha.ownership hinv hinv' hc halloc htake
      fun hq => procRoot_mapsTo hp hk hq hroot k.asid
  | timerFn =>
    obtain ⟨-, -, -, -, -, hmem, hw⟩ := (timerFn_spec _ hinv ha.inv.edf).of_ok hok
    refine h.moved hinv hinv' ⟨hmem, hw.nfreeProc, hw.freeProc, ?_⟩
    intro r
    obtain ⟨s, hs⟩ := hw.procs r
    exact ⟨(k.sched.proc r).waitUntil, s, hs⟩
  | waitUntil u =>
    obtain ⟨-, -, -, -, hmem, i, hs⟩ := (waitUntil_spec _ hinv ha.inv.timer u).of_ok hok
    refine h.moved hinv hinv' ⟨hmem, hs.nfreeProc, hs.freeProc, ?_⟩
    intro r
    by_cases hr : r = .pb i
    · subst hr
      exact ⟨u, .waiting, hs.slept⟩
    · obtain ⟨s, he⟩ := hs.others r hr
      exact ⟨(k.sched.proc r).waitUntil, s, he⟩
  | exit =>
    obtain ⟨-, -, -, -, i, m, hfree, hroot, hx⟩ := (exit_spec _ hinv).of_ok hok
    have hm := (ha.ownership.free_mem (r := .pb i) (Sched.mem_liveProcs_curr hx.curr)).of_ok hfree
    rw [hm] at hroot
    exact h.exited ha.ownership hinv hinv' hx hroot
  | spawn deadline ep ap memReq =>
    obtain ⟨-, -, -, -, cur, mem, m, root, p, -, halloc, hroot, hc⟩ :=
      (spawn_spec _ hinv deadline ep ap memReq).of_ok hok
    obtain ⟨ps, htake⟩ := (idealPlatform_procRoot hp m _ _).of_ok hroot
    exact h.created ha.ownership hinv hinv' hc halloc htake
      fun hq => procRoot_mapsTo hp hk hq hroot k.asid

theorem run_spacesExact (hp : IdealAlloc place) (hk : kernelEnd ≤ code0 + jrtCodeSize)
    (table : ℕ → ℕ → ℕ) (es : List Event) :
    Holds LawfulStop (fun k => Accounted k ∧ SpacesExact kernelEnd k)
      (run (idealPlatform place ignoresNull kernelEnd cntpct jrtExit) ⟨[], table⟩ es) := by
  apply ((schedInit_accounted hp table).and (schedInit_spacesExact hp table)).bind
  apply Holds.foldlM
  rintro k e ⟨hacc, hsp⟩
  exact (step_accounted hp hacc e).and (step_spacesExact hp hk hacc hsp e)

/-! ## What the maps mean together -/

/-- The arguments that `proc_map_create` got for a process. -/
def Proc.mapReq (q : Proc) : MapReq := ⟨q.paPc, q.progSize, q.ctx.mmap.asid⟩

theorem MapReq.Ok.inWindow {q : Proc} (h : q.mapReq.Ok) : InWindow q := ⟨h.lt, h.len_le⟩

/-- On a page boundary nothing is rounded down. -/
theorem ownSpace_eq {q : Proc} (h : q.mapReq.Ok) (kernelEnd va : ℕ) :
    ownSpace kernelEnd q va = processSpace kernelEnd q.paPc q.progSize va := by
  have haligned : q.paPc % 4096 = 0 := h.aligned
  have hdown : roundDown q.paPc = q.paPc := by unfold roundDown; omega
  rw [ownSpace, hdown, processSpace]

/-- Every map agrees with the kernel's above the pages of its process. -/
theorem sharedSpace_kernel (hk : kernelEnd ≤ code0 + jrtCodeSize) (b : ℕ) {va : ℕ} {o : ℕ × ℕ}
    (ho : sharedSpace (min kernelEnd b) va = some o) : kernelSpace va = some o := by
  have hsize : code0 = 0x50000000 ∧ jrtCodeSize = 0x1000000 := ⟨rfl, rfl⟩
  have hmem : mem0 = 0x51000000 ∧ memEnd = 0x51FFFFFF := ⟨rfl, rfl⟩
  have huart : uartPaBase = 0x9000000 ∧ uartPaSize = 0x1000 := ⟨rfl, rfl⟩
  have hup : roundUp (min kernelEnd b) ≤ code0 + jrtCodeSize := by
    have hle := min_le_left kernelEnd b
    unfold roundUp
    omega
  unfold sharedSpace at ho
  unfold kernelSpace
  split_ifs at ho with h1 h2 h3
  · rw [if_pos (by omega)]
    exact ho
  · rw [if_pos (by omega)]
    exact ho
  · rw [if_neg (by omega), if_pos h3]
    exact ho

/-- The kernel's map is exact, so is that of every live process, they agree outside the pages
of the process, and no process reaches an image that it shares no page with. -/
structure RunSpaces (kernelEnd : ℕ) (k : Kernel IdealMem) : Prop where
  exact : SpacesExact kernelEnd k
  agree : ∀ r ∈ liveProcs k.sched, InWindow (k.sched.proc r) → ∀ va, va < 2 ^ 48 →
    roundUp (k.sched.proc r).progSize ≤ va → ∀ o,
      k.mem.walk (k.sched.proc r).ctx.mmap.root.l0 va = some o →
        k.mem.walk k.sched.p0.ctx.mmap.root.l0 va = some o
  isolated : ∀ r ∈ liveProcs k.sched, ∀ s ∈ liveProcs k.sched, (k.sched.proc r).mapReq.Ok →
    (k.sched.proc s).mapReq.Ok → Apart kernelEnd (k.sched.proc r).mapReq (k.sched.proc s).mapReq →
      ∀ va, va < 2 ^ 48 → ∀ o, k.mem.walk (k.sched.proc r).ctx.mmap.root.l0 va = some o →
        ¬ (k.sched.proc s).mapReq.image o.1

theorem SpacesExact.runSpaces (h : SpacesExact kernelEnd k)
    (hk : kernelEnd ≤ code0 + jrtCodeSize) : RunSpaces kernelEnd k := by
  refine ⟨h, ?_, ?_⟩
  · intro r hr hwin va hva hlow o ho
    rw [(h.procs r hr hwin).exact va hva, ownSpace, if_neg (by omega)] at ho
    rw [h.kernel.exact va hva]
    exact sharedSpace_kernel hk _ ho
  · intro r hr s _ hrok hsok hapart va hva o ho
    rw [(h.procs r hr hrok.inWindow).exact va hva, ownSpace_eq hrok] at ho
    exact processSpace_apart hsok hapart ho

/-- In every state of every run. -/
theorem run_spaces (hp : IdealAlloc place) (hk : kernelEnd ≤ code0 + jrtCodeSize)
    (table : ℕ → ℕ → ℕ) (es : List Event) :
    Holds LawfulStop (RunSpaces kernelEnd)
      (run (idealPlatform place ignoresNull kernelEnd cntpct jrtExit) ⟨[], table⟩ es) :=
  (run_spacesExact hp hk table es).mono fun _ h => h.2.runSpaces hk

/-- A program sees its first page at zero, where the kernel sees nothing. -/
theorem run_spaces_oneProgram :
    ∃ k i, run bumpPlatform emptyHeap oneProgram = .ok k ∧ k.sched.curr = some (.pb i) ∧
      k.mem.walk (k.sched.pb i).ctx.mmap.root.l0 0x10 = some (0x50100010, pteProcRwx) ∧
      k.mem.walk k.sched.p0.ctx.mmap.root.l0 0x10 = none := by
  obtain ⟨k, i, hk, hcalm, -, -, hpc, hsize, -⟩ := oneProgram_returns
  have hspaces : RunSpaces 0x50020000 k :=
    (run_spaces bumpPlace_ideal (by decide) (fun _ _ => 0) oneProgram).of_ok hk
  have hwin : InWindow (k.sched.proc (.pb i)) := by
    refine ⟨?_, ?_⟩
    · exact hpc.trans_lt (by decide)
    · exact hsize.trans_le (by decide)
  have hown := hspaces.exact.procs _ (Sched.mem_liveProcs_curr hcalm.curr) hwin
  refine ⟨k, i, hk, hcalm.curr, ?_, ?_⟩
  · have hwalk := hown.exact 0x10 (by decide)
    rw [ownSpace] at hwalk
    simp only [Sched.proc, hpc, hsize] at hwalk
    rw [hwalk]
    decide
  · rw [hspaces.exact.kernel.exact 0x10 (by decide)]
    decide

end Run

end JanusRT
