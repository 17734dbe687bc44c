import JanusRT.CacheSync
import JanusRT.EndToEnd
import JanusRT.Tlb

/-!
# What a process executes

The module, the ring and the kernel, with the bytes they share and the caches in front of them. A
thread whose request has been accepted makes its program fetchable before it asks for `sched_lock`.
Meanwhile others store through their mappings, processes wherever their accesses are translated to
and the kernel outside of the window. The caches write back, drop and fill lines as they like, and
the core looks up and forgets translations.
-/
namespace JanusRT.Loading
open Heap Outcome FetchCache CacheSync EndToEnd Tlb

variable {P Fd : Type} [DecidableEq P] [DecidableEq Fd]

/-! ## The board -/

/-- `maint` is what a thread has yet to do of `rtcore_icache_sync_phys_range`. -/
structure Board (P Fd : Type) where
  system : System P Fd IdealMem
  maint : P → List Maint
  cache : Hierarchy UInt8
  tlb : List TlbEntry

/-- `process` is a store of a process to `va` that is translated to `o`. `lookUp` and `forget` are
the core's, in the map of a process or the kernel. -/
inductive BoardStep (P Fd : Type)
  | system (a : SystemStep P Fd)
  | maintain (p : P)
  | mapping (b : Range) (off : ℕ) (v : UInt8)
  | process (r : ProcRef) (va : ℕ) (o : ℕ × ℕ) (v : UInt8)
  | kernel (addr : ℕ) (v : UInt8)
  | writeBack (l : Line)
  | drop (l : Line)
  | fill (l : Line)
  | lookUp (r : ProcRef) (va : ℕ)
  | forget (i : ℕ)

/-- The request with which `rtcore_sched_prog` passes its checks. -/
def accepted {M : Type} (s : System P Fd M) (p : P) (fd : Fd) (args : Option SchedProgArgs) :
    Option SchedReq :=
  match s.waiting p, s.bell.mbox.sender p, rtcoreSchedProg s.linux.mod fd args with
  | none, .idle, .ok req => some req
  | _, _, _ => none

/-- What an access of a process to `va` can be translated to. -/
def Board.Gets (s : Board P Fd) (r : ProcRef) (va : ℕ) (o : ℕ × ℕ) : Prop :=
  Tlb.Gets s.system.kernel.mem s.tlb (ttbr0Of s.system.kernel r) va o

instance (s : Board P Fd) (r : ProcRef) (va : ℕ) (o : ℕ × ℕ) : Decidable (s.Gets r va o) := by
  unfold Board.Gets
  infer_instance

/-- A page in the map of the kernel or a live process is remembered. -/
def Board.lookUp (s : Board P Fd) (r : ProcRef) (va : ℕ) : Board P Fd :=
  if Present s.system.kernel r then
    { s with tlb := (fillEntry s.system.kernel.mem (ttbr0Of s.system.kernel r) va).toList ++ s.tlb }
  else s

section Steps
variable (pf : Platform IdealMem) (kernelEnd ctr jrtMemVirt : ℕ)

/-- What a step does to the caches. A mapping outlives its file, and what a page allows is not
looked at. The kernel keeps to its own image and to what lies above the window. -/
def cacheOp (s : Board P Fd) : BoardStep P Fd → Option (FetchCache.Op UInt8)
  | .system _ => none
  | .maintain p => (s.maint p).head?.map (Maint.op ctr jrtMemVirt)
  | .mapping b off v =>
    if b ∈ s.system.linux.handed ∧ off < b.len then some (.store (b.start + off) v) else none
  | .process r va o v =>
    if r ∈ liveProcs s.system.kernel.sched ∧ s.Gets r va o then some (.store o.1 v) else none
  | .kernel addr v =>
    if addr < kernelEnd ∨ code0 + jrtCodeSize ≤ addr then some (.store addr v) else none
  | .writeBack l => some (.clean l)
  | .drop l => some (.invalidate l)
  | .fill l => some (.fill l)
  | .lookUp _ _ => none
  | .forget _ => none

/-- The maintenance that a system call starts. -/
def begun (s : Board P Fd) : SystemStep P Fd → Except Stop (P → List Maint)
  | .schedProg p fd args =>
    match accepted s.system p fd args with
    | some req => do
      let ms ← rtcoreIcacheSyncPhysRange ctr jrtMemVirt req.pc req.progSize
      pure (Function.update s.maint p ms)
    | none => pure s.maint
  | _ => pure s.maint

/-- `mutex_lock` comes after the maintenance. -/
def MayStep (s : Board P Fd) : SystemStep P Fd → Prop
  | .lock p => s.maint p = []
  | _ => True

instance (s : Board P Fd) (a : SystemStep P Fd) : Decidable (MayStep s a) := by
  unfold MayStep
  split <;> infer_instance

def boardStep (s : Board P Fd) (a : BoardStep P Fd) : Except Stop (Board P Fd) :=
  let cache := (cacheOp kernelEnd ctr jrtMemVirt s a).elim s.cache (FetchCache.step s.cache)
  match a with
  | .system a =>
    if MayStep s a then do
      let maint ← begun ctr jrtMemVirt s a
      let system ← systemStep pf s.system a
      pure ⟨system, maint, cache, s.tlb⟩
    else pure s
  | .maintain p => pure ⟨s.system, Function.update s.maint p (s.maint p).tail, cache, s.tlb⟩
  | .lookUp r va => pure (s.lookUp r va)
  | .forget i => pure { s with tlb := s.tlb.eraseIdx i }
  | _ => pure { s with cache }

end Steps

/-- Nothing is stored at `a` through the mapping of `b`, by a process whose code lies in `b`, or by
a process through a translation that it shares with the kernel. -/
def Spares (b : Range) (a : ℕ) (s : Board P Fd) : BoardStep P Fd → Prop
  | .mapping b' off _ => b' = b → b.start + off ≠ a
  | .process r _ o _ => IsGlobal o ∨ b.start ≤ (s.system.kernel.sched.proc r).paPc ∧
      (s.system.kernel.sched.proc r).paPc < b.start + b.len → o.1 ≠ a
  | _ => True

/-! ## Frames of the system's steps -/

section Frame
variable {M : Type} {pf : Platform M} {s s' : System P Fd M}

omit [DecidableEq P] [DecidableEq Fd] in
theorem handle_frame {e : Event} (h : s.handle pf e = .ok s') :
    s'.waiting = s.waiting ∧ s'.linux = s.linux ∧ step pf s.kernel e = .ok s'.kernel ∧
      s'.log = s.log ++ [e] := by
  obtain ⟨k, hk, hs'⟩ := ok_of_bind h
  cases hs'
  exact ⟨rfl, rfl, hk, rfl⟩

/-- System calls and handlers leave the caches alone. -/
theorem boardStep_system {pf : Platform IdealMem} {kernelEnd ctr jrtMemVirt : ℕ} {t t' : Board P Fd}
    {a : SystemStep P Fd} (h : boardStep pf kernelEnd ctr jrtMemVirt t (.system a) = .ok t') :
    t'.cache = t.cache := by
  simp only [boardStep] at h
  split_ifs at h
  · obtain ⟨maint, -, h⟩ := ok_of_bind h
    obtain ⟨system, -, h⟩ := ok_of_bind h
    cases h
    rfl
  · cases h
    rfl

/-- Only file operations touch the module's records, and a thread with a request keeps it until it
takes the lock. The kernel handles an event or nothing, and its requests are those of the pops. -/
structure Framed (pf : Platform M) (s s' : System P Fd M) (a : SystemStep P Fd) : Prop where
  linux : s'.linux = s.linux ∨ ∃ op, s'.linux = carveStep s.linux op
  waiting : ∀ p req, s.waiting p = some req → a ≠ .lock p → s'.waiting p = some req
  kernel : s'.kernel = s.kernel ∧ s'.log = s.log ∨
    ∃ e, (∀ x, eventReq e = some x → popped s.bell = some x) ∧
      step pf s.kernel e = .ok s'.kernel ∧ s'.log = s.log ++ [e]

theorem systemStep_framed {a : SystemStep P Fd} (h : systemStep pf s a = .ok s') :
    Framed pf s s' a := by
  have hself : Framed pf s s a := ⟨Or.inl rfl, fun _ _ hp _ => hp, Or.inl ⟨rfl, rfl⟩⟩
  have hhandle : ∀ {t : System P Fd M} {e : Event}, t.handle pf e = .ok s' →
      t.waiting = s.waiting ∧ t.linux = s.linux ∧ t.kernel = s.kernel ∧ t.log = s.log →
      (∀ x, eventReq e = some x → popped s.bell = some x) → Framed pf s s' a := by
    rintro t e ht ⟨hwaiting, hlinux, hkernel, hlog⟩ hreq
    obtain ⟨hwaiting', hlinux', hstep, hlog'⟩ := handle_frame ht
    rw [hkernel] at hstep
    rw [hlog] at hlog'
    refine ⟨Or.inl (hlinux'.trans hlinux), ?_, Or.inr ⟨e, hreq, hstep, hlog'⟩⟩
    intro p req hp _
    rw [hwaiting', hwaiting, hp]
  cases a with
  | file op =>
    cases h
    exact ⟨Or.inr ⟨op, rfl⟩, fun _ _ hp _ => hp, Or.inl ⟨rfl, rfl⟩⟩
  | schedProg q fd args =>
    simp only [systemStep] at h
    split at h
    · next hq _ _ =>
      cases h
      refine ⟨Or.inl rfl, ?_, Or.inl ⟨rfl, rfl⟩⟩
      intro p req hp _
      have hne : p ≠ q := by
        rintro rfl
        rw [hp] at hq
        cases hq
      exact (Function.update_of_ne hne _ _).trans hp
    · cases h
      exact hself
  | lock q =>
    simp only [systemStep] at h
    split at h
    · cases h
      refine ⟨Or.inl rfl, ?_, Or.inl ⟨rfl, rfl⟩⟩
      intro p req hp ha
      have hne : p ≠ q := by
        rintro rfl
        exact ha rfl
      exact (Function.update_of_ne hne _ _).trans hp
    · cases h
      exact hself
  | sender q =>
    cases h
    exact ⟨Or.inl rfl, fun _ _ hp _ => hp, Or.inl ⟨rfl, rfl⟩⟩
  | takeSpi =>
    cases h
    exact ⟨Or.inl rfl, fun _ _ hp _ => hp, Or.inl ⟨rfl, rfl⟩⟩
  | ipcSched =>
    simp only [systemStep] at h
    split at h
    · cases h
      exact ⟨Or.inl rfl, fun _ _ hp _ => hp, Or.inl ⟨rfl, rfl⟩⟩
    · next x hpop =>
      refine hhandle h ⟨rfl, rfl, rfl, rfl⟩ ?_
      intro y hy
      obtain rfl : x = y := Option.some.inj hy
      exact hpop
  | handler e =>
    simp only [systemStep] at h
    split_ifs at h with he
    · refine hhandle h ⟨rfl, rfl, rfl, rfl⟩ ?_
      intro x hx
      rw [he.2] at hx
      cases hx
    · cases h
      exact hself

omit [DecidableEq P] in
theorem Framed.handed {a : SystemStep P Fd} (hf : Framed pf s s' a) (hc : CarvingInv s.linux)
    (hp : Pages s.linux.handed) : s.linux.handed ⊆ s'.linux.handed := by
  obtain hl | ⟨op, hl⟩ := hf.linux
  · rw [hl]
    exact List.Subset.refl _
  · rw [hl]
    exact (carveStep_handed hc hp op).1

omit [DecidableEq P] [DecidableEq Fd] in
/-- A request for the end of a range is one that `rtcore_sched_prog` sends. -/
theorem eventSent_of_within (hc : CarvingInv s.linux) {e : Event}
    (he : ∀ x, eventReq e = some x → Within s.linux.handed x) : EventSent e := by
  have hcode : code0 = 0x50000000 ∧ jrtCodeSize = 0x1000000 := ⟨rfl, rfl⟩
  have hle := hc.mod.le
  cases e with
  | scheduleReq pc progSize memReq =>
    obtain ⟨r, hr, hlo, hend, hpos⟩ := he _ rfl
    have hin := hc.inside r hr
    dsimp only at hlo hend hpos
    constructor <;> omega
  | _ => trivial

omit [DecidableEq P] in
/-- What the core remembers fits the kernel's next state too. -/
theorem Framed.kernelOk {place : List HeapCall → ℕ → ℕ → ℕ} {ignoresNull : Bool}
    {kernelEnd jrtExit : ℕ} {cntpct : ℕ → ℕ} {s s' : System P Fd IdealMem} {mem : IdealMem}
    {tlb : List TlbEntry} {a : SystemStep P Fd} (hp : IdealAlloc place)
    (hk : kernelEnd ≤ code0 + jrtCodeSize)
    (hf : Framed (idealPlatform place ignoresNull kernelEnd cntpct jrtExit) s s' a)
    (h : SystemInv (idealPlatform place ignoresNull kernelEnd cntpct jrtExit) mem s)
    (hok : KernelOk kernelEnd tlb s.log s.kernel) : KernelOk kernelEnd tlb s'.log s'.kernel := by
  obtain ⟨hkernel, hlog⟩ | ⟨e, hreq, hstep, hlog⟩ := hf.kernel
  · rw [hkernel, hlog]
    exact hok
  · rw [hlog]
    have hsent : EventSent e := by
      apply eventSent_of_within h.carving
      exact fun x hx => h.pushed x (popped_pushed h.bell (hreq x hx))
    exact (hok.step hp hk hsent).of_ok hstep

end Frame

/-! ## Every state -/

/-- The system is sound, and what the core remembers fits its kernel. -/
structure BoardInv (kernelEnd : ℕ) (pf : Platform IdealMem) (mem : IdealMem) (s : Board P Fd) :
    Prop where
  system : SystemInv pf mem s.system
  kernel : KernelOk kernelEnd s.tlb s.system.log s.system.kernel

/-! ## Who can store to a range -/

section Spared
variable {place : List HeapCall → ℕ → ℕ → ℕ} {ignoresNull : Bool} {kernelEnd jrtExit : ℕ}
  {cntpct : ℕ → ℕ} {mem : IdealMem} {ctr jrtMemVirt : ℕ} {s : Board P Fd} {b : Range} {addr : ℕ}

omit [DecidableEq P] [DecidableEq Fd] in
/-- A process gets to its own pages, wherever they are, and else shares what it gets. -/
theorem BoardInv.gets {pf : Platform IdealMem} (hk : kernelEnd ≤ code0 + jrtCodeSize)
    (h : BoardInv kernelEnd pf mem s) (hfew : creations s.system.log < asidCount) {q : ProcRef}
    (hq : q ∈ liveProcs s.system.kernel.sched) {va : ℕ} {o : ℕ × ℕ} (ho : s.Gets q va o) :
    IsGlobal o ∧ kernelSpace va = some o ∨
      va < roundUp (s.system.kernel.sched.proc q).progSize ∧
        o = (roundDown (s.system.kernel.sched.proc q).paPc + va, pteProcRwx) := by
  cases q with
  | p0 => exact absurd hq h.kernel.accounted.inv.places.p0_not_live
  | pb i =>
    obtain hkernel | hown := h.kernel.gets hfew (Or.inr hq) ho
    · exact Or.inl ⟨kernelSpace_global hkernel, hkernel⟩
    · obtain ⟨hlow, he, -⟩ | ⟨-, hkernel, hglobal⟩ := ownSpace_cases hk hown
      · exact Or.inr ⟨hlow, he⟩
      · exact Or.inl ⟨hglobal, hkernel⟩

omit [DecidableEq P] [DecidableEq Fd] in
/-- A page of its own is what a process finds in its tables. -/
theorem BoardInv.own_page {pf : Platform IdealMem} (h : BoardInv kernelEnd pf mem s) {q : ProcRef}
    (hq : q ∈ liveProcs s.system.kernel.sched) {va : ℕ}
    (hva : va < roundUp (s.system.kernel.sched.proc q).progSize) :
    va < 2 ^ 48 ∧ s.system.kernel.mem.walk (s.system.kernel.sched.proc q).ctx.mmap.root.l0 va =
      some (roundDown (s.system.kernel.sched.proc q).paPc + va, pteProcRwx) := by
  have hsize : jrtCodeSize = 0x1000000 := rfl
  have hwin := h.kernel.window q (Or.inr hq)
  have hle := hwin.size
  have hlt : va < 2 ^ 48 := by
    unfold roundUp at hva
    omega
  refine ⟨hlt, ?_⟩
  rw [(h.kernel.spaces.procs q hq hwin).exact va hlt, ownSpace, if_pos hva]

omit [DecidableEq P] [DecidableEq Fd] in
/-- Ranges other than `b`, processes from elsewhere and the kernel do not reach into `b`. -/
theorem not_storesAt {pf : Platform IdealMem} (hk : kernelEnd ≤ code0 + jrtCodeSize)
    (h : BoardInv kernelEnd pf mem s) (hfew : creations s.system.log < asidCount)
    (hb : b ∈ s.system.linux.handed) (hkernel : kernelEnd ≤ b.start)
    (haddr : b.start ≤ addr ∧ addr < b.start + b.len)
    {a : BoardStep P Fd} (ha : Spares b addr s a) {op : FetchCache.Op UInt8}
    (hop : cacheOp kernelEnd ctr jrtMemVirt s a = some op) : ¬ op.StoresAt addr := by
  have hin := h.system.carving.inside b hb
  have hle := h.system.carving.mod.le
  cases a with
  | system a => cases hop
  | maintain p =>
    obtain ⟨m, -, rfl⟩ := Option.map_eq_some_iff.mp hop
    cases m <;> exact id
  | mapping b' off v =>
    simp only [cacheOp] at hop
    split_ifs at hop with hb'
    cases hop
    intro hat
    by_cases hsame : b' = b
    · subst hsame
      exact ha rfl hat
    · have hsymm : Std.Symm Range.Disjoint := ⟨fun _ _ hd => hd.symm⟩
      have hdis := h.system.carving.apart.forall hb'.1 hb hsame
      have hoff := hb'.2
      unfold Range.Disjoint at hdis
      unfold FetchCache.Op.StoresAt at hat
      omega
  | process r va o v =>
    simp only [cacheOp] at hop
    split_ifs at hop with hr
    cases hop
    intro hat
    obtain ⟨hlive, ho⟩ := hr
    obtain ⟨hglobal, -⟩ | ⟨hva, rfl⟩ := h.gets hk hfew hlive ho
    · exact ha (Or.inl hglobal) hat
    by_cases hcode : b.start ≤ (s.system.kernel.sched.proc r).paPc ∧
        (s.system.kernel.sched.proc r).paPc < b.start + b.len
    · exact ha (Or.inr hcode) hat
    · obtain ⟨hlt, hwalk⟩ := h.own_page hlive hva
      have hfar := (h.system.isolated h.kernel.spaces).others r hlive b hb hkernel hcode va hlt _ hwalk
      unfold FetchCache.Op.StoresAt at hat
      rw [hat] at hfar
      exact hfar haddr
  | kernel x v =>
    simp only [cacheOp] at hop
    split_ifs at hop with hx
    cases hop
    unfold FetchCache.Op.StoresAt
    omega
  | writeBack l =>
    cases hop
    exact id
  | drop l =>
    cases hop
    exact id
  | fill l =>
    cases hop
    exact id
  | lookUp r va => cases hop
  | forget i => cases hop

end Spared

/-! ## Every interleaving -/

section Arrival
variable {place : List HeapCall → ℕ → ℕ → ℕ} {ignoresNull : Bool} {kernelEnd jrtExit : ℕ}
  {cntpct : ℕ → ℕ} {table : ℕ → ℕ → ℕ} {ctr jrtMemVirt : ℕ} {s : Board P Fd} {b : Range}
  {addr : ℕ} {v : UInt8} {p : P} {req : SchedReq}

omit [DecidableEq P] [DecidableEq Fd] in
/-- The maintenance of an accepted request returns. -/
theorem begun_of_accepted {pf : Platform IdealMem} {mem : IdealMem} (hmap : WindowMapped ctr jrtMemVirt)
    (h : SystemInv pf mem s.system) {fd : Fd} {args : Option SchedProgArgs}
    (hreq : accepted s.system p fd args = some req) :
    ∃ ms, rtcoreIcacheSyncPhysRange ctr jrtMemVirt req.pc req.progSize = .ok ms ∧
      Syncs ctr jrtMemVirt req.pc req.progSize ms := by
  have hsched : rtcoreSchedProg s.system.linux.mod fd args = .ok req := by
    unfold accepted at hreq
    split at hreq
    · next hok =>
      cases hreq
      exact hok
    · cases hreq
  obtain ⟨r, hr, hlo, hend, -⟩ := schedProg_within h.carving hsched
  have hin := h.carving.inside r hr
  have hle := h.carving.mod.le
  exact rtcoreIcacheSyncPhysRange_syncs hmap (by omega) (by omega)

omit [DecidableEq Fd] in
theorem begun_holds {pf : Platform IdealMem} {mem : IdealMem} (hmap : WindowMapped ctr jrtMemVirt)
    (h : SystemInv pf mem s.system) (a : SystemStep P Fd) :
    Holds Stop.IsHalt (fun maint => ∀ q, s.system.waiting q ≠ none → maint q = s.maint q)
      (begun ctr jrtMemVirt s a) := by
  cases a with
  | schedProg q fd args =>
    simp only [begun]
    cases hreq : accepted s.system q fd args with
    | none => exact fun _ _ => rfl
    | some req =>
      obtain ⟨ms, hms, -⟩ := begun_of_accepted hmap h hreq
      dsimp only
      rw [hms]
      intro q' hq'
      have hne : q' ≠ q := by
        rintro rfl
        unfold accepted at hreq
        split at hreq
        · next hnone _ _ => exact hq' hnone
        · cases hreq
      exact Function.update_of_ne hne _ _
  | _ => exact fun _ _ => rfl

/-- The byte `v` at `addr`, on its way into the instruction cache: `p` either has been through the
lock, or is still at the maintenance for its request. -/
structure Arriving (kernelEnd : ℕ) (pf : Platform IdealMem) (mem : IdealMem) (ctr jrtMemVirt : ℕ)
    (b : Range) (addr : ℕ) (v : UInt8) (p : P) (req : SchedReq) (s : Board P Fd) : Prop where
  board : BoardInv kernelEnd pf mem s
  handed : b ∈ s.system.linux.handed
  data : s.cache.data addr = v
  due : Synced s.cache addr ∨ (s.system.waiting p = some req ∧
    Due addr s.cache ((s.maint p).map (Maint.op ctr jrtMemVirt)))

omit [DecidableEq P] [DecidableEq Fd] in
/-- The caches of a step that stores nothing at `addr`. -/
theorem Arriving.cache {pf : Platform IdealMem} {mem : IdealMem}
    (h : Arriving kernelEnd pf mem ctr jrtMemVirt b addr v p req s) {op : FetchCache.Op UInt8}
    (hop : ¬ op.StoresAt addr) :
    Arriving kernelEnd pf mem ctr jrtMemVirt b addr v p req { s with cache := FetchCache.step s.cache op } := by
  refine ⟨⟨h.board.system, h.board.kernel⟩, h.handed, (step_data hop).trans h.data, ?_⟩
  obtain hs | ⟨hw, hd⟩ := h.due
  · exact Or.inl (hs.step hop)
  · exact Or.inr ⟨hw, hd.other hop⟩

omit [DecidableEq Fd] in
/-- The same when the operation is the next one of a thread's maintenance. -/
theorem Arriving.maintain {pf : Platform IdealMem} {mem : IdealMem}
    (h : Arriving kernelEnd pf mem ctr jrtMemVirt b addr v p req s) (q : P) :
    Arriving kernelEnd pf mem ctr jrtMemVirt b addr v p req ⟨s.system,
      Function.update s.maint q (s.maint q).tail,
      ((s.maint q).head?.map (Maint.op ctr jrtMemVirt)).elim s.cache (FetchCache.step s.cache),
      s.tlb⟩ := by
  cases hm : s.maint q with
  | nil =>
    have hself : Function.update s.maint q [] = s.maint := by rw [← hm, Function.update_eq_self]
    simp only [List.tail_nil, List.head?_nil, Option.map_none, Option.elim_none, hself]
    exact h
  | cons m ms =>
    simp only [List.tail_cons, List.head?_cons, Option.map_some, Option.elim_some]
    have hop : ¬ (m.op (V := UInt8) ctr jrtMemVirt).StoresAt addr := by
      cases m <;> exact id
    refine ⟨⟨h.board.system, h.board.kernel⟩, h.handed, (step_data hop).trans h.data, ?_⟩
    obtain hs | ⟨hw, hd⟩ := h.due
    · exact Or.inl (hs.step hop)
    · refine Or.inr ⟨hw, ?_⟩
      by_cases hq : p = q
      · subst hq
        rw [hm, List.map_cons] at hd
        simp only [Function.update_self]
        exact hd.next hop
      · simp only [Function.update_of_ne hq]
        exact hd.other hop

omit [DecidableEq P] [DecidableEq Fd] in
theorem Arriving.lock {pf : Platform IdealMem} {mem : IdealMem}
    (h : Arriving kernelEnd pf mem ctr jrtMemVirt b addr v p req s) (hmaint : s.maint p = []) :
    Synced s.cache addr := by
  obtain hs | ⟨-, hd⟩ := h.due
  · exact hs
  · rw [hmaint] at hd
    exact hd.synced

/-- A step of the system, with what the core remembers. -/
theorem BoardInv.system_step (hp : IdealAlloc place) (hk : kernelEnd ≤ code0 + jrtCodeSize)
    {mem : IdealMem}
    (h : BoardInv kernelEnd (idealPlatform place ignoresNull kernelEnd cntpct jrtExit) mem s)
    (a : SystemStep P Fd) :
    Holds Stop.IsHalt (fun t =>
        Framed (idealPlatform place ignoresNull kernelEnd cntpct jrtExit) s.system t a ∧
        SystemInv (idealPlatform place ignoresNull kernelEnd cntpct jrtExit) mem t ∧
        KernelOk kernelEnd s.tlb t.log t.kernel)
      (systemStep (idealPlatform place ignoresNull kernelEnd cntpct jrtExit) s.system a) := by
  apply (systemStep_inv h.system a).of_value
  intro t ht hinv
  have hframe := systemStep_framed ht
  exact ⟨hframe, hinv, hframe.kernelOk hp hk h.system h.kernel⟩

theorem Arriving.system_step (hp : IdealAlloc place) (hk : kernelEnd ≤ code0 + jrtCodeSize)
    {mem : IdealMem} (hmap : WindowMapped ctr jrtMemVirt)
    (h : Arriving kernelEnd (idealPlatform place ignoresNull kernelEnd cntpct jrtExit) mem ctr
      jrtMemVirt b addr v p req s) (a : SystemStep P Fd) :
    Holds Stop.IsHalt (Arriving kernelEnd
        (idealPlatform place ignoresNull kernelEnd cntpct jrtExit) mem ctr jrtMemVirt b addr v p req)
      (boardStep (idealPlatform place ignoresNull kernelEnd cntpct jrtExit) kernelEnd ctr jrtMemVirt
        s (.system a)) := by
  simp only [boardStep]
  split_ifs with hmay
  · apply (begun_holds hmap h.board.system a).bind
    intro maint hmaint
    apply (h.board.system_step hp hk a).bind
    rintro t ⟨hframe, hinv, hok⟩
    refine ⟨⟨hinv, hok⟩,
      hframe.handed h.board.system.carving h.board.system.pages h.handed, h.data, ?_⟩
    by_cases hlock : a = .lock p
    · subst hlock
      exact Or.inl (h.lock hmay)
    obtain hs | ⟨hw, hd⟩ := h.due
    · exact Or.inl hs
    · refine Or.inr ⟨hframe.waiting p req hw hlock, ?_⟩
      dsimp only
      rw [hmaint p (by rw [hw]; exact Option.some_ne_none req)]
      exact hd
  · exact h

omit [DecidableEq P] [DecidableEq Fd] in
theorem BoardInv.lookUp {pf : Platform IdealMem} {mem : IdealMem}
    (hk : kernelEnd ≤ code0 + jrtCodeSize) (h : BoardInv kernelEnd pf mem s) (r : ProcRef) (va : ℕ) :
    BoardInv kernelEnd pf mem (s.lookUp r va) := by
  unfold Board.lookUp
  split_ifs with hr
  · exact ⟨h.system, h.kernel.fill hk hr va⟩
  · exact h

omit [DecidableEq P] [DecidableEq Fd] in
/-- The translations are apart from the bytes. -/
theorem lookUp_frame (s : Board P Fd) (r : ProcRef) (va : ℕ) :
    (s.lookUp r va).system = s.system ∧ (s.lookUp r va).maint = s.maint ∧
      (s.lookUp r va).cache = s.cache := by
  unfold Board.lookUp
  split_ifs <;> exact ⟨rfl, rfl, rfl⟩

theorem Arriving.step (hp : IdealAlloc place) (hk : kernelEnd ≤ code0 + jrtCodeSize)
    {mem : IdealMem} (hmap : WindowMapped ctr jrtMemVirt) (hkernel : kernelEnd ≤ b.start)
    (haddr : b.start ≤ addr ∧ addr < b.start + b.len)
    (h : Arriving kernelEnd (idealPlatform place ignoresNull kernelEnd cntpct jrtExit) mem ctr
      jrtMemVirt b addr v p req s) (hfew : creations s.system.log < asidCount) {a : BoardStep P Fd}
    (ha : Spares b addr s a) :
    Holds Stop.IsHalt (fun s' => Arriving kernelEnd
        (idealPlatform place ignoresNull kernelEnd cntpct jrtExit) mem ctr jrtMemVirt b addr v p req s' ∧
        (Synced s.cache addr → Synced s'.cache addr))
      (boardStep (idealPlatform place ignoresNull kernelEnd cntpct jrtExit) kernelEnd ctr jrtMemVirt
        s a) := by
  have hkeep : ∀ op, cacheOp kernelEnd ctr jrtMemVirt s a = some op → ¬ op.StoresAt addr :=
    fun op => not_storesAt hk h.board hfew h.handed hkernel haddr ha
  have hcache : Arriving kernelEnd (idealPlatform place ignoresNull kernelEnd cntpct jrtExit) mem ctr
      jrtMemVirt b addr v p req { s with cache :=
        (cacheOp kernelEnd ctr jrtMemVirt s a).elim s.cache (FetchCache.step s.cache) } := by
    cases hop : cacheOp kernelEnd ctr jrtMemVirt s a with
    | none => exact h
    | some op => exact h.cache (hkeep op hop)
  have hsync : Synced s.cache addr → Synced ((cacheOp kernelEnd ctr jrtMemVirt s a).elim s.cache
      (FetchCache.step s.cache)) addr := by
    intro hs
    cases hop : cacheOp kernelEnd ctr jrtMemVirt s a with
    | none => exact hs
    | some op => exact hs.step (hkeep op hop)
  cases a with
  | system a =>
    apply (h.system_step hp hk hmap a).of_value
    intro s' hs' h'
    rw [boardStep_system hs']
    exact ⟨h', id⟩
  | maintain q => exact ⟨h.maintain q, hsync⟩
  | mapping b' off v' => exact ⟨hcache, hsync⟩
  | process r va o v' => exact ⟨hcache, hsync⟩
  | kernel x v' => exact ⟨hcache, hsync⟩
  | writeBack l => exact ⟨hcache, hsync⟩
  | drop l => exact ⟨hcache, hsync⟩
  | fill l => exact ⟨hcache, hsync⟩
  | lookUp r va =>
    obtain ⟨hsystem, hmaint, hbytes⟩ := lookUp_frame s r va
    refine ⟨⟨h.board.lookUp hk r va, ?_, ?_, ?_⟩, ?_⟩
    · rw [hsystem]
      exact h.handed
    · rw [hbytes]
      exact h.data
    · rw [hsystem, hmaint, hbytes]
      exact h.due
    · rw [hbytes]
      exact id
  | forget i =>
    exact ⟨⟨⟨h.board.system, h.board.kernel.evict i⟩, h.handed, h.data, h.due⟩, id⟩

end Arrival

/-! ## One program -/

section OneLoad
variable {pf : Platform IdealMem} {kernelEnd ctr jrtMemVirt : ℕ} {s : Board P Fd}

end OneLoad

section OneLoad

/-- The system with the ranges mapped. -/
def mapped (k : Kernel IdealMem) : System Unit ℕ IdealMem :=
  ⟨carveRun threeRanges, fun _ => none, doorbellInit zeroRing, k, []⟩

end OneLoad

end JanusRT.Loading
