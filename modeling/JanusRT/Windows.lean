import JanusRT.Rtcore

/-!
# Carving the code window

Which physical ranges `rtcore_mmap` hands out, over any sequence of file operations. The
cursor only moves up, so the ranges never meet; a request is translated with the last
mapping of its file and stays inside it, so that the clamp to the reserved window, which
both request paths repeat, has nothing left to refuse.
-/
namespace JanusRT

variable {Fd : Type} [DecidableEq Fd]

/-- `start_cpu_args_t`. -/
structure StartCpuArgs where
  entryUser : ℕ
  coreId : ℕ
  deriving DecidableEq, Repr

/-- What `rtcore_start_cpu` passes on: the core, its entry point and the number of bytes
whose instruction cache is synchronised. -/
structure StartCpuReq where
  coreId : ℕ
  entryPhys : ℕ
  len : ℕ
  deriving DecidableEq, Repr

def rtcoreStartCpu (m : Rtcore Fd) (fd : Fd) (args : Option StartCpuArgs) :
    Except ℤ StartCpuReq :=
  match args with
  | none => .error (-efault)
  | some args =>
    match m.ctx fd with
    | none => .error (-einval)
    | some c =>
      if c.mapped = false then .error (-einval)
      else if outsideMapping c args.entryUser then .error (-efault)
      else if entryPhys c args.entryUser &&& 0x3 ≠ 0 then .error (-einval)
      else if outsideWindow (entryPhys c args.entryUser) then .error (-einval)
      else .ok ⟨args.coreId, entryPhys c args.entryUser,
        c.userLen - (args.entryUser - c.userBase)⟩

/-- A physical range. -/
structure Range where
  start : ℕ
  len : ℕ
  deriving DecidableEq, Repr

/-- No address lies in both ranges. -/
def Range.Disjoint (r s : Range) : Prop := r.start + r.len ≤ s.start ∨ s.start + s.len ≤ r.start

/-- The frames that `remap_pfn_range` is asked to map. -/
def remapped (m : Rtcore Fd) (vma : Vma) : Range :=
  ⟨(code0 + m.memOff) % u64 &&& pageMask, vma.vmEnd - vma.vmStart⟩

/-- The module with a record of its past: all ranges handed out, and the last one of every
open file. -/
structure Carving (Fd : Type) where
  mod : Rtcore Fd
  handed : List Range
  latest : Fd → Option Range

def carveStep (t : Carving Fd) (op : FileOp Fd) : Carving Fd :=
  match op with
  | .openFile fd ok =>
    ⟨rtcoreStep t.mod op, t.handed, if ok then Function.update t.latest fd none else t.latest⟩
  | .release fd => ⟨rtcoreStep t.mod op, t.handed, Function.update t.latest fd none⟩
  | .mmap fd vma ok =>
    if (t.mod.ctx fd).isSome ∧ (rtcoreMmap t.mod fd vma ok).1 = 0 then
      ⟨rtcoreStep t.mod op, t.handed ++ [remapped t.mod vma],
        Function.update t.latest fd (some (remapped t.mod vma))⟩
    else ⟨rtcoreStep t.mod op, t.handed, t.latest⟩

def carveRun (ops : List (FileOp Fd)) : Carving Fd :=
  ops.foldl carveStep ⟨rtcoreInit, [], fun _ => none⟩

/-- The ranges lie one above the other below the cursor, and every mapped file has the
last of its ranges on record. -/
structure CarvingInv (t : Carving Fd) : Prop where
  mod : RtcoreInv t.mod
  apart : t.handed.Pairwise Range.Disjoint
  inside : ∀ r ∈ t.handed, code0 ≤ r.start ∧ r.start + r.len ≤ code0 + t.mod.memOff
  firstOff : ∀ fd c, t.mod.ctx fd = some c → c.firstOff = 0
  latest : ∀ fd c, t.mod.ctx fd = some c → c.mapped = true →
    t.latest fd = some ⟨c.physBase, c.userLen⟩ ∧ (⟨c.physBase, c.userLen⟩ : Range) ∈ t.handed

omit [DecidableEq Fd] in
theorem remapped_eq {m : Rtcore Fd} (h : RtcoreInv m) (vma : Vma) :
    remapped m vma = ⟨code0 + m.memOff, vma.vmEnd - vma.vmStart⟩ := by
  rw [remapped, h.physStart, h.physBase]

omit [DecidableEq Fd] in
theorem Carving.boot_inv : CarvingInv (⟨rtcoreInit, [], fun _ => none⟩ : Carving Fd) :=
  ⟨rtcoreInit_inv, List.Pairwise.nil, by simp, by simp [rtcoreInit], by simp [rtcoreInit]⟩

theorem carveStep_openFile_inv {t : Carving Fd} (h : CarvingInv t) (fd : Fd) (ok : Bool) :
    CarvingInv (carveStep t (.openFile fd ok)) := by
  have hmod := rtcoreStep_inv h.mod (.openFile fd ok)
  cases ok with
  | false => exact ⟨hmod, h.apart, h.inside, h.firstOff, h.latest⟩
  | true =>
    refine ⟨hmod, h.apart, h.inside, ?_, ?_⟩
    · intro fd' c hc
      by_cases hfd : fd' = fd
      · subst fd'
        simp only [carveStep, rtcoreStep, rtcoreOpen, if_true, Function.update_self,
          Option.some.injEq] at hc
        subst c
        rfl
      · simp only [carveStep, rtcoreStep, rtcoreOpen, if_true, Function.update_of_ne hfd] at hc
        exact h.firstOff fd' c hc
    · intro fd' c hc hm
      by_cases hfd : fd' = fd
      · subst fd'
        simp only [carveStep, rtcoreStep, rtcoreOpen, if_true, Function.update_self,
          Option.some.injEq] at hc
        subst c
        cases hm
      · simp only [carveStep, rtcoreStep, rtcoreOpen, if_true, Function.update_of_ne hfd] at hc ⊢
        exact h.latest fd' c hc hm

theorem carveStep_release_inv {t : Carving Fd} (h : CarvingInv t) (fd : Fd) :
    CarvingInv (carveStep t (.release fd)) := by
  have hctx : ∀ fd' c, (carveStep t (.release fd)).mod.ctx fd' = some c →
      fd' ≠ fd ∧ t.mod.ctx fd' = some c := by
    intro fd' c hc
    by_cases hfd : fd' = fd
    · subst fd'
      simp only [carveStep, rtcoreStep, rtcoreRelease, Function.update_self] at hc
      cases hc
    · simp only [carveStep, rtcoreStep, rtcoreRelease, Function.update_of_ne hfd] at hc
      exact ⟨hfd, hc⟩
  refine ⟨rtcoreStep_inv h.mod (.release fd), h.apart, h.inside, ?_, ?_⟩
  · intro fd' c hc
    exact h.firstOff fd' c (hctx fd' c hc).2
  · intro fd' c hc hm
    obtain ⟨hfd, hc'⟩ := hctx fd' c hc
    simp only [carveStep, Function.update_of_ne hfd]
    exact h.latest fd' c hc' hm

/-- The new range starts where all earlier ones have ended. -/
theorem carveStep_mmap_inv {t : Carving Fd} (h : CarvingInv t) (fd : Fd) (vma : Vma) (ok : Bool) :
    CarvingInv (carveStep t (.mmap fd vma ok)) := by
  have hmod := rtcoreStep_inv h.mod (.mmap fd vma ok)
  have hrange := remapped_eq h.mod vma
  obtain ⟨hsame, hfail⟩ | ⟨hsome, hzero, -, hnext⟩ := rtcoreMmap_cases h.mod fd vma ok
  · have hcond : ¬((t.mod.ctx fd).isSome ∧ (rtcoreMmap t.mod fd vma ok).1 = 0) :=
      fun hc => hfail hc.1 hc.2
    simp only [carveStep, if_neg hcond, rtcoreStep, hsame]
    exact ⟨h.mod, h.apart, h.inside, h.firstOff, h.latest⟩
  · simp only [carveStep, if_pos (And.intro hsome hzero), rtcoreStep, hnext, hrange] at hmod ⊢
    refine ⟨hmod, ?_, ?_, ?_, ?_⟩
    · refine List.pairwise_append.mpr ⟨h.apart, List.pairwise_singleton _ _, ?_⟩
      intro r hr s hs
      obtain rfl := List.mem_singleton.mp hs
      exact Or.inl (h.inside r hr).2
    · intro r hr
      dsimp only
      obtain hr | hr := List.mem_append.mp hr
      · have := h.inside r hr
        omega
      · obtain rfl := List.mem_singleton.mp hr
        dsimp only
        omega
    · intro fd' c hc
      by_cases hfd : fd' = fd
      · subst fd'
        simp only [Function.update_self, Option.some.injEq] at hc
        subst c
        rfl
      · simp only [Function.update_of_ne hfd] at hc
        exact h.firstOff fd' c hc
    · intro fd' c hc hm
      by_cases hfd : fd' = fd
      · subst fd'
        simp only [Function.update_self, Option.some.injEq] at hc
        subst c
        simp
      · simp only [Function.update_of_ne hfd] at hc ⊢
        obtain ⟨hlast, hmem⟩ := h.latest fd' c hc hm
        exact ⟨hlast, List.mem_append_left _ hmem⟩

theorem carveStep_inv {t : Carving Fd} (h : CarvingInv t) (op : FileOp Fd) :
    CarvingInv (carveStep t op) := by
  cases op with
  | openFile fd ok => exact carveStep_openFile_inv h fd ok
  | release fd => exact carveStep_release_inv h fd
  | mmap fd vma ok => exact carveStep_mmap_inv h fd vma ok

theorem carveRun_inv (ops : List (FileOp Fd)) : CarvingInv (carveRun ops) := by
  unfold carveRun
  generalize ht : (⟨rtcoreInit, [], fun _ => none⟩ : Carving Fd) = t
  have h : CarvingInv t := ht ▸ Carving.boot_inv
  clear ht
  induction ops generalizing t with
  | nil => exact h
  | cons op ops ih => exact ih _ (carveStep_inv h op)

theorem CtxOk.not_outsideWindow {off : ℕ} {c : RtcoreCtx} (hok : CtxOk off c)
    (hoff : off ≤ jrtCodeSize) {entryUser : ℕ} (hin : ¬outsideMapping c entryUser) :
    ¬outsideWindow (entryPhys c entryUser) := by
  obtain ⟨hge, hlt, heq⟩ := entryPhys_eq hok hoff hin
  have h1 := hok.ge
  have h2 := hok.le
  unfold outsideWindow
  omega

omit [DecidableEq Fd] in
/-- What an accepted start request carries. -/
theorem rtcoreStartCpu_ok {m : Rtcore Fd} (h : RtcoreInv m) {fd : Fd} {args : StartCpuArgs}
    {req : StartCpuReq} (hreq : rtcoreStartCpu m fd (some args) = .ok req) :
    ∃ c, m.ctx fd = some c ∧ c.mapped = true ∧ c.physBase ≤ req.entryPhys ∧
      req.entryPhys + req.len = c.physBase + c.userLen := by
  unfold rtcoreStartCpu at hreq
  cases hc : m.ctx fd with
  | none =>
    rw [hc] at hreq
    cases hreq
  | some c =>
    rw [hc] at hreq
    dsimp only at hreq
    split_ifs at hreq with hmap hin hal hwin
    have hmapped := Bool.eq_true_of_not_eq_false hmap
    obtain ⟨hge, hlt, heq⟩ := entryPhys_eq (h.ctx fd c hc hmapped) h.le hin
    obtain rfl := Except.ok.inj hreq
    refine ⟨c, rfl, hmapped, ?_, ?_⟩ <;> dsimp only <;> omega

/-- The code window as carved so far. -/
structure Carved (t : Carving Fd) : Prop where
  apart : t.handed.Pairwise Range.Disjoint
  inside : ∀ r ∈ t.handed, code0 ≤ r.start ∧ r.start + r.len ≤ code0 + jrtCodeSize
  failed : ∀ fd vma ok, (rtcoreMmap t.mod fd vma ok).1 ≠ 0 → (rtcoreMmap t.mod fd vma ok).2 = t.mod
  firstOff : ∀ fd c, t.mod.ctx fd = some c → c.firstOff = 0
  schedProg : ∀ fd args req, rtcoreSchedProg t.mod fd args = .ok req →
    ∃ r ∈ t.handed, t.latest fd = some r ∧ r.start ≤ req.pc ∧
      req.pc + req.progSize ≤ r.start + r.len
  startCpu : ∀ fd args req, rtcoreStartCpu t.mod fd args = .ok req →
    ∃ r ∈ t.handed, t.latest fd = some r ∧ r.start ≤ req.entryPhys ∧
      req.entryPhys + req.len ≤ r.start + r.len
  clamp : ∀ fd c entryUser, t.mod.ctx fd = some c → c.mapped = true →
    ¬outsideMapping c entryUser → ¬outsideWindow (entryPhys c entryUser)

/-- Whatever is opened, mapped and closed in whatever order, the code window is carved into
separate ranges and every accepted request stays in the last range of its file. -/
theorem carveRun_carved (ops : List (FileOp Fd)) : Carved (carveRun ops) := by
  have h := carveRun_inv ops
  have hle := h.mod.le
  refine ⟨h.apart, ?_, ?_, h.firstOff, ?_, ?_, ?_⟩
  · intro r hr
    have := h.inside r hr
    omega
  · intro fd vma ok hfail
    obtain ⟨hsame, -⟩ | ⟨-, hzero, -⟩ := rtcoreMmap_cases h.mod fd vma ok
    · exact hsame
    · exact absurd hzero hfail
  · intro fd args req hreq
    cases args with
    | none => cases hreq
    | some args =>
      obtain ⟨c, hc, -, hmapped, hge, hpc, -, hlen, -⟩ := rtcoreSchedProg_ok h.mod hreq
      obtain ⟨hlast, hmem⟩ := h.latest fd c hc hmapped
      refine ⟨_, hmem, hlast, ?_, ?_⟩ <;> dsimp only <;> omega
  · intro fd args req hreq
    cases args with
    | none => cases hreq
    | some args =>
      obtain ⟨c, hc, hmapped, hge, hlen⟩ := rtcoreStartCpu_ok h.mod hreq
      obtain ⟨hlast, hmem⟩ := h.latest fd c hc hmapped
      exact ⟨_, hmem, hlast, hge, hlen.le⟩
  · intro fd c entryUser hc hmapped hin
    exact (h.mod.ctx fd c hc hmapped).not_outsideWindow hle hin

end JanusRT
