import JanusRT.Mailbox
import JanusRT.Mmu

/-!
# The Linux module

The file operations of `rtmain.c` that carve the code window into mappings and turn
scheduling requests into ring records. What Linux decides is an argument: whether an
allocation, a copy or a remapping succeeds, and which VMA it passes.
-/
namespace JanusRT

def enomem : ℤ := 12
def efault : ℤ := 14
def einval : ℤ := 22

/-- `rtcore_ctx_t`. -/
structure RtcoreCtx where
  userBase : ℕ
  userLen : ℕ
  physBase : ℕ
  firstOff : ℕ
  mapped : Bool
  deriving DecidableEq, Repr

/-- A VMA as Linux passes it: not empty, page-aligned and in the lower half of the address
space, where user mappings lie. -/
structure Vma where
  vmStart : ℕ
  vmEnd : ℕ
  nonempty : vmStart < vmEnd
  user : vmEnd ≤ 2 ^ 63
  startAligned : vmStart % 4096 = 0
  endAligned : vmEnd % 4096 = 0

/-- `G_MEM_OFF` and the `private_data` of every open file. -/
structure Rtcore (Fd : Type) where
  memOff : ℕ
  ctx : Fd → Option RtcoreCtx

variable {Fd : Type} [DecidableEq Fd]

/-- The module as loaded. -/
def rtcoreInit : Rtcore Fd := ⟨0, fun _ => none⟩

def rtcoreOpen (m : Rtcore Fd) (fd : Fd) (kzallocOk : Bool) : ℤ × Rtcore Fd :=
  if kzallocOk then (0, { m with ctx := Function.update m.ctx fd (some ⟨0, 0, 0, 0, false⟩) })
  else (-enomem, m)

def rtcoreRelease (m : Rtcore Fd) (fd : Fd) : ℤ × Rtcore Fd :=
  (0, { m with ctx := Function.update m.ctx fd none })

/-- A file that is not open cannot be mapped, so without a context nothing happens. -/
def rtcoreMmap (m : Rtcore Fd) (fd : Fd) (vma : Vma) (remapOk : Bool) : ℤ × Rtcore Fd :=
  match m.ctx fd with
  | none => (0, m)
  | some _ =>
    let size := vma.vmEnd - vma.vmStart
    let sz := (m.memOff + size) % u64
    if jrtCodeSize < sz then (-einval, m)
    else
      let physStartUnaligned := (code0 + m.memOff) % u64
      let firstOff := physStartUnaligned &&& (pageSize - 1)
      let physBase := physStartUnaligned &&& pageMask
      if remapOk = false then (-eagain, m)
      else
        (0, { memOff := (m.memOff + size) % u64
              ctx := Function.update m.ctx fd
                (some ⟨vma.vmStart, size, physBase, firstOff, true⟩) })

/-- `sched_prog_args_t`. -/
structure SchedProgArgs where
  entryUser : ℕ
  memReq : ℕ
  deriving DecidableEq, Repr

/-- The address translation of `rtcore_sched_prog` and `rtcore_start_cpu`. -/
def entryPhys (c : RtcoreCtx) (entryUser : ℕ) : ℕ := (c.physBase + (entryUser - c.userBase)) % u64

/-- Their bounds check. -/
def outsideMapping (c : RtcoreCtx) (entryUser : ℕ) : Prop :=
  entryUser < c.userBase ∨ (c.userBase + c.userLen) % u64 ≤ entryUser

instance (c : RtcoreCtx) (entryUser : ℕ) : Decidable (outsideMapping c entryUser) :=
  inferInstanceAs (Decidable (_ ∨ _))

/-- Their clamp, with the message "outside JRT region". -/
def outsideWindow (entryPhys : ℕ) : Prop := entryPhys < code0 ∨ code0 + jrtCodeSize ≤ entryPhys

instance (entryPhys : ℕ) : Decidable (outsideWindow entryPhys) :=
  inferInstanceAs (Decidable (_ ∨ _))

/-- The record `rtcore_sched_prog` pushes, or its error. A failed `copy_from_user` is
an absent argument. -/
def rtcoreSchedProg (m : Rtcore Fd) (fd : Fd) (args : Option SchedProgArgs) :
    Except ℤ SchedReq :=
  match args with
  | none => .error (-efault)
  | some args =>
    match m.ctx fd with
    | none => .error (-einval)
    | some c =>
      if c.mapped = false then .error (-einval)
      else if outsideMapping c args.entryUser then .error (-efault)
      else if entryPhys c args.entryUser &&& 0x3 ≠ 0 then .error (-einval)
      else if outsideWindow (entryPhys c args.entryUser) then .error (-einval)
      else .ok
        { pc := entryPhys c args.entryUser
          progSize := c.userLen - (args.entryUser - c.userBase)
          memReq := args.memReq }

/-- The calls that change the module's state. -/
inductive FileOp (Fd : Type)
  | openFile (fd : Fd) (kzallocOk : Bool)
  | release (fd : Fd)
  | mmap (fd : Fd) (vma : Vma) (remapOk : Bool)

def rtcoreStep (m : Rtcore Fd) : FileOp Fd → Rtcore Fd
  | .openFile fd ok => (rtcoreOpen m fd ok).2
  | .release fd => (rtcoreRelease m fd).2
  | .mmap fd vma ok => (rtcoreMmap m fd vma ok).2

def rtcoreRun (ops : List (FileOp Fd)) : Rtcore Fd := ops.foldl rtcoreStep rtcoreInit

/-- A recorded mapping lies page-aligned inside the part of the code window that has
been given out. -/
structure CtxOk (memOff : ℕ) (c : RtcoreCtx) : Prop where
  aligned : c.physBase % 4096 = 0
  ge : code0 ≤ c.physBase
  le : c.physBase + c.userLen ≤ code0 + memOff
  user : c.userBase + c.userLen ≤ 2 ^ 63

theorem CtxOk.userEnd {off : ℕ} {c : RtcoreCtx} (hok : CtxOk off c) :
    (c.userBase + c.userLen) % u64 = c.userBase + c.userLen := by
  have huser := hok.user
  exact Nat.mod_eq_of_lt (by unfold u64; omega)

/-- Inside a recorded mapping the translation does not wrap. -/
theorem CtxOk.translate {off : ℕ} {c : RtcoreCtx} (hok : CtxOk off c) (hoff : off ≤ jrtCodeSize)
    {entryUser : ℕ} (hlt : entryUser < c.userBase + c.userLen) :
    (c.physBase + (entryUser - c.userBase)) % u64 = c.physBase + (entryUser - c.userBase) := by
  have hcode : code0 = 0x50000000 ∧ jrtCodeSize = 0x1000000 := ⟨rfl, rfl⟩
  have hle := hok.le
  have huser := hok.user
  exact Nat.mod_eq_of_lt (by unfold u64; omega)

theorem entryPhys_eq {off : ℕ} {c : RtcoreCtx} (hok : CtxOk off c) (hoff : off ≤ jrtCodeSize)
    {entryUser : ℕ} (hin : ¬outsideMapping c entryUser) :
    c.userBase ≤ entryUser ∧ entryUser < c.userBase + c.userLen ∧
      entryPhys c entryUser = c.physBase + (entryUser - c.userBase) := by
  rw [outsideMapping, hok.userEnd, not_or, not_lt, not_le] at hin
  exact ⟨hin.1, hin.2, hok.translate hoff hin.2⟩

structure RtcoreInv (m : Rtcore Fd) : Prop where
  aligned : m.memOff % 4096 = 0
  le : m.memOff ≤ jrtCodeSize
  ctx : ∀ fd c, m.ctx fd = some c → c.mapped = true → CtxOk m.memOff c

omit [DecidableEq Fd] in
theorem rtcoreInit_inv : RtcoreInv (rtcoreInit : Rtcore Fd) := ⟨rfl, Nat.zero_le _, nofun⟩

omit [DecidableEq Fd] in
/-- The cursor does not leave the address space. -/
theorem RtcoreInv.physStart {m : Rtcore Fd} (h : RtcoreInv m) :
    (code0 + m.memOff) % u64 = code0 + m.memOff := by
  have hcode : code0 = 0x50000000 ∧ jrtCodeSize = 0x1000000 := ⟨rfl, rfl⟩
  have hle := h.le
  exact Nat.mod_eq_of_lt (by unfold u64; omega)

omit [DecidableEq Fd] in
theorem RtcoreInv.physBase {m : Rtcore Fd} (h : RtcoreInv m) :
    code0 + m.memOff &&& pageMask = code0 + m.memOff := by
  have hcode : code0 = 0x50000000 ∧ jrtCodeSize = 0x1000000 := ⟨rfl, rfl⟩
  have hle := h.le
  have hoff := h.aligned
  rw [pageMask, Masks.and_field, Nat.mod_eq_of_lt (by omega)]
  omega

omit [DecidableEq Fd] in
theorem RtcoreInv.firstOff {m : Rtcore Fd} (h : RtcoreInv m) :
    code0 + m.memOff &&& (pageSize - 1) = 0 := by
  have hcode : code0 = 0x50000000 := rfl
  have hmask : pageSize - 1 = 2 ^ 12 - 1 := rfl
  have hoff := h.aligned
  rw [hmask, Nat.and_two_pow_sub_one_eq_mod]
  omega

/-- A call of `rtcore_mmap` fails without a trace, or maps the range above the cursor and
records it. -/
theorem rtcoreMmap_cases {m : Rtcore Fd} (h : RtcoreInv m) (fd : Fd) (vma : Vma) (ok : Bool) :
    ((rtcoreMmap m fd vma ok).2 = m ∧ ((m.ctx fd).isSome → (rtcoreMmap m fd vma ok).1 ≠ 0)) ∨
      ((m.ctx fd).isSome ∧ (rtcoreMmap m fd vma ok).1 = 0 ∧
        m.memOff + (vma.vmEnd - vma.vmStart) ≤ jrtCodeSize ∧
        (rtcoreMmap m fd vma ok).2 =
          { memOff := m.memOff + (vma.vmEnd - vma.vmStart)
            ctx := Function.update m.ctx fd
              (some ⟨vma.vmStart, vma.vmEnd - vma.vmStart, code0 + m.memOff, 0, true⟩) }) := by
  have hsize : jrtCodeSize = 0x1000000 := rfl
  have huser := vma.user
  have hle := h.le
  have hsz : (m.memOff + (vma.vmEnd - vma.vmStart)) % u64 = m.memOff + (vma.vmEnd - vma.vmStart) :=
    Nat.mod_eq_of_lt (by unfold u64; omega)
  unfold rtcoreMmap
  cases hc : m.ctx fd with
  | none => exact Or.inl ⟨rfl, fun hs => absurd hs (by simp)⟩
  | some c =>
    simp only [hsz, h.physStart, h.physBase, h.firstOff]
    split_ifs with hbig hremap
    · exact Or.inl ⟨rfl, fun _ => by simp [einval]⟩
    · exact Or.inl ⟨rfl, fun _ => by simp [eagain]⟩
    · exact Or.inr ⟨by simp, rfl, Nat.not_lt.mp hbig, rfl⟩

theorem rtcoreMmap_inv {m : Rtcore Fd} (h : RtcoreInv m) (fd : Fd) (vma : Vma) (ok : Bool) :
    RtcoreInv (rtcoreMmap m fd vma ok).2 := by
  have hcode : code0 = 0x50000000 := rfl
  have hoff := h.aligned
  obtain ⟨hsame, -⟩ | ⟨-, -, hfits, hnext⟩ := rtcoreMmap_cases h fd vma ok
  · rw [hsame]
    exact h
  · have hlt := vma.nonempty
    have huser := vma.user
    have hs := vma.startAligned
    have he := vma.endAligned
    rw [hnext]
    refine ⟨by dsimp only; omega, hfits, ?_⟩
    intro fd' c' hc' hm'
    by_cases hfd : fd' = fd
    · subst fd'
      simp only [Function.update_self, Option.some.injEq] at hc'
      subst c'
      refine ⟨?_, ?_, ?_, ?_⟩ <;> dsimp only <;> omega
    · simp only [Function.update_of_ne hfd] at hc'
      obtain ⟨h1, h2, h3, h4⟩ := h.ctx fd' c' hc' hm'
      exact ⟨h1, h2, by dsimp only; omega, h4⟩

theorem rtcoreStep_inv {m : Rtcore Fd} (h : RtcoreInv m) (op : FileOp Fd) :
    RtcoreInv (rtcoreStep m op) := by
  cases op with
  | openFile fd ok =>
    simp only [rtcoreStep, rtcoreOpen]
    split_ifs
    · refine ⟨h.aligned, h.le, ?_⟩
      intro fd' c hc hm
      by_cases hfd : fd' = fd
      · subst fd'
        simp only [Function.update_self, Option.some.injEq] at hc
        subst c
        cases hm
      · simp only [Function.update_of_ne hfd] at hc
        exact h.ctx fd' c hc hm
    · exact h
  | release fd =>
    refine ⟨h.aligned, h.le, ?_⟩
    intro fd' c hc hm
    by_cases hfd : fd' = fd
    · subst fd'
      simp only [rtcoreStep, rtcoreRelease, Function.update_self] at hc
      cases hc
    · simp only [rtcoreStep, rtcoreRelease, Function.update_of_ne hfd] at hc
      exact h.ctx fd' c hc hm
  | mmap fd vma ok => exact rtcoreMmap_inv h fd vma ok

theorem rtcoreRun_inv (ops : List (FileOp Fd)) : RtcoreInv (rtcoreRun ops) := by
  unfold rtcoreRun
  generalize hm : (rtcoreInit : Rtcore Fd) = m
  have h : RtcoreInv m := hm ▸ rtcoreInit_inv
  clear hm
  induction ops generalizing m with
  | nil => exact h
  | cons op ops ih => exact ih _ (rtcoreStep_inv h op)

omit [DecidableEq Fd] in
/-- What an accepted request carries. -/
theorem rtcoreSchedProg_ok {m : Rtcore Fd} (h : RtcoreInv m) {fd : Fd} {args : SchedProgArgs}
    {req : SchedReq} (hreq : rtcoreSchedProg m fd (some args) = .ok req) :
    ∃ c, m.ctx fd = some c ∧ CtxOk m.memOff c ∧ c.mapped = true ∧ c.userBase ≤ args.entryUser ∧
      req.pc = c.physBase + (args.entryUser - c.userBase) ∧ 0 < req.progSize ∧
      req.pc + req.progSize = c.physBase + c.userLen ∧ req.memReq = args.memReq := by
  unfold rtcoreSchedProg at hreq
  cases hc : m.ctx fd with
  | none =>
    rw [hc] at hreq
    cases hreq
  | some c =>
    rw [hc] at hreq
    dsimp only at hreq
    split_ifs at hreq with hmap hin hal hwin
    have hmapped := Bool.eq_true_of_not_eq_false hmap
    have hok := h.ctx fd c hc hmapped
    obtain ⟨hge, hlt, heq⟩ := entryPhys_eq hok h.le hin
    obtain rfl := Except.ok.inj hreq
    rw [heq]
    refine ⟨c, rfl, hok, hmapped, hge, rfl, ?_, ?_, rfl⟩ <;> dsimp only <;> omega

end JanusRT
