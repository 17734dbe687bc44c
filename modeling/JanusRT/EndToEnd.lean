import JanusRT.Doorbell
import JanusRT.Translations
import JanusRT.Windows

/-!
# From a mapping to a process

The module, the ring and the kernel together. Linux threads map parts of the code window and send
requests, each access to the ring is a step of its own, and the kernel takes the interrupt, pops and
runs its other handlers in between. What comes out is a run of the scheduler in which every process
executes what some file was given.
-/
namespace JanusRT.EndToEnd
open Heap Outcome

variable {P Fd M : Type} [DecidableEq P] [DecidableEq Fd] (pf : Platform M)

/-! ## The whole -/

/-- A thread that has had its request accepted waits for `sched_lock` with it. `log` is the history
of the kernel. -/
structure System (P Fd M : Type) where
  linux : Carving Fd
  waiting : P → Option SchedReq
  bell : Doorbell P SchedReq
  kernel : Kernel M
  log : List Event

/-- A file operation, the checks of `rtcore_sched_prog`, its lock, its accesses to the ring and the
interrupt controller, the interrupt, a step of `ipc_sched`, or another handler of the kernel. -/
inductive SystemStep (P Fd : Type)
  | file (op : FileOp Fd)
  | schedProg (p : P) (fd : Fd) (args : Option SchedProgArgs)
  | lock (p : P)
  | sender (p : P)
  | takeSpi
  | ipcSched
  | handler (e : Event)

/-- The call of `schedule_req` for a record. -/
def reqEvent (x : SchedReq) : Event := .scheduleReq x.pc x.progSize x.memReq

/-- The record of a `schedule_req`. -/
def eventReq : Event → Option SchedReq
  | .scheduleReq pc progSize memReq => some ⟨pc, progSize, memReq⟩
  | _ => none

/-- The record that the next step of `ipc_sched` gets. -/
def popped (d : Doorbell P SchedReq) : Option SchedReq :=
  if d.ipcSched = none then none else (receiverStep d.mbox).2.join

/-- The kernel handles an event. -/
def System.handle (s : System P Fd M) (e : Event) : Except Stop (System P Fd M) := do
  let k ← step pf s.kernel e
  pure { s with kernel := k, log := s.log ++ [e] }

def systemStep (s : System P Fd M) : SystemStep P Fd → Except Stop (System P Fd M)
  | .file op => pure { s with linux := carveStep s.linux op }
  | .schedProg p fd args =>
    match s.waiting p, s.bell.mbox.sender p, rtcoreSchedProg s.linux.mod fd args with
    | none, .idle, .ok req => pure { s with waiting := Function.update s.waiting p (some req) }
    | _, _, _ => pure s
  | .lock p =>
    match s.waiting p, s.bell.mbox.schedLock with
    | some req, none => pure { s with
        bell := doorbellStep s.bell (.lock p req)
        waiting := Function.update s.waiting p none }
    | _, _ => pure s
  | .sender p => pure { s with bell := doorbellStep s.bell (.sender p) }
  | .takeSpi => pure { s with bell := doorbellStep s.bell .takeSpi }
  | .ipcSched =>
    match popped s.bell with
    | none => pure { s with bell := doorbellStep s.bell .ipcSched }
    | some x => { s with bell := doorbellStep s.bell .ipcSched }.handle pf (reqEvent x)
  | .handler e => if s.bell.ipcSched = none ∧ eventReq e = none then s.handle pf e else pure s

def systemBoot (r : MpscRing SchedReq) (mem : M) : Except Stop (System P Fd M) := do
  let k ← schedInit pf mem
  pure ⟨⟨rtcoreInit, [], fun _ => none⟩, fun _ => none, doorbellInit r, k, []⟩

def systemRun (r : MpscRing SchedReq) (mem : M) (ss : List (SystemStep P Fd)) :
    Except Stop (System P Fd M) := do
  let s ← systemBoot pf r mem
  ss.foldlM (systemStep pf) s

/-! ## What holds throughout -/

/-- A request for the end of a range that some file was given. -/
def Within (handed : List Range) (x : SchedReq) : Prop :=
  ∃ r ∈ handed, r.start ≤ x.pc ∧ x.pc + x.progSize = r.start + r.len ∧ 0 < x.progSize

/-- The image of a process is the end of such a range. The kernel process has none, and neither
has what it spawns. -/
def ImageWithin (handed : List Range) (q : Proc) : Prop :=
  (q.paPc = 0 ∧ q.progSize = 0) ∨
    ∃ r ∈ handed, r.start ≤ q.paPc ∧ q.paPc + q.progSize = r.start + r.len ∧ 0 < q.progSize

/-- The request of a running `mpsc_push`. -/
def pushReq : PushPc SchedReq → SchedReq
  | .claim req => req
  | .spin req _ => req
  | .copy req _ => req
  | .publish req _ => req

/-- The request a sender is busy with. -/
def sending : SenderPc SchedReq → Option SchedReq
  | .pushing pc => some (pushReq pc)
  | _ => none

/-- The ranges handed out are whole pages. -/
def Pages (handed : List Range) : Prop := ∀ r ∈ handed, r.start % 4096 = 0 ∧ r.len % 4096 = 0

def ImagesWithin (handed : List Range) (k : Kernel M) : Prop :=
  ∀ r, r = .p0 ∨ r ∈ liveProcs k.sched → ImageWithin handed (k.sched.proc r)

structure SystemInv (mem : M) (s : System P Fd M) : Prop where
  carving : CarvingInv s.linux
  pages : Pages s.linux.handed
  bell : DoorbellInv s.bell
  ran : run pf mem s.log = .ok s.kernel
  requests : s.log.filterMap eventReq = s.bell.mbox.returned
  waiting : ∀ p req, s.waiting p = some req → Within s.linux.handed req
  sending : ∀ p req, sending (s.bell.mbox.sender p) = some req → Within s.linux.handed req
  pushed : ∀ req ∈ s.bell.mbox.pushed, Within s.linux.handed req
  images : ImagesWithin s.linux.handed s.kernel

/-! ## The module -/

section Module
variable {handed handed' : List Range} {t : Carving Fd}

theorem Within.mono {x : SchedReq} (h : Within handed x) (hsub : handed ⊆ handed') :
    Within handed' x := by
  obtain ⟨r, hr, hx⟩ := h
  exact ⟨r, hsub hr, hx⟩

theorem ImageWithin.mono {q : Proc} (h : ImageWithin handed q) (hsub : handed ⊆ handed') :
    ImageWithin handed' q := by
  obtain hz | ⟨r, hr, hq⟩ := h
  · exact Or.inl hz
  · exact Or.inr ⟨r, hsub hr, hq⟩

theorem ImageWithin.congr {q q' : Proc} (h : ImageWithin handed q) (hs : SameImage q q') :
    ImageWithin handed q' := by
  unfold ImageWithin
  rw [hs.start, hs.size]
  exact h

/-- Ranges are only added, and they are whole pages. -/
theorem carveStep_handed (h : CarvingInv t) (hp : Pages t.handed) (op : FileOp Fd) :
    t.handed ⊆ (carveStep t op).handed ∧ Pages (carveStep t op).handed := by
  cases op with
  | openFile fd ok => exact ⟨List.Subset.refl _, hp⟩
  | release fd => exact ⟨List.Subset.refl _, hp⟩
  | mmap fd vma ok =>
    simp only [carveStep]
    split_ifs
    · refine ⟨List.subset_append_left _ _, ?_⟩
      intro r hr
      obtain hr | hr := List.mem_append.mp hr
      · exact hp r hr
      · obtain rfl := List.mem_singleton.mp hr
        have hcode : code0 = 0x50000000 := rfl
        have hoff := h.mod.aligned
        have hstart := vma.startAligned
        have hend := vma.endAligned
        rw [remapped_eq h.mod vma]
        constructor <;> dsimp only <;> omega
    · exact ⟨List.Subset.refl _, hp⟩

omit [DecidableEq Fd] in
/-- What the checks of `rtcore_sched_prog` let through. -/
theorem schedProg_within (h : CarvingInv t) {fd : Fd} {args : Option SchedProgArgs} {req : SchedReq}
    (hreq : rtcoreSchedProg t.mod fd args = .ok req) : Within t.handed req := by
  cases args with
  | none => cases hreq
  | some args =>
    obtain ⟨c, hc, -, hmapped, hge, hpc, hpos, hend, -⟩ := rtcoreSchedProg_ok h.mod hreq
    obtain ⟨-, hmem⟩ := h.latest fd c hc hmapped
    refine ⟨_, hmem, ?_, hend, hpos⟩
    dsimp only
    omega

end Module

/-! ## The ring -/

section Ring
variable {m : Mailbox P SchedReq}

theorem mutexLock_returned (m : Mailbox P SchedReq) (p : P) (req : SchedReq) :
    (mutexLock m p req).returned = m.returned ∧ (mutexLock m p req).pushed = m.pushed := by
  unfold mutexLock
  split_ifs <;> exact ⟨rfl, rfl⟩

/-- The thread that gets the lock brings its own request. -/
theorem mutexLock_sending (m : Mailbox P SchedReq) (p : P) (req : SchedReq) {q : P} {x : SchedReq}
    (hx : sending ((mutexLock m p req).sender q) = some x) :
    x = req ∨ sending (m.sender q) = some x := by
  unfold mutexLock at hx
  split_ifs at hx with hfree
  · by_cases hq : q = p
    · subst hq
      simp only [Mailbox.setSender, Function.update_self, sending, pushReq, Option.some.injEq] at hx
      exact Or.inl hx.symm
    · simp only [Mailbox.setSender, Function.update_of_ne hq] at hx
      exact Or.inr hx
  · exact Or.inr hx

omit [DecidableEq P] in
theorem mpscPush_sending (r : MpscRing SchedReq) (pc : PushPc SchedReq) {x : SchedReq}
    (hx : sending ((mpscPush false r pc).2.elim .pushing fun _ => .pend) = some x) :
    x = pushReq pc := by
  cases pc with
  | claim req =>
    simp only [mpscPush, Sum.elim_inl, sending, pushReq, Option.some.injEq] at hx
    exact hx.symm
  | spin req idx =>
    cases hf : r.flags idx with
    | false =>
      simp only [mpscPush, hf, Bool.false_eq_true, if_false, Sum.elim_inl, sending, pushReq,
        Option.some.injEq] at hx
      exact hx.symm
    | true =>
      simp only [mpscPush, hf, Bool.false_eq_true, if_true, if_false, Sum.elim_inl, sending, pushReq,
        Option.some.injEq] at hx
      exact hx.symm
  | copy req idx =>
    simp only [mpscPush, Sum.elim_inl, sending, pushReq, Option.some.injEq] at hx
    exact hx.symm
  | publish req idx => cases hx

theorem senderStep_returned (m : Mailbox P SchedReq) (p : P) :
    (senderStep m p).returned = m.returned := by
  unfold senderStep
  split <;> rfl

/-- No step of a push changes the request it carries. -/
theorem senderStep_sending (m : Mailbox P SchedReq) (p : P) {q : P} {x : SchedReq}
    (hx : sending ((senderStep m p).sender q) = some x) : sending (m.sender q) = some x := by
  unfold senderStep at hx
  by_cases hq : q = p
  · subst hq
    split at hx
    · exact hx
    · next pc hpc =>
      simp only [Mailbox.setSender, Function.update_self] at hx
      rw [hpc, mpscPush_sending _ pc hx]
      rfl
    all_goals
      simp only [Mailbox.setSender, Function.update_self] at hx
      cases hx
  · split at hx
    · exact hx
    all_goals
      simp only [Mailbox.setSender, Function.update_of_ne hq] at hx
      exact hx

/-- What is published is the request of the thread that publishes it. -/
theorem senderStep_pushed (m : Mailbox P SchedReq) (p : P) {x : SchedReq}
    (hx : x ∈ (senderStep m p).pushed) : x ∈ m.pushed ∨ sending (m.sender p) = some x := by
  unfold senderStep at hx
  split at hx
  · exact Or.inl hx
  · next pc hpc =>
    obtain hx | hx := List.mem_append.mp hx
    · exact Or.inl hx
    · right
      rw [hpc]
      cases pc with
      | publish req idx =>
        obtain rfl := List.mem_singleton.mp hx
        rfl
      | _ => cases hx
  · exact Or.inl hx
  · exact Or.inl hx

omit [DecidableEq P] in
theorem receiverStep_returned (m : Mailbox P SchedReq) :
    (receiverStep m).1.returned = m.returned ++ (receiverStep m).2.join.toList := by
  unfold receiverStep
  cases m.receiver with
  | none => simp
  | some pc =>
    dsimp only
    cases (mpscPop m.ring pc).2 with
    | inl pc => simp
    | inr res => rfl

omit [DecidableEq P] in
/-- A step of `ipc_sched` returns the record it hands to `schedule_req`, and no other. -/
theorem ipcSchedStep_returned (d : Doorbell P SchedReq) :
    (ipcSchedStep d).mbox.returned = d.mbox.returned ++ (popped d).toList := by
  unfold ipcSchedStep popped
  cases hb : d.ipcSched with
  | none => simp
  | some budget =>
    by_cases hr : d.mbox.receiver = none
    · simp only [hr, if_true, receiverStep, reduceCtorEq, if_false, Option.join_none,
        Option.toList_none, List.append_nil]
      split_ifs
      · exact (receiverCall_frame d.mbox).2.2.2
      · rfl
    · have hret := receiverStep_returned d.mbox
      simp only [hr, if_false, reduceCtorEq]
      rw [← hret]
      cases hs : (receiverStep d.mbox).2 with
      | none => rfl
      | some res => cases res <;> rfl

end Ring

/-! ## The kernel -/

/-- What handling an event changes, for a system whose kernel has the history of its log. -/
structure Handled (mem : M) (s : System P Fd M) (e : Event) (s' : System P Fd M) : Prop where
  linux : s'.linux = s.linux
  waiting : s'.waiting = s.waiting
  bell : s'.bell = s.bell
  log : s'.log = s.log ++ [e]
  ran : run pf mem s'.log = .ok s'.kernel
  images : ImagesWithin s'.linux.handed s'.kernel

section Handle
variable {pf} {mem : M} {s s' : System P Fd M} {handed : List Range}

/-- A new process gets the image of a request or that of its parent. -/
theorem ImagesWithin.step {k k' : Kernel M} (h : ImagesWithin handed k) (hinv : KernelInv k)
    {e : Event} (hreq : ∀ x, eventReq e = some x → Within handed x) (hk : step pf k e = .ok k') :
    ImagesWithin handed k' := by
  obtain ⟨hp0, hlive⟩ := (step_live hinv e).of_ok hk
  rintro r (rfl | hr)
  · exact (h .p0 (Or.inl rfl)).congr hp0
  obtain ⟨hold, hsame⟩ | ⟨-, -, hasked⟩ := hlive r hr
  · exact (h r (Or.inr hold)).congr hsame
  cases e with
  | scheduleReq pc progSize memReq =>
    obtain ⟨range, hrange, hx⟩ := hreq ⟨pc, progSize, memReq⟩ rfl
    obtain ⟨hpc, hsize⟩ := hasked
    right
    refine ⟨range, hrange, ?_⟩
    rw [hpc, hsize]
    exact hx
  | spawn deadline ep ap memReq =>
    obtain ⟨cur, hcur, hpc, hsize⟩ := hasked
    have hparent : ImageWithin handed (k.sched.proc cur) := by
      cases cur with
      | p0 => exact h .p0 (Or.inl rfl)
      | pb i => exact h (.pb i) (Or.inr (Sched.mem_liveProcs_curr hcur))
    unfold ImageWithin
    rw [hpc, hsize]
    exact hparent
  | timerFn => exact hasked.elim
  | waitUntil u => exact hasked.elim
  | exit => exact hasked.elim

omit [DecidableEq P] [DecidableEq Fd] in
theorem handle_spec (s : System P Fd M) (hran : run pf mem s.log = .ok s.kernel)
    (himages : ImagesWithin s.linux.handed s.kernel) {e : Event}
    (hreq : ∀ x, eventReq e = some x → Within s.linux.handed x) :
    Holds Stop.IsHalt (Handled pf mem s e) (s.handle pf e) := by
  have hinv : KernelInv s.kernel := (run_inv pf mem s.log).of_ok hran
  have hstep : Holds Stop.IsHalt (fun k => step pf s.kernel e = .ok k) (step pf s.kernel e) :=
    (step_inv pf hinv e).of_value fun k hk _ => hk
  apply hstep.bind
  intro k hk
  refine ⟨rfl, rfl, rfl, rfl, ?_, himages.step hinv hreq hk⟩
  exact (run_snoc pf mem s.log e hran).trans hk

end Handle

/-! ## Steps of the system -/

section Step
variable {pf} {mem : M} {s : System P Fd M}

omit [DecidableEq P] in
theorem SystemInv.file (h : SystemInv pf mem s) (op : FileOp Fd) :
    SystemInv pf mem { s with linux := carveStep s.linux op } := by
  obtain ⟨hsub, hpages⟩ := carveStep_handed h.carving h.pages op
  refine ⟨carveStep_inv h.carving op, hpages, h.bell, h.ran, h.requests, ?_, ?_, ?_, ?_⟩
  · exact fun p req hp => (h.waiting p req hp).mono hsub
  · exact fun p req hp => (h.sending p req hp).mono hsub
  · exact fun req hreq => (h.pushed req hreq).mono hsub
  · exact fun r hr => (h.images r hr).mono hsub

theorem SystemInv.schedProg (h : SystemInv pf mem s) (p : P) (fd : Fd) (args : Option SchedProgArgs) :
    Holds Stop.IsHalt (SystemInv pf mem) (systemStep pf s (.schedProg p fd args)) := by
  simp only [systemStep]
  split
  · next req _ _ hreq =>
    refine ⟨h.carving, h.pages, h.bell, h.ran, h.requests, ?_, h.sending, h.pushed, h.images⟩
    intro q x hx
    by_cases hq : q = p
    · subst hq
      obtain rfl : req = x := by simpa using hx
      exact schedProg_within h.carving hreq
    · simp only [Function.update_of_ne hq] at hx
      exact h.waiting q x hx
  · exact h

theorem SystemInv.lock (h : SystemInv pf mem s) (p : P) :
    Holds Stop.IsHalt (SystemInv pf mem) (systemStep pf s (.lock p)) := by
  simp only [systemStep]
  split
  · next req hwait _ =>
    obtain ⟨hret, hpush⟩ := mutexLock_returned s.bell.mbox p req
    refine ⟨h.carving, h.pages, doorbellStep_inv h.bell (.lock p req), h.ran,
      h.requests.trans hret.symm, ?_, ?_, ?_, h.images⟩
    · intro q x hx
      by_cases hq : q = p
      · subst hq
        simp at hx
      · simp only [Function.update_of_ne hq] at hx
        exact h.waiting q x hx
    · intro q x hx
      obtain rfl | hx := mutexLock_sending s.bell.mbox p req hx
      · exact h.waiting p x hwait
      · exact h.sending q x hx
    · intro x hx
      rw [show (doorbellStep s.bell (.lock p req)).mbox.pushed = _ from hpush] at hx
      exact h.pushed x hx
  · exact h

omit [DecidableEq Fd] in
theorem SystemInv.sender (h : SystemInv pf mem s) (p : P) :
    SystemInv pf mem { s with bell := doorbellStep s.bell (.sender p) } := by
  refine ⟨h.carving, h.pages, doorbellStep_inv h.bell (.sender p), h.ran,
    h.requests.trans (senderStep_returned s.bell.mbox p).symm, h.waiting, ?_, ?_, h.images⟩
  · exact fun q x hx => h.sending q x (senderStep_sending s.bell.mbox p hx)
  · intro x hx
    obtain hx | hx := senderStep_pushed s.bell.mbox p hx
    · exact h.pushed x hx
    · exact h.sending p x hx

omit [DecidableEq P] in
theorem takeSpi_frame (d : Doorbell P SchedReq) :
    (takeSpi d).mbox.sender = d.mbox.sender ∧ (takeSpi d).mbox.returned = d.mbox.returned ∧
      (takeSpi d).mbox.pushed = d.mbox.pushed := by
  unfold takeSpi
  split_ifs <;> exact ⟨rfl, rfl, rfl⟩

omit [DecidableEq Fd] in
theorem SystemInv.takeSpi (h : SystemInv pf mem s) :
    SystemInv pf mem { s with bell := doorbellStep s.bell .takeSpi } := by
  obtain ⟨hsender, hret, hpush⟩ := takeSpi_frame s.bell
  refine ⟨h.carving, h.pages, doorbellStep_inv h.bell .takeSpi, h.ran, h.requests.trans hret.symm,
    h.waiting, ?_, ?_, h.images⟩
  · intro q x hx
    rw [show (doorbellStep s.bell .takeSpi).mbox.sender = _ from hsender] at hx
    exact h.sending q x hx
  · intro x hx
    rw [show (doorbellStep s.bell .takeSpi).mbox.pushed = _ from hpush] at hx
    exact h.pushed x hx

omit [DecidableEq P] in
/-- A record that `ipc_sched` gets was published. -/
theorem popped_pushed {d : Doorbell P SchedReq} (h : DoorbellInv d) {x : SchedReq}
    (hx : popped d = some x) : x ∈ d.mbox.pushed := by
  obtain ⟨-, -, hpush⟩ := ipcSchedStep_frame h
  have hprefix := (ipcSchedStep_inv h).mbox.delivered.returned_prefix
  rw [ipcSchedStep_returned, hx, hpush] at hprefix
  exact hprefix.subset (by simp)

/-- Each pop is the call of `schedule_req` for the record it returns. -/
theorem SystemInv.ipcSched (h : SystemInv pf mem s) :
    Holds Stop.IsHalt (SystemInv pf mem) (systemStep pf s .ipcSched) := by
  obtain ⟨hsender, -, hpush⟩ := ipcSchedStep_frame h.bell
  have hret := ipcSchedStep_returned s.bell
  have hbell : DoorbellInv (ipcSchedStep s.bell) := ipcSchedStep_inv h.bell
  have hsending : ∀ q x, EndToEnd.sending ((ipcSchedStep s.bell).mbox.sender q) = some x →
      Within s.linux.handed x := by
    rw [hsender]
    exact h.sending
  have hpushed : ∀ x ∈ (ipcSchedStep s.bell).mbox.pushed, Within s.linux.handed x := by
    rw [hpush]
    exact h.pushed
  simp only [systemStep]
  cases hpop : popped s.bell with
  | none =>
    rw [hpop, Option.toList_none, List.append_nil] at hret
    exact ⟨h.carving, h.pages, hbell, h.ran, h.requests.trans hret.symm, h.waiting, hsending,
      hpushed, h.images⟩
  | some x =>
    rw [hpop, Option.toList_some] at hret
    have hx : Within s.linux.handed x := h.pushed x (popped_pushed h.bell hpop)
    have hreq : ∀ y, eventReq (reqEvent x) = some y → Within s.linux.handed y := by
      intro y hy
      obtain rfl := Option.some.inj hy
      exact hx
    have hspec := handle_spec { s with bell := doorbellStep s.bell .ipcSched } h.ran h.images hreq
    apply hspec.mono
    intro s' hs'
    refine ⟨by rw [hs'.linux]; exact h.carving, by rw [hs'.linux]; exact h.pages,
      by rw [hs'.bell]; exact hbell, hs'.ran, ?_, ?_, ?_, ?_, hs'.images⟩
    · rw [hs'.log, hs'.bell, List.filterMap_append, h.requests]
      exact hret.symm
    · rw [hs'.linux, hs'.waiting]
      exact h.waiting
    · rw [hs'.linux, hs'.bell]
      exact hsending
    · rw [hs'.linux, hs'.bell]
      exact hpushed

/-- The other handlers make no request. -/
theorem SystemInv.handler (h : SystemInv pf mem s) (e : Event) :
    Holds Stop.IsHalt (SystemInv pf mem) (systemStep pf s (.handler e)) := by
  simp only [systemStep]
  split_ifs with he
  · have hreq : ∀ x, eventReq e = some x → Within s.linux.handed x := by
      intro x hx
      rw [he.2] at hx
      cases hx
    apply (handle_spec s h.ran h.images hreq).mono
    intro s' hs'
    refine ⟨by rw [hs'.linux]; exact h.carving, by rw [hs'.linux]; exact h.pages,
      by rw [hs'.bell]; exact h.bell, hs'.ran, ?_, ?_, ?_, ?_, hs'.images⟩
    · rw [hs'.log, hs'.bell, List.filterMap_append, h.requests]
      simp [he.2]
    · rw [hs'.linux, hs'.waiting]
      exact h.waiting
    · rw [hs'.linux, hs'.bell]
      exact h.sending
    · rw [hs'.linux, hs'.bell]
      exact h.pushed
  · exact h

theorem systemStep_inv (h : SystemInv pf mem s) (a : SystemStep P Fd) :
    Holds Stop.IsHalt (SystemInv pf mem) (systemStep pf s a) := by
  cases a with
  | file op => exact h.file op
  | schedProg p fd args => exact h.schedProg p fd args
  | lock p => exact h.lock p
  | sender p => exact h.sender p
  | takeSpi => exact h.takeSpi
  | ipcSched => exact h.ipcSched
  | handler e => exact h.handler e

end Step

/-! ## Every interleaving -/

omit [DecidableEq P] [DecidableEq Fd] in
theorem systemBoot_inv (r : MpscRing SchedReq) (mem : M) :
    Holds Stop.IsHalt (SystemInv pf mem) (systemBoot pf r mem : Except Stop (System P Fd M)) := by
  have hp0 : Holds Stop.IsHalt (fun k => k.sched.p0.paPc = 0 ∧ k.sched.p0.progSize = 0)
      (schedInit pf mem) := by
    unfold schedInit kernMapCreate
    simp only [bind_assoc, pure_bind]
    apply (holds_call _).bind
    intro m _
    exact ⟨rfl, rfl⟩
  have hboot : Holds Stop.IsHalt (fun k => run pf mem [] = .ok k ∧ (k.sched.p0.paPc = 0 ∧
      k.sched.p0.progSize = 0) ∧ liveProcs k.sched = 0) (schedInit pf mem) := by
    apply (hp0.and (schedInit_idle pf mem)).of_value
    intro k hk h
    refine ⟨?_, h⟩
    rw [run, hk]
    rfl
  apply hboot.bind
  rintro k ⟨hran, hzero, hidle⟩
  refine ⟨Carving.boot_inv, by simp [Pages], doorbellInit_inv r, hran, rfl, by simp, ?_, ?_, ?_⟩
  · intro p req hp
    cases hp
  · intro req hreq
    cases hreq
  · rintro q (rfl | hq)
    · exact Or.inl hzero
    · rw [hidle] at hq
      cases hq

theorem systemRun_inv (r : MpscRing SchedReq) (mem : M) (ss : List (SystemStep P Fd)) :
    Holds Stop.IsHalt (SystemInv pf mem) (systemRun pf r mem ss) :=
  (systemBoot_inv pf r mem).bind (Holds.foldlM (fun _ a h => systemStep_inv h a) ss)

/-- The kernel went through its log. The requests in the log are what the pops returned, and the
others that were published are in hand or in their slots. Every published request is for the end of
a range, ranges never meet, and every process has the image of such a request, or none when the
kernel process made it. -/
structure Sound (mem : M) (s : System P Fd M) : Prop where
  ran : run pf mem s.log = .ok s.kernel
  requests : s.log.filterMap eventReq = s.bell.mbox.returned
  delivered : ∃ inRing, Delivered s.bell.mbox inRing
  apart : s.linux.handed.Pairwise Range.Disjoint
  pushed : ∀ req ∈ s.bell.mbox.pushed, Within s.linux.handed req
  images : ∀ r ∈ liveProcs s.kernel.sched, ImageWithin s.linux.handed (s.kernel.sched.proc r)

theorem systemRun_sound (r : MpscRing SchedReq) (mem : M) (ss : List (SystemStep P Fd)) :
    Holds Stop.IsHalt (Sound pf mem) (systemRun pf r mem ss) := by
  apply (systemRun_inv pf r mem ss).mono
  intro s h
  exact ⟨h.ran, h.requests, ⟨_, h.bell.mbox.delivered⟩, h.carving.apart, h.pushed,
    fun q hq => h.images q (Or.inr hq)⟩

/-! ## Isolation -/

section Isolation
variable {place : List HeapCall → ℕ → ℕ → ℕ} {ignoresNull : Bool} {kernelEnd jrtExit : ℕ}
  {cntpct : ℕ → ℕ} {s : System P Fd IdealMem}

/-- The end of a page-aligned range, cut off anywhere, has the same pages above the cut. -/
theorem ownSpace_own {q : Proc} {a : Range} (ha : a.start % 4096 = 0 ∧ a.len % 4096 = 0)
    (hstart : a.start ≤ q.paPc) (hend : q.paPc + q.progSize = a.start + a.len) {va : ℕ}
    (hva : va < roundUp q.progSize) :
    a.start ≤ roundDown q.paPc + va ∧ roundDown q.paPc + va < a.start + a.len := by
  unfold roundUp at hva
  unfold roundDown
  omega

/-- What a process sees besides its own pages. -/
theorem sharedSpace_outside {b : Range} (hb : b.start % 4096 = 0) (hkernel : kernelEnd ≤ b.start)
    (hlow : code0 ≤ b.start) (hhigh : b.start + b.len ≤ code0 + jrtCodeSize) {base va : ℕ}
    {o : ℕ × ℕ} (ho : sharedSpace (min kernelEnd base) va = some o) :
    ¬ (b.start ≤ o.1 ∧ o.1 < b.start + b.len) := by
  have hsize : code0 = 0x50000000 ∧ jrtCodeSize = 0x1000000 := ⟨rfl, rfl⟩
  have hmem : mem0 = 0x51000000 := rfl
  have huart : uartPaBase = 0x9000000 ∧ uartPaSize = 0x1000 := ⟨rfl, rfl⟩
  have hup : roundUp (min kernelEnd base) ≤ b.start := by
    have hle := min_le_left kernelEnd base
    unfold roundUp
    omega
  unfold sharedSpace at ho
  split_ifs at ho with h1 h2 h3
  all_goals
    obtain rfl := Option.some.inj ho
    dsimp only
    omega

/-- Every process sees its own image, and no byte of a range above the kernel that its code does
not lie in. -/
structure Isolated (kernelEnd : ℕ) (s : System P Fd IdealMem) : Prop where
  own : ∀ r ∈ liveProcs s.kernel.sched, ∀ va, va < (s.kernel.sched.proc r).progSize →
    s.kernel.mem.walk (s.kernel.sched.proc r).ctx.mmap.root.l0 va =
      some (roundDown (s.kernel.sched.proc r).paPc + va, pteProcRwx)
  others : ∀ r ∈ liveProcs s.kernel.sched, ∀ b ∈ s.linux.handed, kernelEnd ≤ b.start →
    ¬ (b.start ≤ (s.kernel.sched.proc r).paPc ∧
      (s.kernel.sched.proc r).paPc < b.start + b.len) →
    ∀ va, va < 2 ^ 48 → ∀ o,
      s.kernel.mem.walk (s.kernel.sched.proc r).ctx.mmap.root.l0 va = some o →
        ¬ (b.start ≤ o.1 ∧ o.1 < b.start + b.len)

omit [DecidableEq P] [DecidableEq Fd] in
theorem SystemInv.isolated {pf : Platform IdealMem} {mem : IdealMem} (h : SystemInv pf mem s)
    (hsp : SpacesExact kernelEnd s.kernel) : Isolated kernelEnd s := by
  have hcode : code0 = 0x50000000 ∧ jrtCodeSize = 0x1000000 := ⟨rfl, rfl⟩
  have hle := h.carving.mod.le
  have hwin : ∀ r ∈ liveProcs s.kernel.sched, InWindow (s.kernel.sched.proc r) := by
    intro r hr
    obtain ⟨hpc, hsize⟩ | ⟨a, ha, hlo, hend, hpos⟩ := h.images r (Or.inr hr)
    · exact ⟨by omega, by omega⟩
    · have hin := h.carving.inside a ha
      exact ⟨by omega, by omega⟩
  constructor
  · intro r hr va hva
    have hup : va < roundUp (s.kernel.sched.proc r).progSize := by
      unfold roundUp
      omega
    have hsize := (hwin r hr).size
    rw [(hsp.procs r hr (hwin r hr)).exact va (by omega), ownSpace, if_pos hup]
  · intro r hr b hb hkernel hnot va hva o ho
    have hbin := h.carving.inside b hb
    rw [(hsp.procs r hr (hwin r hr)).exact va hva, ownSpace] at ho
    split_ifs at ho with hown
    · obtain rfl := Option.some.inj ho
      obtain ⟨-, hsize⟩ | ⟨a, ha, hlo, hend, hpos⟩ := h.images r (Or.inr hr)
      · rw [hsize, roundUp] at hown
        omega
      · -- the range of the image is not `b`, so it does not meet `b`
        have hne : a ≠ b := by
          rintro rfl
          exact hnot ⟨hlo, by omega⟩
        have hsymm : Std.Symm Range.Disjoint := ⟨fun _ _ hd => hd.symm⟩
        have hdis := h.carving.apart.forall ha hb hne
        have hin := ownSpace_own (h.pages a ha) hlo hend hown
        unfold Range.Disjoint at hdis
        dsimp only
        omega
    · exact sharedSpace_outside (h.pages b hb).1 hkernel hbin.1 (by omega) ho

/-- Whatever is mapped, requested and run in whatever order. -/
theorem systemRun_isolated (hp : IdealAlloc place) (hk : kernelEnd ≤ code0 + jrtCodeSize)
    (r : MpscRing SchedReq) (table : ℕ → ℕ → ℕ) (ss : List (SystemStep P Fd)) :
    Holds Stop.IsHalt (Isolated kernelEnd) (systemRun
      (idealPlatform place ignoresNull kernelEnd cntpct jrtExit) r ⟨[], table⟩ ss) := by
  have hrun := systemRun_inv (idealPlatform place ignoresNull kernelEnd cntpct jrtExit) r
    ⟨[], table⟩ ss
  apply hrun.mono
  intro s h
  obtain ⟨-, hsp⟩ := (run_spacesExact hp hk table s.log).of_ok h.ran
  exact h.isolated hsp

end Isolation

/-! ## One program -/

/-- Three files with a range each, the first of them for the kernel. -/
def threeRanges : List (FileOp ℕ) :=
  [.openFile 0 true, .mmap 0 ⟨0, 0x100000, by decide, by decide, by decide, by decide⟩ true,
    .openFile 1 true, .mmap 1 ⟨0x1000, 0x2000, by decide, by decide, by decide, by decide⟩ true,
    .openFile 2 true, .mmap 2 ⟨0x1000, 0x2000, by decide, by decide, by decide, by decide⟩ true]

/-- The program in the second range. -/
def secondRange : SchedReq := ⟨0x50100000, 4096, 4096⟩

/-- The accesses before the last of its pop, once its sender has the lock. -/
def throughRing : List (DoorbellStep Unit SchedReq) :=
  List.replicate 6 (.sender ()) ++ .takeSpi :: List.replicate 5 .ipcSched

/-- An access as a step of the system. -/
def ringStep : DoorbellStep Unit SchedReq → SystemStep Unit ℕ
  | .lock p _ => .lock p
  | .sender p => .sender p
  | .takeSpi => .takeSpi
  | .ipcSched => .ipcSched

def oneRequest : List (SystemStep Unit ℕ) :=
  threeRanges.map .file ++ .schedProg () 1 (some ⟨0x1000, 4096⟩) :: .lock () ::
    (throughRing.map ringStep ++ [.ipcSched])

section OneRequest
variable {M : Type} (pf : Platform M) {s : System Unit ℕ M}

theorem file_foldlM (ops : List (FileOp ℕ)) (s : System Unit ℕ M) :
    (ops.map .file).foldlM (systemStep pf) s =
      .ok { s with linux := ops.foldl carveStep s.linux } := by
  induction ops generalizing s with
  | nil => rfl
  | cons op ops ih =>
    rw [List.map_cons, List.foldlM_cons, List.foldl_cons]
    exact ih _

/-- Accesses that pop nothing leave the kernel alone. -/
theorem ringStep_foldlM {ds : List (DoorbellStep Unit SchedReq)}
    (hlock : ∀ req, DoorbellStep.lock () req ∉ ds)
    (hpop : ∀ n, n < ds.length → popped ((ds.take n).foldl doorbellStep s.bell) = none) :
    (ds.map ringStep).foldlM (systemStep pf) s =
      .ok { s with bell := ds.foldl doorbellStep s.bell } := by
  induction ds generalizing s with
  | nil => rfl
  | cons a ds ih =>
    have hstep : systemStep pf s (ringStep a) = .ok { s with bell := doorbellStep s.bell a } := by
      cases a with
      | lock p req => exact absurd List.mem_cons_self (hlock req)
      | sender p => rfl
      | takeSpi => rfl
      | ipcSched =>
        have hnone : popped s.bell = none := hpop 0 (by simp)
        rw [ringStep, systemStep, hnone]
        rfl
    rw [List.map_cons, List.foldlM_cons, hstep, List.foldl_cons]
    apply ih
    · intro req hmem
      exact hlock req (List.mem_cons_of_mem a hmem)
    · intro n hn
      exact hpop (n + 1) (by simpa using hn)

end OneRequest

theorem oneRequest_returns :
    ∃ s i, systemRun bumpPlatform zeroRing emptyHeap oneRequest = .ok s ∧
      s.kernel.sched.curr = some (.pb i) ∧ (s.kernel.sched.pb i).paPc = 0x50100000 ∧
      ⟨0x50101000, 0x1000⟩ ∈ s.linux.handed ∧ s.log = [reqEvent secondRange] := by
  obtain ⟨k, i, hk, hcalm, -, -, hpc, -⟩ := oneProgram_returns
  obtain ⟨k₀, hboot, hstep⟩ : ∃ k₀, schedInit bumpPlatform emptyHeap = .ok k₀ ∧
      step bumpPlatform k₀ (reqEvent secondRange) = .ok k := by
    cases hboot : schedInit bumpPlatform emptyHeap with
    | error e =>
      rw [run, hboot] at hk
      cases hk
    | ok k₀ =>
      have hrun : run bumpPlatform emptyHeap [] = .ok k₀ := by
        rw [run, hboot]
        rfl
      exact ⟨k₀, rfl, (run_snoc bumpPlatform emptyHeap [] _ hrun).symm.trans hk⟩
  have hreq : rtcoreSchedProg (carveRun threeRanges).mod 1 (some ⟨0x1000, 4096⟩) =
    .ok secondRange := rfl
  have hhanded : ⟨0x50101000, 0x1000⟩ ∈ (carveRun threeRanges).handed := by decide +kernel
  let bell := doorbellStep (doorbellInit zeroRing) (.lock () secondRange)
  have hquiet : ∀ n, n < throughRing.length →
      popped ((throughRing.take n).foldl doorbellStep bell) = none := by decide +kernel
  have hpop : popped (throughRing.foldl doorbellStep bell) = some secondRange := by decide +kernel
  let waiting : Unit → Option SchedReq :=
    Function.update (Function.update (fun _ => none) () (some secondRange)) () none
  refine ⟨⟨carveRun threeRanges, waiting, ipcSchedStep (throughRing.foldl doorbellStep bell), k,
    [reqEvent secondRange]⟩, i, ?_, hcalm.curr, hpc, hhanded, rfl⟩
  have hsent : ∀ t : Carving ℕ,
      rtcoreSchedProg t.mod 1 (some ⟨0x1000, 4096⟩) = .ok secondRange → ∀ as,
      (.schedProg () 1 (some ⟨0x1000, 4096⟩) :: .lock () :: as).foldlM (systemStep bumpPlatform)
        ⟨t, fun _ => none, doorbellInit zeroRing, k₀, []⟩ =
      as.foldlM (systemStep bumpPlatform) ⟨t, waiting, bell, k₀, []⟩ := by
    intro t ht as
    rw [List.foldlM_cons, systemStep, ht]
    rfl
  have hlast : systemStep bumpPlatform (⟨carveRun threeRanges, waiting,
      throughRing.foldl doorbellStep bell, k₀, []⟩ : System Unit ℕ _) .ipcSched =
      .ok ⟨carveRun threeRanges, waiting, ipcSchedStep (throughRing.foldl doorbellStep bell), k,
        [reqEvent secondRange]⟩ := by
    rw [systemStep, hpop]
    dsimp only
    rw [System.handle, hstep]
    rfl
  rw [carveRun] at hreq hlast
  have hlock : ∀ req, DoorbellStep.lock () req ∉ throughRing := by simp [throughRing]
  rw [systemRun, systemBoot, hboot, ok_bind, pure_bind, oneRequest, List.foldlM_append, file_foldlM,
    ok_bind, hsent _ hreq, List.foldlM_append, ringStep_foldlM bumpPlatform hlock hquiet, ok_bind,
    List.foldlM_cons, hlast]
  rfl

/-- The program in the second range does not see the third. -/
theorem systemRun_isolated_oneRequest :
    ∃ s i, systemRun bumpPlatform zeroRing emptyHeap oneRequest = .ok s ∧
      s.kernel.sched.curr = some (.pb i) ∧ ∀ va, va < 2 ^ 48 → ∀ o,
        s.kernel.mem.walk (s.kernel.sched.pb i).ctx.mmap.root.l0 va = some o →
          ¬ (0x50101000 ≤ o.1 ∧ o.1 < 0x50101000 + 0x1000) := by
  obtain ⟨s, i, hs, hcurr, hpc, hhanded, -⟩ := oneRequest_returns
  have hrun : Holds Stop.IsHalt (Isolated 0x50020000)
      (systemRun bumpPlatform zeroRing emptyHeap oneRequest) :=
    systemRun_isolated bumpPlace_ideal (by decide) zeroRing (fun _ _ => 0) oneRequest
  refine ⟨s, i, hs, hcurr, ?_⟩
  refine (hrun.of_ok hs).others (.pb i) (Sched.mem_liveProcs_curr hcurr) _ hhanded (by decide) ?_
  rw [show s.kernel.sched.proc (.pb i) = s.kernel.sched.pb i from rfl, hpc]
  rintro ⟨hle, -⟩
  exact absurd hle (by decide)

end JanusRT.EndToEnd
