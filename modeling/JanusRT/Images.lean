import JanusRT.Asid
import JanusRT.Ownership

/-!
# Where the images of processes come from

A live process keeps the image and the map it was created with. A request brings an image of its
own, and `spawn` gives the new process the image of the caller.
-/
namespace JanusRT
open Heap Outcome

variable {M : Type}

/-- `q'` has the map and the image of `q`. -/
structure SameImage (q q' : Proc) : Prop where
  map : q'.ctx.mmap = q.ctx.mmap
  start : q'.paPc = q.paPc
  size : q'.progSize = q.progSize

theorem SameImage.symm {q q' : Proc} (h : SameImage q q') : SameImage q' q :=
  ⟨h.map.symm, h.start.symm, h.size.symm⟩

/-- Where the image of a new process comes from. -/
def Asked (k : Kernel M) (q : Proc) : Event → Prop
  | .scheduleReq pc progSize _ => q.paPc = pc ∧ q.progSize = progSize
  | .spawn .. => ∃ cur, k.sched.curr = some cur ∧ q.paPc = (k.sched.proc cur).paPc ∧
      q.progSize = (k.sched.proc cur).progSize
  | _ => False

/-- A live process after `e` was live before with the same image and map, or is the one that
`e` created. -/
def LiveStep (k k' : Kernel M) (e : Event) : Prop :=
  ∀ r ∈ liveProcs k'.sched,
    (r ∈ liveProcs k.sched ∧ SameImage (k.sched.proc r) (k'.sched.proc r)) ∨
      (e.creates = true ∧ asidOf k'.sched r = k.asid ∧ Asked k (k'.sched.proc r) e)

section Event
variable {pf : Platform M} {k k' : Kernel M}

theorem liveStep_moves (hinv : Inv 0 k.sched) (hinv' : Inv 0 k'.sched)
    (hfree : freeStack k'.sched = freeStack k.sched)
    (hsame : ∀ r, SameImage (k.sched.proc r) (k'.sched.proc r)) (e : Event) : LiveStep k k' e := by
  intro r hr
  rw [liveProcs_eq hinv hinv' hfree] at hr
  exact Or.inl ⟨hr, hsame r⟩

theorem liveStep_creates (hinv : Inv 0 k.sched) (hinv' : Inv 0 k'.sched) {q : Proc} {e : Event}
    (hc : Creates k.sched k'.sched q) (he : e.creates = true) (hasid : q.ctx.mmap.asid = k.asid)
    (hasked : ∀ s, Asked k { q with state := s } e) :
    SameImage k.sched.p0 k'.sched.p0 ∧ LiveStep k k' e := by
  have hlive := hc.liveProcs hinv hinv'
  have hp0 := hinv'.p0_not_live
  have hsame : ∀ r, r ≠ k.sched.freeProc k'.sched.nfreeProc →
      SameImage (k.sched.proc r) (k'.sched.proc r) := by
    intro r hr
    obtain ⟨s, hs⟩ := hc.others r hr
    rw [hs]
    exact ⟨rfl, rfl, rfl⟩
  rw [hlive] at hp0
  refine ⟨hsame .p0 (fun he => hp0 (he ▸ Multiset.mem_cons_self _ _)), ?_⟩
  intro r hr
  by_cases hnew : r = k.sched.freeProc k'.sched.nfreeProc
  · right
    obtain ⟨s, hs⟩ := hc.created
    rw [← hnew] at hs
    refine ⟨he, ?_, ?_⟩
    · rw [asidOf, hs]
      exact hasid
    · rw [hs]
      exact hasked s
  · rw [hlive, Multiset.mem_cons] at hr
    exact Or.inl ⟨hr.resolve_left hnew, hsame r hnew⟩

/-- Every event keeps the kernel's map and that of every process it does not create. -/
theorem step_live (h : KernelInv k) (e : Event) :
    Holds Stop.IsHalt (fun k' => SameImage k.sched.p0 k'.sched.p0 ∧ LiveStep k k' e)
      (step pf k e) := by
  have hinv := h.places
  cases e with
  | scheduleReq pc progSize memReq =>
    apply (scheduleReq_spec pf hinv pc progSize memReq).mono
    intro k' hk'
    obtain ⟨hinv', -, -, -, _, _, _, _, -, -, -, hc⟩ := hk'
    exact liveStep_creates hinv hinv' hc rfl rfl fun _ => ⟨rfl, rfl⟩
  | timerFn =>
    apply (timerFn_spec pf hinv h.edf).mono
    intro k' hk'
    obtain ⟨hinv', -, -, -, -, -, hw⟩ := hk'
    have hsame : ∀ r, SameImage (k.sched.proc r) (k'.sched.proc r) := by
      intro r
      obtain ⟨s, hs⟩ := hw.procs r
      rw [hs]
      exact ⟨rfl, rfl, rfl⟩
    exact ⟨hsame .p0, liveStep_moves hinv hinv' (freeStack_congr hw.freeProc hw.nfreeProc) hsame _⟩
  | waitUntil u =>
    apply (waitUntil_spec pf hinv h.timer u).mono
    intro k' hk'
    obtain ⟨hinv', -, -, -, -, i, hs⟩ := hk'
    have hsame : ∀ r, SameImage (k.sched.proc r) (k'.sched.proc r) := by
      intro r
      by_cases hr : r = .pb i
      · have hslept : k'.sched.proc (.pb i) = _ := hs.slept
        rw [hr, hslept]
        exact ⟨rfl, rfl, rfl⟩
      · obtain ⟨s, he⟩ := hs.others r hr
        rw [he]
        exact ⟨rfl, rfl, rfl⟩
    exact ⟨hsame .p0, liveStep_moves hinv hinv' (freeStack_congr hs.freeProc hs.nfreeProc) hsame _⟩
  | exit =>
    apply (exit_spec pf hinv).mono
    intro k' hk'
    obtain ⟨hinv', -, -, -, i, _, -, -, hx⟩ := hk'
    have hlive := hx.liveProcs hinv hinv'
    have hnd := hinv.nodup_live
    rw [hlive] at hnd
    have hsame : ∀ r, r ≠ .pb i → SameImage (k.sched.proc r) (k'.sched.proc r) := by
      intro r hr
      obtain ⟨s, hs⟩ := hx.others r hr
      rw [hs]
      exact ⟨rfl, rfl, rfl⟩
    refine ⟨hsame .p0 (by simp), ?_⟩
    intro r hr
    left
    refine ⟨by rw [hlive]; exact Multiset.mem_cons_of_mem hr, hsame r ?_⟩
    rintro rfl
    exact (Multiset.nodup_cons.mp hnd).1 hr
  | spawn deadline ep ap memReq =>
    apply (spawn_spec pf hinv deadline ep ap memReq).mono
    intro k' hk'
    obtain ⟨hinv', -, -, -, cur, _, _, _, _, hcur, -, -, hc⟩ := hk'
    exact liveStep_creates hinv hinv' hc rfl rfl fun _ => ⟨cur, hcur, rfl, rfl⟩

end Event

end JanusRT
