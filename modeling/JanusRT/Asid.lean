import JanusRT.Runs

/-!
# Address space identifiers

`sched_new_proc` hands out the values of a static `u16` counter that starts at one
and is never reset. Numbering the creations of a run shows when the hardware sees
two live processes as one: the identifier of creation number `n` is `n` modulo
`2 ^ 16`, so the first collision is with the kernel map, at creation `2 ^ 16`.
-/
namespace JanusRT
open Heap Outcome

variable {M : Type} (pf : Platform M)

/-- The ready, waiting and running processes. -/
def liveProcs (sc : Sched) : Multiset ProcRef :=
  queued sc.ready + queued sc.waiting + running sc.curr

/-- `ctx.mmap.asid` of a process. -/
def asidOf (sc : Sched) (r : ProcRef) : ℕ := (sc.proc r).ctx.mmap.asid

/-- Live processes have identifiers of their own, none of them the kernel map's zero. -/
structure AsidsUnique (sc : Sched) : Prop where
  distinct : ∀ r ∈ liveProcs sc, ∀ s ∈ liveProcs sc, r ≠ s → asidOf sc r ≠ asidOf sc s
  nonzero : ∀ r ∈ liveProcs sc, asidOf sc r ≠ 0

/-- The events that create a process. -/
def Event.creates : Event → Bool
  | .scheduleReq .. => true
  | .spawn .. => true
  | _ => false

/-- Number of processes a run creates. -/
def creations (es : List Event) : ℕ := es.countP Event.creates

theorem Inv.free_add_live {sc : Sched} (h : Inv 0 sc) : freeStack sc + liveProcs sc = allProcs := by
  rw [← h.places, liveProcs, add_zero, add_assoc, add_assoc, add_assoc]

theorem Inv.mem_live {sc : Sched} (h : Inv 0 sc) (r : ProcRef) :
    r ∈ liveProcs sc ↔ r ∈ allProcs ∧ r ∉ freeStack sc := by
  have hn : (freeStack sc + liveProcs sc).Nodup := by
    rw [h.free_add_live]
    exact nodup_allProcs
  rw [← h.free_add_live, Multiset.mem_add]
  constructor
  · intro hr
    exact ⟨Or.inr hr, fun hf => Multiset.disjoint_left.mp (Multiset.nodup_add.mp hn).2.2 hf hr⟩
  · rintro ⟨hr, hf⟩
    exact hr.resolve_left hf

/-- The created process is live, and it is the only new one. -/
theorem Creates.mem_live {sc sc' : Sched} {q : Proc} (hc : Creates sc sc' q) (h : Inv 0 sc)
    (h' : Inv 0 sc') (r : ProcRef) :
    r ∈ liveProcs sc' ↔ r = sc.freeProc sc'.nfreeProc ∨ r ∈ liveProcs sc := by
  have hn : (freeStack sc).Nodup := by
    have := h.nodup
    rw [add_assoc, add_assoc, add_assoc] at this
    exact (Multiset.nodup_add.mp this).1
  have hsub : sc.freeProc sc'.nfreeProc ∈ allProcs := by
    rw [← h.places, hc.freeStack_eq]
    simp
  rw [hc.freeStack_eq, Multiset.nodup_cons] at hn
  rw [h'.mem_live, h.mem_live, hc.freeStack_eq, Multiset.mem_cons]
  by_cases hr : r = sc.freeProc sc'.nfreeProc
  · simp [hr, hsub, hn.1]
  · simp [hr]

/-- Creation numbers of the live processes after `c` creations. -/
structure Numbered (c : ℕ) (k : Kernel M) (num : ProcRef → ℕ) : Prop where
  next : k.asid = (c + 1) % u16
  pos : ∀ r ∈ liveProcs k.sched, 1 ≤ num r
  le : ∀ r ∈ liveProcs k.sched, num r ≤ c
  asid : ∀ r ∈ liveProcs k.sched, asidOf k.sched r = num r % u16
  inj : ∀ r ∈ liveProcs k.sched, ∀ s ∈ liveProcs k.sched, num r = num s → r = s

theorem Numbered.create {c : ℕ} {k k' : Kernel M} {num : ProcRef → ℕ} {q : Proc}
    (hn : Numbered c k num) (h : Inv 0 k.sched) (h' : Inv 0 k'.sched)
    (hc : Creates k.sched k'.sched q) (hq : q.ctx.mmap.asid = k.asid)
    (ha : k'.asid = (k.asid + 1) % u16) :
    Numbered (c + 1) k' (Function.update num (k.sched.freeProc k'.sched.nfreeProc) (c + 1)) := by
  let p := k.sched.freeProc k'.sched.nfreeProc
  have hlive := hc.mem_live h h'
  have hne : ∀ r ∈ liveProcs k.sched, r ≠ p := by
    rintro r hr rfl
    rw [h.mem_live, hc.freeStack_eq] at hr
    exact hr.2 (Multiset.mem_cons_self _ _)
  have hnum : ∀ r ∈ liveProcs k.sched, Function.update num p (c + 1) r = num r :=
    fun r hr => Function.update_of_ne (hne r hr) _ _
  have hasid : asidOf k'.sched p = k.asid := by
    obtain ⟨s, hs⟩ := hc.created
    rw [asidOf, hs]
    exact hq
  refine ⟨?_, ?_, ?_, ?_, ?_⟩
  · rw [ha, hn.next]
    simp [Nat.add_mod]
  · intro r hr
    obtain rfl | hr := (hlive r).mp hr
    · simp
    · rw [hnum r hr]
      exact hn.pos r hr
  · intro r hr
    obtain rfl | hr := (hlive r).mp hr
    · simp
    · rw [hnum r hr]
      exact (hn.le r hr).trans (Nat.le_succ c)
  · intro r hr
    obtain rfl | hr := (hlive r).mp hr
    · rw [Function.update_self, ← hn.next]
      exact hasid
    · rw [hnum r hr, ← hn.asid r hr]
      obtain ⟨s, hs⟩ := hc.others r (hne r hr)
      rw [asidOf, hs, asidOf]
  · intro r hr s hs he
    obtain rfl | hr := (hlive r).mp hr
    · obtain rfl | hs := (hlive s).mp hs
      · rfl
      · rw [Function.update_self, hnum s hs] at he
        have := hn.le s hs
        omega
    · obtain rfl | hs := (hlive s).mp hs
      · rw [Function.update_self, hnum r hr] at he
        have := hn.le r hr
        omega
      · rw [hnum r hr, hnum s hs] at he
        exact hn.inj r hr s hs he

/-- An event that creates nothing keeps the numbers of what stays live. -/
theorem Numbered.keep {c : ℕ} {k k' : Kernel M} {num : ProcRef → ℕ} (hn : Numbered c k num)
    (ha : k'.asid = k.asid) (hsub : ∀ r ∈ liveProcs k'.sched, r ∈ liveProcs k.sched)
    (hsame : ∀ r ∈ liveProcs k'.sched, asidOf k'.sched r = asidOf k.sched r) : Numbered c k' num where
  next := ha.trans hn.next
  pos r hr := hn.pos r (hsub r hr)
  le r hr := hn.le r (hsub r hr)
  asid r hr := (hsame r hr).trans (hn.asid r (hsub r hr))
  inj r hr s hs := hn.inj r (hsub r hr) s (hsub s hs)

theorem step_numbered {c : ℕ} {k : Kernel M} {num : ProcRef → ℕ} (h : KernelInv k)
    (hn : Numbered c k num) (e : Event) :
    Holds Stop.IsHalt (fun k' => KernelInv k' ∧ ∃ num', Numbered (c + creations [e]) k' num' ∧
      (e.creates = true → ∃ r ∈ liveProcs k'.sched, num' r = c + 1)) (step pf k e) := by
  have hkeep : ∀ (k' : Kernel M), Inv 0 k'.sched → k'.asid = k.asid →
      freeStack k'.sched = freeStack k.sched →
      (∀ r, (k'.sched.proc r).ctx = (k.sched.proc r).ctx) → Numbered c k' num := by
    intro k' hinv ha hf hctx
    refine hn.keep ha ?_ ?_
    · intro r hr
      rwa [hinv.mem_live, hf, ← h.places.mem_live] at hr
    · intro r _
      rw [asidOf, hctx r, asidOf]
  have hlast : ∀ {k' : Kernel M} {q : Proc} {b : Bool}, Inv 0 k'.sched →
      Creates k.sched k'.sched q → b = true → ∃ r ∈ liveProcs k'.sched,
        Function.update num (k.sched.freeProc k'.sched.nfreeProc) (c + 1) r = c + 1 := by
    intro k' q b hinv hc _
    exact ⟨_, (hc.mem_live h.places hinv _).mpr (Or.inl rfl), Function.update_self _ _ _⟩
  apply (step_inv pf h e).and
  cases e with
  | scheduleReq pc progSize memReq =>
    apply (scheduleReq_spec pf h.places pc progSize memReq).mono
    intro k' hk'
    obtain ⟨hinv, _, _, ha, _, _, _, _, _, _, _, hc⟩ := hk'
    exact ⟨_, hn.create h.places hinv hc rfl ha, hlast hinv hc⟩
  | timerFn =>
    apply (timerFn_spec pf h.places h.edf).mono
    intro k' hk'
    obtain ⟨hinv, _, _, _, ha, _, hw⟩ := hk'
    exact ⟨num, hkeep k' hinv ha (freeStack_congr hw.freeProc hw.nfreeProc) hw.ctx, nofun⟩
  | waitUntil u =>
    apply (waitUntil_spec pf h.places h.timer u).mono
    intro k' hk'
    obtain ⟨hinv, _, _, ha, _, i, hs⟩ := hk'
    exact ⟨num, hkeep k' hinv ha (freeStack_congr hs.freeProc hs.nfreeProc) hs.ctx, nofun⟩
  | exit =>
    apply (exit_spec pf h.places).mono
    intro k' hk'
    obtain ⟨hinv, _, _, ha, i, _, _, _, hx⟩ := hk'
    have hfree := hx.freeStack_eq
    refine ⟨num, hn.keep ha ?_ ?_, nofun⟩
    · intro r hr
      rw [hinv.mem_live, hfree] at hr
      rw [h.places.mem_live]
      exact ⟨hr.1, fun hf => hr.2 (Multiset.mem_cons_of_mem hf)⟩
    · intro r hr
      rw [hinv.mem_live, hfree] at hr
      obtain ⟨s, hs⟩ := hx.others r (fun he => hr.2 (he ▸ Multiset.mem_cons_self _ _))
      rw [asidOf, hs, asidOf]
  | spawn deadline ep ap memReq =>
    apply (spawn_spec pf h.places deadline ep ap memReq).mono
    intro k' hk'
    obtain ⟨hinv, _, _, ha, _, _, _, _, _, _, _, _, hc⟩ := hk'
    exact ⟨_, hn.create h.places hinv hc rfl ha, hlast hinv hc⟩

theorem events_numbered (es : List Event) {c : ℕ} {k : Kernel M} {num : ProcRef → ℕ}
    (h : KernelInv k) (hn : Numbered c k num) :
    Holds Stop.IsHalt (fun k' => KernelInv k' ∧
      ∃ num', Numbered (c + creations es) k' num') (es.foldlM (step pf) k) := by
  induction es generalizing k c num with
  | nil => exact ⟨h, num, hn⟩
  | cons e es ih =>
    rw [List.foldlM_cons]
    apply (step_numbered pf h hn e).bind
    intro k' hk'
    obtain ⟨h', num', hn', _⟩ := hk'
    apply (ih h' hn').mono
    intro k'' hk''
    obtain ⟨h'', num'', hn''⟩ := hk''
    refine ⟨h'', num'', ?_⟩
    rw [creations, List.countP_cons, ← creations, add_comm (creations es), ← add_assoc]
    simpa [creations, List.countP_cons] using hn''

theorem run_numbered (mem : M) (es : List Event) :
    Holds Stop.IsHalt (fun k => KernelInv k ∧ ∃ num, Numbered (creations es) k num)
      (run pf mem es) := by
  have hinit : Holds Stop.IsHalt (fun k => KernelInv k ∧ Numbered 0 k fun _ => 0)
      (schedInit pf mem) := by
    apply (schedInit_inv pf mem).and
    unfold schedInit kernMapCreate
    simp only [bind_assoc, pure_bind]
    apply (holds_call _).bind
    rintro ⟨root, m⟩ _
    have hnone : liveProcs
        (Sched.mk { zeroProc with pid := 0, first := 0, ctx := { zeroProc.ctx with mmap := ⟨root, 0⟩ } }
          (some .p0) 0 (fun i => { zeroProc with pid := idxToPid i, state := .unused })
          (fun i => .pb i) maxProc (heapInit (fun _ => ⟨0, .p0, 0⟩) readyMax)
          (heapInit (fun _ => ⟨0, .p0, 0⟩) readyMax)) = 0 := by
      simp [liveProcs, queued]
    refine ⟨rfl, ?_, ?_, ?_, ?_⟩ <;> intro r hr <;> rw [hnone] at hr <;>
      exact absurd hr (Multiset.notMem_zero _)
  apply hinit.bind
  intro k hk
  obtain ⟨h, hn⟩ := hk
  have := events_numbered pf es h hn
  rwa [zero_add] at this

theorem run_append (mem : M) (es es' : List Event) :
    run pf mem (es ++ es') = run pf mem es >>= es'.foldlM (step pf) := by
  rw [run, run, bind_assoc]
  simp only [List.foldlM_append]

theorem exists_creation {n : ℕ} (es : List Event) (h : n < creations es) :
    ∃ es₁ e es₂, es = es₁ ++ e :: es₂ ∧ e.creates = true ∧ creations es₁ = n := by
  induction es generalizing n with
  | nil => simp [creations] at h
  | cons e es ih =>
    cases hc : e.creates with
    | false =>
      have hlt : n < creations es := by simpa [creations, hc] using h
      obtain ⟨es₁, e', es₂, rfl, he', rfl⟩ := ih hlt
      exact ⟨e :: es₁, e', es₂, rfl, he', by simp [creations, hc]⟩
    | true =>
      cases n with
      | zero => exact ⟨[], e, es, rfl, hc, rfl⟩
      | succ n =>
        have hlt : n < creations es := by simpa [creations, hc] using h
        obtain ⟨es₁, e', es₂, rfl, he', rfl⟩ := ih hlt
        exact ⟨e :: es₁, e', es₂, rfl, he', by simp [creations, hc]⟩

/-- Below `2 ^ 16` creations the number of a process is its identifier. -/
theorem Numbered.asidsUnique {c : ℕ} {k : Kernel M} {num : ProcRef → ℕ} (hn : Numbered c k num)
    (hc : c < u16) : AsidsUnique k.sched := by
  have hasid : ∀ r ∈ liveProcs k.sched, asidOf k.sched r = num r := by
    intro r hr
    rw [hn.asid r hr, Nat.mod_eq_of_lt ((hn.le r hr).trans_lt hc)]
  refine ⟨?_, ?_⟩
  · intro r hr s hs hne he
    rw [hasid r hr, hasid s hs] at he
    exact hne (hn.inj r hr s hs he)
  · intro r hr
    have := hn.pos r hr
    rw [hasid r hr]
    omega

/-- Creation number `2 ^ 16` gets the kernel map's identifier. -/
theorem creation_wraps {mem : M} {es : List Event} {k k' : Kernel M} {e : Event}
    (hk : run pf mem es = .ok k) (hc : creations es = u16 - 1) (he : e.creates = true)
    (hk' : step pf k e = .ok k') : ¬ AsidsUnique k'.sched := by
  obtain ⟨hinv, num, hn⟩ := (run_numbered pf mem es).of_ok hk
  obtain ⟨_, num', hn', hlast⟩ := (step_numbered pf hinv hn e).of_ok hk'
  obtain ⟨r, hr, hnum⟩ := hlast he
  intro huniq
  apply huniq.nonzero r hr
  rw [hn'.asid r hr, hnum, hc]
  rfl

theorem exists_wrap {mem : M} {es : List Event} {k : Kernel M} (hes : run pf mem es = .ok k)
    (hge : u16 ≤ creations es) :
    ∃ es', es' <+: es ∧ ∃ k', run pf mem es' = .ok k' ∧ ¬ AsidsUnique k'.sched := by
  have hpos : u16 - 1 < creations es := lt_of_lt_of_le (by decide) hge
  obtain ⟨es₁, e, es₂, rfl, he, hc⟩ := exists_creation es hpos
  rw [run_append] at hes
  cases hk₁ : run pf mem es₁ with
  | error _ => rw [hk₁] at hes; cases hes
  | ok k₁ =>
    rw [hk₁, ok_bind, List.foldlM_cons] at hes
    cases hk₂ : step pf k₁ e with
    | error _ => rw [hk₂] at hes; cases hes
    | ok k₂ =>
      refine ⟨es₁ ++ [e], ⟨es₂, by simp⟩, k₂, ?_, creation_wraps pf hk₁ hc he hk₂⟩
      rw [run_append, hk₁, ok_bind, List.foldlM_cons, hk₂]
      rfl

/-- All states of a run that returns have unique identifiers exactly when the run
creates fewer than `2 ^ 16` processes. -/
theorem run_asidsUnique_iff (mem : M) (es : List Event) :
    Holds Stop.IsHalt (fun _ =>
      (∀ es', es' <+: es →
        Holds (fun _ => True) (fun k => AsidsUnique k.sched) (run pf mem es')) ↔
      creations es < u16) (run pf mem es) := by
  have hrun := run_numbered pf mem es
  cases hes : run pf mem es with
  | error e => rwa [hes] at hrun
  | ok k =>
    change _ ↔ _
    constructor
    · intro hall
      by_contra hge
      obtain ⟨es', hpre, k', hk', hnot⟩ := exists_wrap pf hes (Nat.le_of_not_lt hge)
      exact hnot ((hall es' hpre).of_ok hk')
    · intro hlt es' hpre
      obtain ⟨tl, rfl⟩ := hpre
      have hle : creations es' ≤ creations (es' ++ tl) := by simp [creations]
      cases hes' : run pf mem es' with
      | error _ => trivial
      | ok k' =>
        obtain ⟨_, num, hn⟩ := (run_numbered pf mem es').of_ok hes'
        exact hn.asidsUnique (hle.trans_lt hlt)

/-! ## A run that wraps the counter -/

/-- A memory subsystem in which every call succeeds. -/
def quietPlatform : Platform Unit where
  alloc _ _ := .ok (0x51000000, ())
  free _ _ := .ok ()
  procRoot _ _ _ := .ok (⟨0x51800000, 0x51800000⟩, ())
  kernRoot _ := .ok (⟨0x51800000, 0x51800000⟩, ())
  rootFree _ _ := .ok ()
  cntpct n := n
  jrtExit := 0x50000000

/-- One program after the other, each exiting before the next arrives. -/
def oneAfterAnother (n : ℕ) : List Event :=
  (List.replicate n [Event.scheduleReq 0x50100000 4 4096, Event.exit]).flatten

theorem oneAfterAnother_calm (n : ℕ) {k : Kernel Unit} (h : Calm .p0 k)
    (hfree : 0 < k.sched.nfreeProc) :
    ∃ k', (oneAfterAnother n).foldlM (step quietPlatform) k = .ok k' ∧ Calm .p0 k' ∧
      0 < k'.sched.nfreeProc := by
  induction n generalizing k with
  | zero => exact ⟨k, rfl, h, hfree⟩
  | succ n ih =>
    obtain ⟨k₁, i, h₁, hc₁⟩ := scheduleReq_calm quietPlatform h hfree 0x50100000 4 4096
      rfl (by decide) rfl
    obtain ⟨k₂, h₂, hc₂, hf₂⟩ := exit_calm quietPlatform hc₁ (fun _ _ => ⟨(), rfl⟩)
      (fun _ _ => ⟨(), rfl⟩)
    obtain ⟨k₃, h₃, hc₃⟩ := ih hc₂ hf₂
    refine ⟨k₃, ?_, hc₃⟩
    rw [oneAfterAnother, List.replicate_succ, List.flatten_cons, List.foldlM_append,
      ← oneAfterAnother]
    simp only [List.foldlM_cons, List.foldlM_nil, step, h₁, ok_bind, h₂, pure_bind, h₃]

theorem creations_oneAfterAnother (n : ℕ) : creations (oneAfterAnother n) = n := by
  induction n with
  | zero => rfl
  | succ n ih =>
    have hcons : oneAfterAnother (n + 1) =
        [Event.scheduleReq 0x50100000 4 4096, Event.exit] ++ oneAfterAnother n := rfl
    rw [hcons, creations, List.countP_append, add_comm]
    exact congrArg (· + 1) ih

/-- After `2 ^ 16 - 1` programs have come and gone, the next one runs under the
kernel map's identifier. -/
theorem oneAfterAnother_reuses_asid :
    ∃ k, run quietPlatform ()
      (oneAfterAnother (u16 - 1) ++ [.scheduleReq 0x50100000 4 4096]) = .ok k ∧
      ¬ AsidsUnique k.sched := by
  obtain ⟨k₀, h₀⟩ : ∃ k, schedInit quietPlatform () = .ok k := ⟨_, rfl⟩
  have hinv := (schedInit_inv quietPlatform ()).of_ok h₀
  have hc₀ : Calm .p0 k₀ ∧ 0 < k₀.sched.nfreeProc := by
    obtain rfl := Except.ok.inj h₀
    exact ⟨⟨hinv.places, rfl, rfl, by decide⟩, by decide⟩
  obtain ⟨k₁, h₁, hc₁, hf₁⟩ := oneAfterAnother_calm (u16 - 1) hc₀.1 hc₀.2
  obtain ⟨k₂, _, h₂, _⟩ := scheduleReq_calm quietPlatform hc₁ hf₁ 0x50100000 4 4096
    rfl (by decide) rfl
  have hrun : run quietPlatform () (oneAfterAnother (u16 - 1)) = .ok k₁ := by
    rw [run, h₀, ok_bind, h₁]
  have hstep : step quietPlatform k₁ (.scheduleReq 0x50100000 4 4096) = .ok k₂ := h₂
  refine ⟨k₂, ?_, creation_wraps quietPlatform hrun (creations_oneAfterAnother _) rfl hstep⟩
  rw [run_append, hrun, ok_bind, List.foldlM_cons, hstep]
  rfl

end JanusRT
