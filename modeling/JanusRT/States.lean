import JanusRT.Asid

/-!
# The state field

`p->state` is written apart from the moves between the containers it is meant to mirror.
Every move but one writes both. The exception is `timer_fn`, which moves a sleeper to the
ready heap and leaves its state to the context switch that follows, so the two agree after
it exactly if each woken process is switched to at once.
-/
namespace JanusRT
open Heap Outcome

variable {M : Type}

/-- The state field of slot `i` names the container the slot is in. -/
structure StateAgrees (sc : Sched) (i : ℕ) : Prop where
  ready : (sc.pb i).state = .ready ↔ .pb i ∈ queued sc.ready
  waiting : (sc.pb i).state = .waiting ↔ .pb i ∈ queued sc.waiting
  running : (sc.pb i).state = .running ↔ sc.curr = some (.pb i)
  unused : (sc.pb i).state = .unused ↔ .pb i ∈ freeStack sc

def StatesAgree (sc : Sched) : Prop := ∀ i, i < maxProc → StateAgrees sc i

/-- The same, container by container. -/
structure Labelled (sc : Sched) : Prop where
  free : ∀ r ∈ freeStack sc, (sc.proc r).state = .unused
  ready : ∀ r ∈ queued sc.ready, (sc.proc r).state = .ready
  waiting : ∀ r ∈ queued sc.waiting, (sc.proc r).state = .waiting
  running : ∀ r ∈ running sc.curr, (sc.proc r).state = .running

theorem mem_freeStack {sc : Sched} {r : ProcRef} :
    r ∈ freeStack sc ↔ ∃ n, n < sc.nfreeProc ∧ r = sc.freeProc n := by
  simp [freeStack, Multiset.mem_sum]

/-- Every slot is in some container. -/
theorem Inv.mem_container {sc : Sched} (h : Inv 0 sc) {i : ℕ} (hi : i < maxProc) :
    .pb i ∈ freeStack sc ∨ .pb i ∈ queued sc.ready ∨ .pb i ∈ queued sc.waiting ∨
      .pb i ∈ running sc.curr := by
  have hm : ProcRef.pb i ∈ allProcs := mem_allProcs.mpr ⟨i, hi, rfl⟩
  rw [← h.places] at hm
  simp only [Multiset.mem_add, Multiset.notMem_zero, or_false] at hm
  tauto

/-- Over a partition one direction of the agreement is enough. -/
theorem Labelled.statesAgree {sc : Sched} (hl : Labelled sc) (h : Inv 0 sc) : StatesAgree sc := by
  intro i hi
  have hrun : ProcRef.pb i ∈ JanusRT.running sc.curr ↔ sc.curr = some (.pb i) := by
    rw [mem_running]
    exact ⟨fun hr => hr.1, fun hr => ⟨hr, by simp⟩⟩
  have h1 := hl.free (.pb i)
  have h2 := hl.ready (.pb i)
  have h3 := hl.waiting (.pb i)
  have h4 := hl.running (.pb i)
  rw [hrun] at h4
  have hc := h.mem_container hi
  rw [hrun] at hc
  simp only [Sched.proc] at h1 h2 h3 h4
  -- it lies in some container, and a container of another state would have labelled it
  constructor
  · refine ⟨fun hs => ?_, h2⟩
    obtain hx | hx | hx | hx := hc
    · exact absurd (hs.symm.trans (h1 hx)) (by decide)
    · exact hx
    · exact absurd (hs.symm.trans (h3 hx)) (by decide)
    · exact absurd (hs.symm.trans (h4 hx)) (by decide)
  · refine ⟨fun hs => ?_, h3⟩
    obtain hx | hx | hx | hx := hc
    · exact absurd (hs.symm.trans (h1 hx)) (by decide)
    · exact absurd (hs.symm.trans (h2 hx)) (by decide)
    · exact hx
    · exact absurd (hs.symm.trans (h4 hx)) (by decide)
  · refine ⟨fun hs => ?_, h4⟩
    obtain hx | hx | hx | hx := hc
    · exact absurd (hs.symm.trans (h1 hx)) (by decide)
    · exact absurd (hs.symm.trans (h2 hx)) (by decide)
    · exact absurd (hs.symm.trans (h3 hx)) (by decide)
    · exact hx
  · refine ⟨fun hs => ?_, h1⟩
    obtain hx | hx | hx | hx := hc
    · exact hx
    · exact absurd (hs.symm.trans (h2 hx)) (by decide)
    · exact absurd (hs.symm.trans (h3 hx)) (by decide)
    · exact absurd (hs.symm.trans (h4 hx)) (by decide)

theorem StatesAgree.labelled {sc : Sched} (ha : StatesAgree sc) (h : Inv 0 sc) : Labelled sc := by
  have hslot : ∀ r ∈ freeStack sc + queued sc.ready + queued sc.waiting + running sc.curr,
      ∃ i, i < maxProc ∧ r = .pb i := by
    intro r hr
    apply mem_allProcs.mp
    rw [← h.places, add_zero]
    exact hr
  constructor
  · intro r hr
    obtain ⟨i, hi, rfl⟩ := hslot r (by simp [hr])
    exact (ha i hi).unused.mpr hr
  · intro r hr
    obtain ⟨i, hi, rfl⟩ := hslot r (by simp [hr])
    exact (ha i hi).ready.mpr hr
  · intro r hr
    obtain ⟨i, hi, rfl⟩ := hslot r (by simp [hr])
    exact (ha i hi).waiting.mpr hr
  · intro r hr
    obtain ⟨i, hi, rfl⟩ := hslot r (by simp [hr])
    exact (ha i hi).running.mpr (mem_running.mp hr).1

/-! ## What a switch writes -/

/-- A switch from `cur` to the head of the ready heap. -/
structure Preempts (sc sc' : Sched) (cur : ProcRef) (i : ℕ) : Prop where
  from_curr : sc.curr = some cur
  to_curr : sc'.curr = some (.pb i)
  ready : running sc.curr + queued sc.ready = .pb i ::ₘ queued sc'.ready
  head : .pb i ∈ queued sc.ready
  due : ∀ c, cur = .pb c → (sc.pb i).effDeadline < (sc.pb c).effDeadline
  states : ∀ r, (sc'.proc r).state =
    if r = cur then .ready else if r = .pb i then .running else (sc.proc r).state

theorem setState_state (sc : Sched) (p r : ProcRef) (s : State) :
    ((setState sc p s).proc r).state = if r = p then s else (sc.proc r).state := by
  simp only [setState, Sched.proc_modify]
  split_ifs with h
  · rfl
  · rfl

/-- `heap_push` as `sched_ready_proc` calls it returns only on success. -/
theorem schedReadyProc_ok {sc sc' : Sched} {i : ℕ} (hi : i < maxProc) (hw : Wf sc.ready)
    (hr : schedReadyProc sc (i + 1) = .ok sc') :
    ∃ h', sc' = { sc with ready := h' } ∧ queued h' = .pb i ::ₘ queued sc.ready := by
  rw [schedReadyProc, schedGetProc_succ hi, ok_bind] at hr
  have hspec : Holds Stop.IsHalt (fun s => ∃ h', s = { sc with ready := h' } ∧
      queued h' = .pb i ::ₘ queued sc.ready)
      (heapPushOrPanic sc.ready (sc.proc (.pb i)).effDeadline (.pb i) >>= fun h =>
        pure { sc with ready := h }) := by
    apply (heapPushOrPanic_spec hw _ _).bind
    intro h' hh'
    obtain ⟨-, hc⟩ := hh'
    exact ⟨h', rfl, queued_cons hc⟩
  exact hspec.of_ok hr

theorem schedPreempt_cases {sc sc' : Sched} {cur : ProcRef} (h : Inv 0 sc)
    (hcur : sc.curr = some cur) (hpos : 0 < sc.ready.len)
    (hdue : ∀ c, cur = .pb c → ∀ key p, heapPeek sc.ready = some (key, p) →
      key < (sc.pb c).effDeadline)
    (hok : schedPreempt schedSwitchIrq sc cur cur = .ok sc') : ∃ i, Preempts sc sc' cur i := by
  obtain ⟨key, p, h', hpop, hpeek, hw, _, _, hcont⟩ := heapPop_spec sc.ready h.ready_wf hpos
  have hq := queued_cons hcont
  obtain ⟨i, hi, rfl⟩ := h.slot_of_ready (hq ▸ Multiset.mem_cons_self _ _)
  obtain ⟨hkey, -⟩ := h.pop_least hpeek hcont
  have hdue' : ∀ c, cur = .pb c → (sc.pb i).effDeadline < (sc.pb c).effDeadline := by
    intro c hc
    have := hdue c hc key _ hpeek
    rwa [hkey] at this
  have hinv := ((h.pop_ready hw hcont).setState (.pb i) .running).setState cur .ready
  unfold schedPreempt at hok
  rw [hpop] at hok
  simp only [Option.map_some, deref, ok_bind] at hok
  generalize hs : setState (setState { sc with ready := h' } (.pb i) .running) cur .ready = s
    at hinv hok
  have hsready : s.ready = h' := by rw [← hs]; simp
  have hscurr : s.curr = some cur := by rw [← hs]; simpa using hcur
  have hstate : ∀ r, (s.proc r).state =
      if r = cur then .ready else if r = .pb i then .running else (sc.proc r).state := by
    intro r
    rw [← hs, setState_state, setState_state]
    cases r <;> rfl
  refine ⟨i, ?_⟩
  cases cur with
  | p0 =>
    have hp : (s.proc .p0).pid = 0 := hinv.p0_pid
    rw [if_neg (by simp [hp])] at hok
    obtain rfl := Except.ok.inj hok
    refine ⟨hcur, rfl, ?_, ?_, hdue', ?_⟩
    · simp [hcur, hq, schedSwitchIrq, hsready]
    · rw [hq]
      exact Multiset.mem_cons_self _ _
    · intro r
      rw [← hstate r]
      cases r <;> rfl
  | pb j =>
    have hj : j < maxProc := h.slot_of_curr hcur
    have hp : (s.proc (.pb j)).pid = j + 1 := hinv.pb_pid j hj
    rw [hp, if_pos (Nat.succ_ne_zero j)] at hok
    cases hpush : schedReadyProc s (j + 1) with
    | error e =>
      rw [hpush] at hok
      cases hok
    | ok s' =>
      obtain ⟨h'', rfl, hq''⟩ := schedReadyProc_ok hj hinv.ready_wf hpush
      rw [hpush] at hok
      obtain rfl := Except.ok.inj hok
      refine ⟨hcur, rfl, ?_, ?_, hdue', ?_⟩
      · simp only [hcur, running_pb, schedSwitchIrq, hq'', hsready, hq, Multiset.singleton_add]
        exact Multiset.cons_swap _ _ _
      · rw [hq]
        exact Multiset.mem_cons_self _ _
      · intro r
        rw [← hstate r]
        cases r <;> rfl

/-- With something ready, `sched` does nothing, and then the running process is as urgent
as all ready ones, or it switches. -/
theorem sched_cases {sc sc' : Sched} (h : Inv 0 sc) (hpos : 0 < sc.ready.len)
    (hok : sched schedSwitchIrq sc = .ok sc') :
    (sc' = sc ∧ ∃ c, sc.curr = some (.pb c) ∧
      ∀ r ∈ queued sc.ready, (sc.pb c).effDeadline ≤ (sc.proc r).effDeadline) ∨
    ∃ cur i, Preempts sc sc' cur i := by
  obtain ⟨key, p, hpeek, hmem, hmin⟩ := heapPeek_spec sc.ready h.ready_wf.ordered hpos
  obtain ⟨cur, hcur, hpid, hget⟩ := p0OrProc_spec h
  have hget' : p0OrProc (sc.proc cur).pid sc.pid = .ok cur := by rw [← hpid]; exact hget
  have hpeek' : ∀ k q, heapPeek sc.ready = some (k, q) → k = key := by
    intro k q hk
    rw [hpeek] at hk
    simp only [Option.some.injEq, Prod.mk.injEq] at hk
    exact hk.1.symm
  unfold sched at hok
  rw [hpeek] at hok
  simp only [reduceCtorEq, false_and, if_false, hcur, deref, ok_bind, hget'] at hok
  split_ifs at hok with hz hlt
  · refine Or.inr ⟨cur, schedPreempt_cases h hcur hpos ?_ hok⟩
    rintro c rfl
    have := h.pb_pid c (h.slot_of_curr hcur)
    simp only [Sched.proc] at hz
    omega
  · refine Or.inr ⟨cur, schedPreempt_cases h hcur hpos ?_ hok⟩
    rintro c rfl k q hk
    rw [hpeek' k q hk]
    exact hlt
  · obtain rfl := Except.ok.inj hok
    refine Or.inl ⟨rfl, ?_⟩
    cases cur with
    | p0 => exact absurd h.p0_pid hz
    | pb c =>
      refine ⟨c, hcur, ?_⟩
      intro r hr
      obtain ⟨key', hkey'⟩ := mem_queued.mp hr
      have hle := (Nat.le_of_not_lt hlt).trans (hmin _ hkey')
      exact hle.trans_eq (h.ready_key _ hkey')

/-- A voluntary switch from `c` to `n`. -/
structure Yields (sc sc' : Sched) (c n : ProcRef) : Prop where
  from_curr : sc.curr = some c
  to_curr : sc'.curr = some n
  ready : queued sc.ready = running (some n) + queued sc'.ready
  states : ∀ r, (sc'.proc r).state = if r = n then .running else (sc.proc r).state

theorem schedYield_cases {sc : Sched} {y : ProcRef × Sched} (h : Inv 0 sc)
    (hok : schedYield sc = .ok y) : ∃ n, Yields sc y.2 y.1 n := by
  unfold schedYield at hok
  by_cases hz : sc.ready.len = 0
  · obtain ⟨r, hr, _, hc⟩ := p0OrProc_spec (h.setState .p0 .running)
    rw [heapPop_empty sc.ready hz] at hok
    simp only [Option.map_none, Option.getD_none] at hok
    rw [hc] at hok
    obtain rfl := Except.ok.inj hok
    refine ⟨.p0, by simpa using hr, rfl, by simp [schedSwitchIrq], ?_⟩
    intro q
    rw [← setState_state]
    cases q <;> rfl
  · have hpos : 0 < sc.ready.len := Nat.pos_of_ne_zero hz
    obtain ⟨key, p, h', hpop, hpeek, hw, _, _, hcont⟩ := heapPop_spec sc.ready h.ready_wf hpos
    have hq := queued_cons hcont
    obtain ⟨i, hi, rfl⟩ := h.slot_of_ready (hq ▸ Multiset.mem_cons_self _ _)
    obtain ⟨r, hr, _, hc⟩ := p0OrProc_spec ((h.pop_ready hw hcont).setState (.pb i) .running)
    rw [hpop] at hok
    simp only [Option.map_some, Option.getD_some] at hok
    rw [hc] at hok
    obtain rfl := Except.ok.inj hok
    refine ⟨.pb i, by simpa using hr, rfl, by simp [schedSwitchIrq, hq], ?_⟩
    intro q
    have := setState_state { sc with ready := h' } (.pb i) q .running
    cases q <;> exact this

/-! ## Moves that write both halves -/

/-- What is in one container is in no other. -/
theorem Inv.apart {held : Multiset ProcRef} {sc : Sched} (h : Inv held sc) (r : ProcRef) :
    (freeStack sc).count r + (queued sc.ready).count r + (queued sc.waiting).count r +
      (running sc.curr).count r + held.count r ≤ 1 := by
  have hle := Multiset.nodup_iff_count_le_one.mp h.nodup r
  simpa only [Multiset.count_add] using hle

/-- The kernel process is in no container. -/
theorem Inv.ne_p0 {held : Multiset ProcRef} {sc : Sched} (h : Inv held sc) {r : ProcRef}
    (hr : r ∈ freeStack sc + queued sc.ready + queued sc.waiting) : r ≠ .p0 := by
  rintro rfl
  have hm : ProcRef.p0 ∈ allProcs := by
    rw [← h.places, add_assoc]
    exact Multiset.mem_add.mpr (Or.inl hr)
  obtain ⟨i, -, hi⟩ := mem_allProcs.mp hm
  cases hi

theorem Inv.ne_curr {held : Multiset ProcRef} {sc : Sched} (h : Inv held sc) {r c : ProcRef}
    (hr : r ∈ freeStack sc + queued sc.ready + queued sc.waiting) (hc : sc.curr = some c) :
    r ≠ c := by
  rintro rfl
  have hrun := Multiset.one_le_count_iff_mem.mpr (mem_running.mpr ⟨hc, h.ne_p0 hr⟩)
  have hone := Multiset.one_le_count_iff_mem.mpr hr
  have hap := h.apart r
  rw [Multiset.count_add, Multiset.count_add] at hone
  omega

/-- A process that is ready is neither free nor asleep. -/
theorem Inv.ne_ready {held : Multiset ProcRef} {sc : Sched} (h : Inv held sc) {r p : ProcRef}
    (hr : r ∈ freeStack sc + queued sc.waiting) (hp : p ∈ queued sc.ready) : r ≠ p := by
  rintro rfl
  have hone := Multiset.one_le_count_iff_mem.mpr hr
  have htwo := Multiset.one_le_count_iff_mem.mpr hp
  have hap := h.apart r
  rw [Multiset.count_add] at hone
  omega

theorem Labelled.yields {sc sc' : Sched} {c n : ProcRef} (hl : Labelled sc) (h : Inv 0 sc)
    (hy : Yields sc sc' c n) (hf : Frame sc sc') : Labelled sc' := by
  have hfree : freeStack sc' = freeStack sc := by simp [freeStack, hf.freeProc, hf.nfreeProc]
  have hsub : ∀ r ∈ queued sc'.ready, r ∈ queued sc.ready := by
    intro r hr
    rw [hy.ready]
    exact Multiset.mem_add.mpr (Or.inr hr)
  -- what stays in a container is not the process switched to
  have hne : ∀ r, r ∈ freeStack sc + queued sc'.ready + queued sc.waiting → r ≠ n := by
    intro r hr
    have hr0 : r ≠ .p0 := by
      apply h.ne_p0
      simp only [Multiset.mem_add] at hr ⊢
      have := hsub r
      tauto
    rintro rfl
    have hrun := Multiset.one_le_count_iff_mem.mpr (mem_running.mpr ⟨rfl, hr0⟩)
    have hone := Multiset.one_le_count_iff_mem.mpr hr
    have hap := h.apart r
    rw [hy.ready] at hap
    simp only [Multiset.count_add] at hap hone
    omega
  constructor
  · intro r hr
    rw [hfree] at hr
    rw [hy.states, if_neg (hne r (by simp [hr]))]
    exact hl.free r hr
  · intro r hr
    rw [hy.states, if_neg (hne r (by simp [hr]))]
    exact hl.ready r (hsub r hr)
  · intro r hr
    rw [hf.waiting] at hr
    rw [hy.states, if_neg (hne r (by simp [hr]))]
    exact hl.waiting r hr
  · intro r hr
    rw [hy.to_curr, mem_running, Option.some.injEq] at hr
    rw [hy.states, if_pos hr.1.symm]

/-- `Labelled` but for the state of one process in the ready heap. -/
structure LabelledBut (p : ProcRef) (sc : Sched) : Prop where
  free : ∀ r ∈ freeStack sc, (sc.proc r).state = .unused
  ready : ∀ r ∈ queued sc.ready, r ≠ p → (sc.proc r).state = .ready
  waiting : ∀ r ∈ queued sc.waiting, (sc.proc r).state = .waiting
  running : ∀ r ∈ running sc.curr, (sc.proc r).state = .running

theorem LabelledBut.labelled {p : ProcRef} {sc : Sched} (hl : LabelledBut p sc)
    (hp : (sc.proc p).state = .ready) : Labelled sc := by
  refine ⟨hl.free, ?_, hl.waiting, hl.running⟩
  intro r hr
  by_cases he : r = p
  · rw [he, hp]
  · exact hl.ready r hr he

/-- A switch repairs the state of the process it switches to. -/
theorem LabelledBut.preempts {sc sc' : Sched} {cur : ProcRef} {i : ℕ}
    (hl : LabelledBut (.pb i) sc) (h : Inv 0 sc) (hp : Preempts sc sc' cur i) (hf : Frame sc sc') :
    Labelled sc' := by
  have hfree : freeStack sc' = freeStack sc := by simp [freeStack, hf.freeProc, hf.nfreeProc]
  have hcur : .pb i ≠ cur := h.ne_curr (by simp [hp.head]) hp.from_curr
  have hne : ∀ r, r ∈ freeStack sc + queued sc.waiting → r ≠ cur ∧ r ≠ .pb i := by
    intro r hr
    refine ⟨h.ne_curr ?_ hp.from_curr, h.ne_ready hr hp.head⟩
    simp only [Multiset.mem_add] at hr ⊢
    tauto
  constructor
  · intro r hr
    rw [hfree] at hr
    obtain ⟨h1, h2⟩ := hne r (by simp [hr])
    rw [hp.states, if_neg h1, if_neg h2]
    exact hl.free r hr
  · intro r hr
    rw [hp.states]
    split_ifs with h1 h2
    · rfl
    · -- the process switched to has left the heap
      exfalso
      subst h2
      have hcount := congrArg (Multiset.count (ProcRef.pb i)) hp.ready
      rw [Multiset.count_add, Multiset.count_cons_self] at hcount
      have hone := Multiset.one_le_count_iff_mem.mpr hr
      have hap := h.apart (.pb i)
      omega
    · have hr' : r ∈ JanusRT.running sc.curr + queued sc.ready := by
        rw [hp.ready]
        exact Multiset.mem_cons_of_mem hr
      obtain hr' | hr' := Multiset.mem_add.mp hr'
      · have hc := (mem_running.mp hr').1
        rw [hp.from_curr, Option.some.injEq] at hc
        exact absurd hc.symm h1
      · exact hl.ready r hr' h2
  · intro r hr
    rw [hf.waiting] at hr
    obtain ⟨h1, h2⟩ := hne r (by simp [hr])
    rw [hp.states, if_neg h1, if_neg h2]
    exact hl.waiting r hr
  · intro r hr
    rw [hp.to_curr, mem_running, Option.some.injEq] at hr
    obtain ⟨rfl, -⟩ := hr
    rw [hp.states, if_neg hcur, if_pos rfl]

/-- Writing a process that is in no container. -/
theorem Labelled.modify_held {held : Multiset ProcRef} {sc : Sched} (hl : Labelled sc)
    (h : Inv held sc) {p : ProcRef} (hp : p ∈ held) (f : Proc → Proc) :
    Labelled (sc.modify p f) := by
  have hne : ∀ r, r ∈ freeStack sc + queued sc.ready + queued sc.waiting + JanusRT.running sc.curr →
      ((sc.modify p f).proc r).state = (sc.proc r).state := by
    intro r hr
    rw [Sched.proc_modify, if_neg]
    rintro rfl
    exact h.disjoint_held hp hr
  have hfree : freeStack (sc.modify p f) = freeStack sc := by simp [freeStack]
  constructor
  · intro r hr
    rw [hfree] at hr
    rw [hne r (by simp [hr])]
    exact hl.free r hr
  · intro r hr
    rw [Sched.modify_ready] at hr
    rw [hne r (by simp [hr])]
    exact hl.ready r hr
  · intro r hr
    rw [Sched.modify_waiting] at hr
    rw [hne r (by simp [hr])]
    exact hl.waiting r hr
  · intro r hr
    rw [Sched.modify_curr] at hr
    rw [hne r (by simp [hr])]
    exact hl.running r hr

theorem Labelled.alloc {sc : Sched} (hl : Labelled sc) :
    Labelled { sc with nfreeProc := sc.nfreeProc - 1 } := by
  refine ⟨?_, hl.ready, hl.waiting, hl.running⟩
  intro r hr
  obtain ⟨n, hn, rfl⟩ := mem_freeStack.mp hr
  exact hl.free _ (mem_freeStack.mpr ⟨n, by dsimp only at hn; omega, rfl⟩)

theorem Labelled.release {sc : Sched} (hl : Labelled sc) {p : ProcRef}
    (hp : (sc.proc p).state = .unused) :
    Labelled { sc with
      freeProc := Function.update sc.freeProc sc.nfreeProc p
      nfreeProc := sc.nfreeProc + 1 } := by
  refine ⟨?_, hl.ready, hl.waiting, hl.running⟩
  intro r hr
  obtain ⟨n, hn, rfl⟩ := mem_freeStack.mp hr
  dsimp only at hn ⊢
  by_cases he : n = sc.nfreeProc
  · rw [he, Function.update_self]
    exact hp
  · rw [Function.update_of_ne he]
    exact hl.free _ (mem_freeStack.mpr ⟨n, by omega, rfl⟩)

theorem Labelled.push_waiting {sc : Sched} (hl : Labelled sc) {p : ProcRef} {h' : MinHeap ProcRef}
    (hq : queued h' = p ::ₘ queued sc.waiting) (hp : (sc.proc p).state = .waiting) :
    Labelled { sc with waiting := h' } := by
  refine ⟨hl.free, hl.ready, ?_, hl.running⟩
  intro r hr
  dsimp only at hr
  rw [hq, Multiset.mem_cons] at hr
  obtain rfl | hr := hr
  · exact hp
  · exact hl.waiting r hr

theorem Labelled.pop_waiting {sc : Sched} (hl : Labelled sc) {p : ProcRef} {h' : MinHeap ProcRef}
    (hq : queued sc.waiting = p ::ₘ queued h') : Labelled { sc with waiting := h' } := by
  refine ⟨hl.free, hl.ready, ?_, hl.running⟩
  intro r hr
  exact hl.waiting r (by rw [hq]; exact Multiset.mem_cons_of_mem hr)

theorem Labelled.push_ready {sc : Sched} (hl : Labelled sc) {p : ProcRef} {h' : MinHeap ProcRef}
    (hq : queued h' = p ::ₘ queued sc.ready) : LabelledBut p { sc with ready := h' } := by
  refine ⟨hl.free, ?_, hl.waiting, hl.running⟩
  intro r hr hne
  dsimp only at hr
  rw [hq, Multiset.mem_cons] at hr
  exact hl.ready r (hr.resolve_left hne)

theorem Edf.modify_held {held : Multiset ProcRef} {sc : Sched} (he : Edf sc) (h : Inv held sc)
    {p : ProcRef} (hp : p ∈ held) (f : Proc → Proc) : Edf (sc.modify p f) := by
  refine ⟨?_, ?_⟩
  · intro c hc x hx
    rw [Sched.modify_curr] at hc
    rw [Sched.modify_ready] at hx
    have hne : ProcRef.pb c ≠ p := by
      rintro rfl
      exact h.disjoint_held hp (by simp [hc])
    have hsame := Sched.proc_modify sc p (.pb c) f
    rw [if_neg hne] at hsame
    have hsame' : (sc.modify p f).pb c = sc.pb c := hsame
    rw [hsame']
    exact he.1 c hc x hx
  · intro hc
    rw [Sched.modify_curr] at hc
    rw [Sched.modify_ready]
    exact he.2 hc

/-- Whom `p` must be more urgent than to run at once. -/
def Urgent (sc : Sched) (p : ProcRef) : Prop :=
  ∀ c, sc.curr = some (.pb c) → (sc.proc p).effDeadline < (sc.pb c).effDeadline

/-- Under the earliest deadline rule a process that becomes ready either stays in the heap
or is itself the one switched to. -/
theorem readyThenSched_cases {sc sc' : Sched} {i : ℕ} (h : Inv (.pb i ::ₘ 0) sc) (he : Edf sc)
    (hok : (schedReadyProc sc (i + 1) >>= sched schedSwitchIrq) = .ok sc') :
    ∃ h', queued h' = .pb i ::ₘ queued sc.ready ∧ Inv 0 { sc with ready := h' } ∧
      ((¬Urgent sc (.pb i) ∧ sc' = { sc with ready := h' }) ∨
        (Urgent sc (.pb i) ∧ ∃ cur, Preempts { sc with ready := h' } sc' cur i)) := by
  cases hr : schedReadyProc sc (i + 1) with
  | error e =>
    rw [hr] at hok
    cases hok
  | ok s =>
    rw [hr, ok_bind] at hok
    obtain ⟨hinv, h', rfl, hcont⟩ := (schedReadyProc_spec h).of_ok hr
    have hq := queued_cons hcont
    have hpos : 0 < h'.len := by
      rw [← card_contents, hcont]
      simp
    refine ⟨h', hq, hinv, ?_⟩
    obtain ⟨rfl, c, hc, hle⟩ | ⟨cur, j, hp⟩ := sched_cases hinv hpos hok
    · refine Or.inl ⟨?_, rfl⟩
      intro hu
      have hlt := hu c hc
      have := hle (.pb i) (by dsimp only; rw [hq]; exact Multiset.mem_cons_self _ _)
      exact absurd hlt (Nat.not_lt.mpr this)
    · right
      have hj : j = i := by
        have hhead := hp.head
        dsimp only at hhead
        rw [hq, Multiset.mem_cons, ProcRef.pb.injEq] at hhead
        apply hhead.resolve_right
        intro hmem
        cases cur with
        | p0 =>
          have hz := he.2 hp.from_curr
          obtain ⟨key, hkey⟩ := mem_queued.mp hmem
          rw [contents_eq_zero.mpr hz] at hkey
          exact Multiset.notMem_zero _ hkey
        | pb c =>
          obtain ⟨key, hkey⟩ := mem_queued.mp hmem
          have h1 := he.1 c hp.from_curr _ hkey
          have h2 := h.ready_key _ hkey
          have h3 : (sc.pb j).effDeadline < (sc.pb c).effDeadline := hp.due c rfl
          simp only [Sched.proc] at h1 h2
          omega
      subst hj
      refine ⟨?_, cur, hp⟩
      intro c hc
      have hcur := hp.from_curr
      dsimp only at hcur
      rw [hc, Option.some.injEq] at hcur
      exact hp.due c hcur.symm

/-! ## Handlers -/

theorem Frame.push {sc sc' : Sched} (h : Frame sc sc') (h' : MinHeap ProcRef) :
    Frame { sc with ready := h' } sc' where
  procs r := by
    obtain ⟨s, hs⟩ := h.procs r
    exact ⟨s, by rw [hs]; cases r <;> rfl⟩
  waiting := h.waiting
  freeProc := h.freeProc
  nfreeProc := h.nfreeProc

/-- A held process whose state says ready is queued or run with the right state. -/
theorem readyThenSched_labelled {sc : Sched} {i : ℕ} (h : Inv (.pb i ::ₘ 0) sc) (he : Edf sc)
    (hl : Labelled sc) (hs : (sc.pb i).state = .ready) :
    Holds Stop.IsHalt Labelled (schedReadyProc sc (i + 1) >>= sched schedSwitchIrq) := by
  apply (readyThenSched_spec h).of_value
  rintro sc' hok ⟨-, -, hframe⟩
  obtain ⟨h', hq, hinv, ⟨-, rfl⟩ | ⟨-, cur, hp⟩⟩ := readyThenSched_cases h he hok
  · exact (hl.push_ready hq).labelled hs
  · exact (hl.push_ready hq).preempts hinv hp (hframe.push h')

variable (pf : Platform M)

/-- A new slot has been written and is in no container. -/
theorem created_labelled {sc : Sched} {i : ℕ} (h : Inv 0 sc) (he : Edf sc) (hl : Labelled sc)
    (hpos : 0 < sc.nfreeProc) (hp : sc.freeProc (sc.nfreeProc - 1) = .pb i) (f : Proc → Proc) :
    Edf ({ sc with nfreeProc := sc.nfreeProc - 1 }.modify (.pb i) f) ∧
      Labelled ({ sc with nfreeProc := sc.nfreeProc - 1 }.modify (.pb i) f) := by
  have hinv := h.alloc hpos
  rw [hp] at hinv
  have hedf : Edf { sc with nfreeProc := sc.nfreeProc - 1 } := he.congr rfl rfl (fun _ => rfl)
  exact ⟨hedf.modify_held hinv (Multiset.mem_cons_self _ _) f,
    hl.alloc.modify_held hinv (Multiset.mem_cons_self _ _) f⟩

theorem scheduleReq_labelled {k : Kernel M} (h : KernelInv k) (hl : Labelled k.sched)
    (pc progSize memReq : ℕ) :
    Holds Stop.IsHalt (fun k' => Labelled k'.sched) (scheduleReq pf k pc progSize memReq) := by
  unfold scheduleReq
  apply (holds_call _).bind
  rintro ⟨mem, m⟩ ha
  simp only
  split_ifs with hz
  · trivial
  refine (schedNewProc_spec pf (k := { k with mem := m }) h.places pc progSize mem memReq 0
    pf.jrtExit).bind ?_
  rintro ⟨_, _⟩ ⟨i, root, m', hroot, hpos, hp, rfl, rfl, hinv⟩
  dsimp only at hroot hpos hp hinv ⊢
  obtain ⟨hedf, hnew⟩ := created_labelled h.places h.edf hl hpos hp
    (fun q => newProc q pc progSize mem memReq 0 pf.jrtExit ⟨root, k.asid⟩)
  rw [← bind_assoc]
  apply (readyThenSched_labelled hinv hedf hnew (by simp [Sched.modify, newProc])).bind
  intro sc' hl'
  exact hl'

theorem spawn_labelled {k : Kernel M} (h : KernelInv k) (hl : Labelled k.sched)
    (deadline ep ap memReq : ℕ) :
    Holds Stop.IsHalt (fun k' => Labelled k'.sched) (spawn pf k deadline ep ap memReq) := by
  unfold spawn
  apply (holds_call _).bind
  rintro ⟨mem, m⟩ ha
  obtain ⟨cur, hcur, _⟩ := h.places.curr
  simp only [hcur, deref, ok_bind]
  refine (schedNewProc_spec pf (k := { k with mem := m }) h.places _ _ mem memReq deadline
    pf.jrtExit).bind ?_
  rintro ⟨_, _⟩ ⟨i, root, m', hroot, hpos, hp, rfl, rfl, hinv⟩
  obtain ⟨j, hj, he⟩ := hinv.slot_of_held (Multiset.mem_cons_self _ _)
  injection he with he
  subst j
  dsimp only at hroot hpos hp hinv ⊢
  obtain ⟨hedf, hnew⟩ := created_labelled h.places h.edf hl hpos hp
    (fun q => newProc q (k.sched.proc cur).paPc (k.sched.proc cur).progSize mem memReq deadline
      pf.jrtExit ⟨root, k.asid⟩)
  simp only [schedGetProc_succ hj, ok_bind]
  rw [← bind_assoc]
  have hmem : ProcRef.pb i ∈ (ProcRef.pb i ::ₘ 0) := Multiset.mem_cons_self _ _
  have hmod := hinv.modify_held hmem
    (fun q => { q with ctx := { q.ctx with pc := ep, x := Function.update q.ctx.x 2 ap } })
    (fun _ => rfl)
  refine (readyThenSched_labelled hmod (hedf.modify_held hinv hmem _)
    (hnew.modify_held hinv hmem _) (by simp [Sched.modify, newProc])).bind ?_
  intro sc' hl'
  exact hl'

theorem exit_labelled {k : Kernel M} (h : KernelInv k) (hl : Labelled k.sched) :
    Holds Stop.IsHalt (fun k' => Labelled k'.sched) (exit pf k) := by
  unfold exit
  apply ((schedYield_spec h.places).of_value (fun y hy hs => And.intro hy hs)).bind
  rintro ⟨c, sc⟩ ⟨hok, hcur, hinv, hedf, hframe⟩
  obtain ⟨n, hy⟩ := schedYield_cases h.places hok
  have hl' := hl.yields h.places hy hframe
  dsimp only at hcur hinv hedf hframe hl' ⊢
  cases c with
  | p0 =>
    have hz : (sc.proc .p0).pid = 0 := hinv.p0_pid
    rw [hz, schedFreeProc, schedGetProc_zero]
    trivial
  | pb i =>
    rw [hcur] at hinv
    have hi : i < maxProc := h.places.slot_of_curr hcur
    have hheld : Inv (.pb i ::ₘ 0) sc := hinv
    have hpid : (sc.proc (.pb i)).pid = i + 1 := hinv.pb_pid i hi
    rw [hpid]
    apply (schedFreeProc_spec pf (k := { k with sched := sc }) hheld).mono
    intro out hout
    obtain ⟨m, m', -, -, rfl, -⟩ := hout
    have hmod := hl'.modify_held hheld (Multiset.mem_cons_self _ _)
      (fun q => { q with state := .unused, ctx := { q.ctx with mmap := noMap } })
    have hrel := hmod.release (p := .pb i) (by simp [Sched.modify, Sched.proc])
    simpa only [Sched.modify_freeProc, Sched.modify_nfreeProc] using hrel

theorem waitUntil_labelled {k : Kernel M} (h : KernelInv k) (hl : Labelled k.sched) (u : ℕ) :
    Holds Stop.IsHalt (fun k' => Labelled k'.sched) (waitUntil pf k u) := by
  unfold waitUntil
  apply ((schedYield_spec h.places).of_value (fun y hy hs => And.intro hy hs)).bind
  rintro ⟨c, sc⟩ ⟨hok, hcur, hinv, hedf, hframe⟩
  obtain ⟨n, hy⟩ := schedYield_cases h.places hok
  have hl' := hl.yields h.places hy hframe
  dsimp only at hcur hinv hedf hframe hl' ⊢
  cases c with
  | p0 =>
    have hz : ((sc.modify .p0 fun q => { q with waitUntil := u, state := .waiting }).proc .p0).pid
        = 0 := by
      rw [Sched.proc_modify, if_pos rfl]
      exact hinv.p0_pid
    rw [hz, schedWaitProc, schedGetProc_zero]
    trivial
  | pb i =>
    rw [hcur] at hinv
    have hi : i < maxProc := h.places.slot_of_curr hcur
    have hheld : Inv (.pb i ::ₘ 0) sc := hinv
    have hmem : ProcRef.pb i ∈ (ProcRef.pb i ::ₘ 0) := Multiset.mem_cons_self _ _
    have hmod := hheld.modify_held hmem
      (fun q => { q with waitUntil := u, state := .waiting }) (fun _ => rfl)
    have hlmod := hl'.modify_held hheld hmem (fun q => { q with waitUntil := u, state := .waiting })
    have hpid : ((sc.modify (.pb i) fun q =>
        { q with waitUntil := u, state := .waiting }).proc (.pb i)).pid = i + 1 :=
      hmod.pb_pid i hi
    rw [hpid]
    apply (schedWaitProc_spec hmod).bind
    intro out hout
    obtain ⟨-, h', rfl, hc⟩ := hout
    have hlab := hlmod.push_waiting (queued_cons hc) (by simp [Sched.modify, Sched.proc])
    split
    · exact hlab
    · split_ifs
      · exact hlab
      · exact hlab

/-! ## Waking -/

/-- The sleepers that `timer_fn` finds due, in the order in which it wakes them. The
`reads`-th reading of the counter is compared with the first one's time, and so on. -/
def dueSleepers : ℕ → MinHeap ProcRef → ℕ → List ProcRef
  | 0, _, _ => []
  | n + 1, w, reads =>
    match (heapPop w).1 with
    | none => []
    | some (dl, p) =>
      if pf.cntpct reads < dl then [] else p :: dueSleepers n (heapPop w).2 (reads + 1)

/-- The running process, unless it is the kernel's. -/
def interrupted (sc : Sched) : List ProcRef :=
  match sc.curr with
  | some (.pb i) => [.pb i]
  | _ => []

/-- Each process is more urgent than the one before it. -/
def Urgency (sc : Sched) (ps : List ProcRef) : Prop :=
  (ps.map fun r => (sc.proc r).effDeadline).IsChain (· > ·)

/-- Every sleeper that is due is more urgent than the process running when it is woken,
which is the one woken before it or, at first, the interrupted one. -/
def WakesPreempt (k : Kernel M) : Prop :=
  Urgency k.sched (interrupted k.sched ++
    dueSleepers pf k.sched.waiting.len k.sched.waiting k.reads)

theorem Urgency.congr {sc sc' : Sched} (h : SameProcs sc sc') (ps : List ProcRef) :
    Urgency sc' ps ↔ Urgency sc ps := by
  have he : ∀ r, (sc'.proc r).effDeadline = (sc.proc r).effDeadline := by
    intro r
    obtain ⟨s, hs⟩ := h r
    rw [hs]
  simp only [Urgency, he]

/-- The first process of the sequence decides whether it preempts. -/
theorem urgency_cons {sc : Sched} (hc : sc.curr ≠ none) (p : ProcRef) (ps : List ProcRef) :
    Urgency sc (interrupted sc ++ p :: ps) ↔ Urgent sc p ∧ Urgency sc (p :: ps) := by
  unfold interrupted Urgent
  cases hcur : sc.curr with
  | none => exact absurd hcur hc
  | some c =>
    cases c with
    | p0 => simp
    | pb i => simp [Urgency, Sched.proc, List.isChain_cons_cons]

/-- A sleeper in the ready heap whose state was not written. -/
def Stale (sc : Sched) (p : ProcRef) : Prop := p ∈ queued sc.ready ∧ (sc.proc p).state = .waiting

theorem Stale.not_labelled {sc : Sched} {p : ProcRef} (h : Stale sc p) : ¬Labelled sc := by
  intro hl
  have hr := hl.ready p h.1
  rw [h.2] at hr
  cases hr

/-- Waking another process does not repair it. -/
theorem Stale.readyThenSched {sc sc' : Sched} {p : ProcRef} {i : ℕ} (hs : Stale sc p)
    (h : Inv (.pb i ::ₘ 0) sc) (he : Edf sc)
    (hok : (schedReadyProc sc (i + 1) >>= sched schedSwitchIrq) = .ok sc') : Stale sc' p := by
  have hne : p ≠ .pb i := by
    rintro rfl
    exact h.disjoint_ready (Multiset.mem_cons_self _ _) hs.1
  obtain ⟨h', hq, hinv, ⟨-, rfl⟩ | ⟨-, cur, hp⟩⟩ := readyThenSched_cases h he hok
  · exact ⟨by dsimp only; rw [hq]; exact Multiset.mem_cons_of_mem hs.1, hs.2⟩
  · have hmem : p ∈ queued h' := by
      rw [hq]
      exact Multiset.mem_cons_of_mem hs.1
    refine ⟨?_, ?_⟩
    · have hmem' : p ∈ running sc.curr + queued h' := Multiset.mem_add.mpr (Or.inr hmem)
      have hready := hp.ready
      dsimp only at hready
      rw [hready, Multiset.mem_cons] at hmem'
      exact hmem'.resolve_left hne
    · have hcur : p ≠ cur := hinv.ne_curr (by simp [hmem]) hp.from_curr
      rw [hp.states, if_neg hcur, if_neg hne]
      exact hs.2

theorem timerLoop_stale (n : ℕ) {k : Kernel M} {p : ProcRef} (hs : Stale k.sched p)
    (h : Inv 0 k.sched) (hedf : Edf k.sched) (hpos : 0 < k.sched.waiting.len)
    (hn : k.sched.waiting.len ≤ n) :
    Holds Stop.IsHalt (fun k' => Stale k'.sched p) (timerLoop pf n k) := by
  induction n generalizing k with
  | zero => omega
  | succ n ih =>
    obtain ⟨dl, q, h', hpop, -, hw, hlen, _, hcont⟩ :=
      heapPop_spec k.sched.waiting h.waiting_wf hpos
    obtain ⟨i, hi, rfl⟩ := h.slot_of_waiting (queued_cons hcont ▸ Multiset.mem_cons_self _ _)
    have hinv := h.pop_waiting hw hcont
    have hedf' : Edf { k.sched with waiting := h' } := hedf.congr rfl rfl (fun _ => rfl)
    have hpid : ({ k.sched with waiting := h' } : Sched).proc (.pb i) = k.sched.pb i := rfl
    rw [timerLoop, hpop]
    dsimp only [timeNowTicks]
    rw [hpid, h.pb_pid i hi]
    split_ifs with hlt
    · apply (schedWaitProc_spec hinv).bind
      intro out hout
      obtain ⟨-, h'', rfl, -⟩ := hout
      exact hs
    · rw [← bind_assoc]
      apply ((readyThenSched_spec hinv).of_value (fun a ha hb => And.intro ha hb)).bind
      intro sc hsc
      obtain ⟨hok, hinv', hsedf, hframe⟩ := hsc
      have hs' : Stale { k.sched with waiting := h' } p := hs
      have hstale : Stale sc p := hs'.readyThenSched hinv hedf' hok
      have hwaiting : sc.waiting = h' := hframe.waiting
      simp only [schedHasWaiting, decide_eq_true_eq]
      split_ifs with hmore
      · exact ih (k := { k with reads := k.reads + 1, sched := sc }) hstale hinv' hsedf hmore
          (by simp only [hwaiting]; omega)
      · exact hstale

/-- The wake-up loop leaves states and containers in agreement exactly if every process it
wakes is switched to. -/
theorem timerLoop_labelled_iff (n : ℕ) {k : Kernel M} (h : Inv 0 k.sched) (hedf : Edf k.sched)
    (hl : Labelled k.sched) (hpos : 0 < k.sched.waiting.len) (hn : k.sched.waiting.len ≤ n) :
    Holds Stop.IsHalt (fun k' => Labelled k'.sched ↔
      Urgency k.sched (interrupted k.sched ++ dueSleepers pf n k.sched.waiting k.reads))
      (timerLoop pf n k) := by
  induction n generalizing k with
  | zero => omega
  | succ n ih =>
    obtain ⟨dl, q, h', hpop, -, hw, hlen, _, hcont⟩ :=
      heapPop_spec k.sched.waiting h.waiting_wf hpos
    have hq := queued_cons hcont
    have hmem : q ∈ queued k.sched.waiting := by rw [hq]; exact Multiset.mem_cons_self _ _
    obtain ⟨i, hi, rfl⟩ := h.slot_of_waiting hmem
    have hinv := h.pop_waiting hw hcont
    have hedf' : Edf { k.sched with waiting := h' } := hedf.congr rfl rfl (fun _ => rfl)
    have hlab := hl.pop_waiting hq
    have hpid : ({ k.sched with waiting := h' } : Sched).proc (.pb i) = k.sched.pb i := rfl
    have hcurr : k.sched.curr ≠ none := by
      obtain ⟨r, hr, -⟩ := h.curr
      simp [hr]
    rw [timerLoop, dueSleepers, hpop]
    dsimp only [timeNowTicks]
    rw [hpid, h.pb_pid i hi]
    split_ifs with hlt
    · apply (schedWaitProc_spec hinv).bind
      intro out hout
      obtain ⟨-, h'', rfl, hc⟩ := hout
      apply iff_of_true (hlab.push_waiting (queued_cons hc) (hl.waiting _ hmem))
      unfold interrupted
      split <;> simp [Urgency]
    · rw [← bind_assoc, urgency_cons hcurr]
      apply ((readyThenSched_spec hinv).of_value (fun a ha hb => And.intro ha hb)).bind
      intro sc hsc
      obtain ⟨hok, hinv', hsedf, hframe⟩ := hsc
      have hwaiting : sc.waiting = h' := hframe.waiting
      have hsame : SameProcs k.sched sc := by
        intro r
        obtain ⟨s, hs⟩ := hframe.procs r
        exact ⟨s, by rw [hs]; cases r <;> rfl⟩
      simp only [schedHasWaiting, decide_eq_true_eq]
      obtain ⟨hr, hqr, hinvr, ⟨hnot, hsc⟩ | ⟨hu, cur, hp⟩⟩ := readyThenSched_cases hinv hedf' hok
      · -- the process stays in the ready heap with the state of a sleeper
        have hstale : Stale sc (.pb i) := by
          rw [hsc]
          exact ⟨by dsimp only; rw [hqr]; exact Multiset.mem_cons_self _ _, hl.waiting _ hmem⟩
        have hno : ¬Urgent k.sched (.pb i) := hnot
        split_ifs with hmore
        · refine (timerLoop_stale pf n (k := { k with reads := k.reads + 1, sched := sc }) hstale
            hinv' hsedf hmore (by simp only [hwaiting]; omega)).mono ?_
          intro k' hk'
          exact iff_of_false hk'.not_labelled (fun hc => hno hc.1)
        · exact iff_of_false hstale.not_labelled (fun hc => hno hc.1)
      · have hlab' := (hlab.push_ready hqr).preempts hinvr hp (hframe.push hr)
        have hint : interrupted sc = [.pb i] := by simp [interrupted, hp.to_curr]
        have hu' : Urgent k.sched (.pb i) := hu
        rw [← Urgency.congr hsame]
        split_ifs with hmore
        · refine (ih (k := { k with reads := k.reads + 1, sched := sc }) hinv' hsedf hlab' hmore
            (by simp only [hwaiting]; omega)).mono ?_
          intro k' hk'
          simp only [hint, hwaiting, List.singleton_append] at hk'
          rw [hk']
          exact ⟨fun hc => ⟨hu', hc⟩, fun hc => hc.2⟩
        · have hnil : dueSleepers pf n h' (k.reads + 1) = [] := by
            have hz : h'.len = 0 := by
              rw [← hwaiting]
              exact Nat.eq_zero_of_not_pos hmore
            cases n with
            | zero => rfl
            | succ n => rw [dueSleepers, heapPop_empty _ hz]
          rw [hnil]
          exact iff_of_true hlab' ⟨hu', by simp [Urgency]⟩

theorem timerFn_labelled_iff {k : Kernel M} (h : KernelInv k) (hl : Labelled k.sched) :
    Holds Stop.IsHalt (fun k' => Labelled k'.sched ↔ WakesPreempt pf k) (timerFn pf k) := by
  simp only [timerFn, schedHasWaiting, decide_eq_true_eq]
  split_ifs with hpos
  · exact timerLoop_labelled_iff pf _ h.places h.edf hl hpos le_rfl
  · apply iff_of_true hl
    unfold WakesPreempt
    rw [Nat.eq_zero_of_not_pos hpos, dueSleepers, List.append_nil]
    unfold interrupted
    split <;> simp [Urgency]

/-! ## Runs -/

/-- With every slot free and unused there is nothing else to check. -/
theorem Labelled.of_idle {sc : Sched} (hfree : ∀ n, (sc.proc (sc.freeProc n)).state = .unused)
    (hready : sc.ready.len = 0) (hwaiting : sc.waiting.len = 0) (hcurr : sc.curr = some .p0) :
    Labelled sc := by
  constructor
  · intro r hr
    obtain ⟨n, -, rfl⟩ := mem_freeStack.mp hr
    exact hfree n
  · intro r hr
    rw [queued, contents_eq_zero.mpr hready] at hr
    simp at hr
  · intro r hr
    rw [queued, contents_eq_zero.mpr hwaiting] at hr
    simp at hr
  · intro r hr
    rw [hcurr] at hr
    simp at hr

theorem schedInit_labelled (mem : M) :
    Holds Stop.IsHalt (fun k => Labelled k.sched) (schedInit pf mem) := by
  unfold schedInit kernMapCreate
  simp only [bind_assoc, pure_bind]
  apply (holds_call _).bind
  rintro ⟨root, m⟩ _
  exact Labelled.of_idle (fun _ => rfl) rfl rfl rfl

/-- One event, with the condition on a timer event. -/
theorem step_labelled {k : Kernel M} (h : KernelInv k) (hl : Labelled k.sched) (e : Event)
    (he : e = .timerFn → WakesPreempt pf k) :
    Holds Stop.IsHalt (fun k' => Labelled k'.sched) (step pf k e) := by
  cases e with
  | scheduleReq pc progSize memReq => exact scheduleReq_labelled pf h hl pc progSize memReq
  | timerFn => exact (timerFn_labelled_iff pf h hl).mono fun _ hiff => hiff.mpr (he rfl)
  | waitUntil u => exact waitUntil_labelled pf h hl u
  | exit => exact exit_labelled pf h hl
  | spawn deadline ep ap memReq => exact spawn_labelled pf h hl deadline ep ap memReq

theorem run_snoc (mem : M) (es : List Event) (e : Event) {k : Kernel M}
    (hk : run pf mem es = .ok k) : run pf mem (es ++ [e]) = step pf k e := by
  rw [run_append, hk, ok_bind, List.foldlM_cons]
  cases step pf k e <;> rfl

/-- All states of a run agree with the containers exactly if at every timer event of it
that returns, each process woken is switched to at once. -/
theorem run_statesAgree_iff (mem : M) (es : List Event) :
    (∀ es' k, es' <+: es → run pf mem es' = .ok k → StatesAgree k.sched) ↔
      ∀ es' k k', es' ++ [.timerFn] <+: es → run pf mem es' = .ok k → timerFn pf k = .ok k' →
        WakesPreempt pf k := by
  constructor
  · intro hall es' k k' hpre hk hk'
    have hinv := (run_inv pf mem es').of_ok hk
    have hnext : run pf mem (es' ++ [.timerFn]) = .ok k' := (run_snoc pf mem es' _ hk).trans hk'
    have hinv' := (run_inv pf mem _).of_ok hnext
    have hl := (hall es' k ((List.prefix_append _ _).trans hpre) hk).labelled hinv.places
    have hl' := (hall _ k' hpre hnext).labelled hinv'.places
    exact ((timerFn_labelled_iff pf hinv hl).of_ok hk').mp hl'
  · intro hall es'
    -- along the run, from its first state on
    induction es' using List.reverseRecOn with
    | nil =>
      intro k _ hk
      have hl := (schedInit_labelled pf mem).of_ok (by simpa [run] using hk)
      exact hl.statesAgree ((run_inv pf mem []).of_ok hk).places
    | append_singleton es' e ih =>
      intro k' hpre hk'
      cases hk : run pf mem es' with
      | error x =>
        rw [run_append, hk] at hk'
        cases hk'
      | ok k =>
        have hinv := (run_inv pf mem es').of_ok hk
        have hl := (ih k ((List.prefix_append _ _).trans hpre) hk).labelled hinv.places
        have hstep : step pf k e = .ok k' := (run_snoc pf mem es' e hk).symm.trans hk'
        refine ((step_labelled pf hinv hl e ?_).of_ok hstep).statesAgree
          ((run_inv pf mem _).of_ok hk').places
        rintro rfl
        exact hall es' k k' hpre hk hstep

/-- Two programs of equal urgency; the first goes to sleep and is woken at once. -/
def wokenBesideEqual : List Event :=
  [.scheduleReq 0x50100000 4 4096, .scheduleReq 0x50100000 4 4096, .waitUntil 0, .timerFn]

/-- It is ready again and still says that it waits. -/
theorem wokenBesideEqual_disagrees :
    ∃ k, run quietPlatform () wokenBesideEqual = .ok k ∧ .pb 4095 ∈ queued k.sched.ready ∧
      (k.sched.pb 4095).state = .waiting ∧ ¬StatesAgree k.sched := by
  have hrun : (run quietPlatform () wokenBesideEqual).toOption.map (fun k =>
      (k.sched.ready.len, (k.sched.ready.a 0).val, (k.sched.pb 4095).state)) =
      some (1, .pb 4095, .waiting) := by decide +kernel
  cases hk : run quietPlatform () wokenBesideEqual with
  | error e =>
    rw [hk] at hrun
    cases hrun
  | ok k =>
    rw [hk] at hrun
    simp only [Except.toOption, Option.map_some, Option.some.injEq, Prod.mk.injEq] at hrun
    obtain ⟨hlen, hval, hstate⟩ := hrun
    have hmem : ProcRef.pb 4095 ∈ queued k.sched.ready :=
      mem_queued.mpr ⟨_, mem_contents.mpr ⟨0, by omega, by rw [pair, hval]⟩⟩
    refine ⟨k, rfl, hmem, hstate, ?_⟩
    intro ha
    have hready := (ha 4095 (by decide)).ready.mpr hmem
    rw [hstate] at hready
    cases hready

end JanusRT
