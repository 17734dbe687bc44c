import JanusRT.Exceptions

/-!
# Contexts across exceptions

Seen from the processes an exception saves the registers of the current one, lets the
handlers of the kernel move processes between queues, and loads the registers of the
one that is current then. The registers of every process that is not free are at any
time those it had when it was last interrupted, or those it was created with.
-/
namespace JanusRT.Exceptions

open Outcome

/-! ## Loads and stores of contexts -/

/-- A process record that exists. -/
def Exists : ProcRef → Prop
  | .p0 => True
  | .pb i => i < maxProc

/-- The scheduler with another context for `r`. -/
def withCtx (sc : Sched) (r : ProcRef) (c : Ctx) : Sched := sc.modify r fun q => { q with ctx := c }

section
variable (gSched : ℕ) (sc : Sched) {r : ProcRef} {c : Ctx} {off : ℕ} {f : CtxField}

theorem proc_withCtx (sc : Sched) (r s : ProcRef) (c : Ctx) :
    (withCtx sc r c).proc s = if s = r then { sc.proc r with ctx := c } else sc.proc s :=
  Sched.proc_modify _ _ _ _

@[simp] theorem withCtx_curr (sc : Sched) (r : ProcRef) (c : Ctx) :
    (withCtx sc r c).curr = sc.curr := Sched.modify_curr _ _ _

@[simp] theorem proc_withCtx_ctx (sc : Sched) (r : ProcRef) (c : Ctx) :
    ((withCtx sc r c).proc r).ctx = c := by
  rw [proc_withCtx, if_pos rfl]

theorem withCtx_self (sc : Sched) (r : ProcRef) : withCtx sc r (sc.proc r).ctx = sc := by
  cases r with
  | p0 => rfl
  | pb i => simp [withCtx, Sched.modify, Sched.proc]

theorem modify_withCtx (sc : Sched) (r : ProcRef) (c : Ctx) (g : Ctx → Ctx) :
    (withCtx sc r c).modify r (fun q => { q with ctx := g q.ctx }) = withCtx sc r (g c) := by
  cases r <;> simp [withCtx, Sched.modify]

theorem procOffset_p0 : procOffset .p0 = schedP0 := rfl

theorem procOffset_pb (i : ℕ) : procOffset (.pb i) = schedPb + i * procSize := rfl

theorem procAt_procOffset (hr : Exists r) (hoff : off < procSize) :
    procAt (procOffset r + off) = some (r, off) := by
  have hsize : procSize = 912 ∧ schedP0 = 0 ∧ schedPb = 928 := ⟨rfl, rfl, rfl⟩
  cases r with
  | p0 =>
    rw [procOffset_p0, hsize.2.1, Nat.zero_add, procAt, if_pos (by omega)]
  | pb i =>
    have hi : i < maxProc := hr
    have hlt : i * procSize + off < maxProc * procSize := by
      have := Nat.mul_le_mul_right procSize (Nat.succ_le_of_lt hi)
      rw [Nat.succ_mul] at this
      omega
    have hsub : schedPb + i * procSize + off - schedPb = i * procSize + off := by omega
    rw [procOffset_pb, procAt, if_neg (by omega), if_pos ⟨by omega, by omega⟩, hsub]
    have hdiv : (i * procSize + off) / procSize = i := by
      rw [Nat.mul_comm, Nat.mul_add_div (by omega), Nat.div_eq_of_lt hoff, Nat.add_zero]
    have hmod : (i * procSize + off) % procSize = off := by
      rw [Nat.mul_comm, Nat.mul_add_mod, Nat.mod_eq_of_lt hoff]
    rw [hdiv, hmod]

theorem ctxAt_procOffset (hr : Exists r) (hoff : off < procSize) (hf : ctxFieldAt off = some f) :
    ctxAt (procOffset r + off) = some (r, f) := by
  have hctx : off - procCtx = off := rfl
  rw [ctxAt, procAt_procOffset hr hoff]
  simp [hctx, hf]

theorem load_ctx (hr : Exists r) (hoff : off < procSize) (hf : ctxFieldAt off = some f) :
    load gSched sc (gSched + procOffset r + off) = .ok (ctxGet (sc.proc r).ctx f) := by
  have hne : gSched + procOffset r + off ≠ gSched + schedCurr := by
    have hsize : procSize = 912 ∧ schedP0 = 0 ∧ schedPb = 928 ∧ schedCurr = 912 := ⟨rfl, rfl, rfl, rfl⟩
    cases r with
    | p0 => rw [procOffset_p0]; omega
    | pb i => rw [procOffset_pb]; omega
  have hsub : gSched + procOffset r + off - gSched = procOffset r + off := by omega
  rw [load, if_neg hne, if_pos (by omega), hsub, ctxAt_procOffset hr hoff hf]

theorem load_curr {sc : Sched} (hcur : sc.curr = some r) :
    load gSched sc (gSched + schedCurr) = .ok (gSched + procOffset r) := by
  rw [load, if_pos rfl, hcur]

theorem store_ctx (hr : Exists r) (c : Ctx) (v : ℕ) (hoff : off < procSize)
    (hf : ctxFieldAt off = some f) :
    store gSched (withCtx sc r c) (gSched + procOffset r + off) v =
      .ok (withCtx sc r (ctxSet c v f)) := by
  have hsub : gSched + procOffset r + off - gSched = procOffset r + off := by omega
  rw [store, if_pos (by omega), hsub, ctxAt_procOffset hr hoff hf]
  simp only
  rw [modify_withCtx sc r c fun c => ctxSet c v f]

theorem store_x (hr : Exists r) (c : Ctx) (n v : ℕ) (hn : n % 8 = 0) (hlt : n < 248) :
    store gSched (withCtx sc r c) (gSched + procOffset r + n) v =
      .ok (withCtx sc r { c with x := Function.update c.x (n / 8) v }) := by
  have hsize : procSize = 912 ∧ ctxSp = 248 := ⟨rfl, rfl⟩
  have hfield : ctxFieldAt n = some (.x (n / 8)) := by
    rw [ctxFieldAt, if_pos ⟨hn, by omega⟩]
    rfl
  exact store_ctx gSched sc hr c v (by omega) hfield

/-- The general registers lie one after the other. -/
theorem ctxFieldAt_x {i : ℕ} (hi : i ≤ 30) : ctxFieldAt (ctxX + 8 * i) = some (.x i) := by
  have hsp : ctxSp = 248 ∧ ctxX = 0 := ⟨rfl, rfl⟩
  rw [ctxFieldAt, if_pos ⟨by omega, by omega⟩]
  congr 2
  omega

end

/-! ## Saving -/

section
variable {M : Type} (pf : Platform M) (gSched : ℕ) (h : Pending) {m : Machine M} {sc : Sched}
  {r : ProcRef} {c : Ctx}

/-- Two neighbouring registers replaced. -/
def putPair (x : ℕ → ℕ) (i v w : ℕ) : ℕ → ℕ := Function.update (Function.update x i v) (i + 1) w

theorem exec_stp {b i : ℕ} (s t : ℕ) (hr : Exists r) (hb : m.x b = gSched + procOffset r)
    (hs : m.kernel.sched = withCtx sc r c) (hi : i + 1 ≤ 30) :
    exec pf gSched h m (.stp s t b (ctxX + 8 * i)) =
      .ok (setSched m (withCtx sc r { c with x := putPair c.x i (m.x s) (m.x t) })) := by
  have hoff : ctxX + 8 * (i + 1) = ctxX + 8 * i + 8 := by omega
  have hsize : procSize = 912 ∧ ctxX = 0 := ⟨rfl, rfl⟩
  have h₁ : store gSched (withCtx sc r c) (m.x b + (ctxX + 8 * i)) (m.x s) = _ :=
    hb ▸ store_ctx gSched sc hr c (m.x s) (by omega) (ctxFieldAt_x (by omega))
  have h₂ : store gSched (withCtx sc r (ctxSet c (m.x s) (.x i))) (m.x b + (ctxX + 8 * i) + 8)
      (m.x t) = .ok (withCtx sc r { c with x := putPair c.x i (m.x s) (m.x t) }) := by
    rw [Nat.add_assoc, ← hoff, hb]
    exact store_ctx gSched sc hr _ (m.x t) (by omega) (ctxFieldAt_x hi)
  rw [exec, hs, h₁, ok_bind, h₂]
  rfl

/-- The four words that the first instructions put on the interrupted stack. -/
theorem stack_words {sp : ℕ} (hsp : sp < u64) :
    plus (plus (minus sp 32) 16) 16 = sp ∧
      (∀ n, plus (plus (minus sp 32) 16) n = plus (minus sp 32) (16 + n)) ∧
      ∀ i < 32, ∀ j < 32, i ≠ j → plus (minus sp 32) i ≠ plus (minus sp 32) j := by
  unfold plus minus u64 at *
  refine ⟨by omega, fun n => by omega, fun i hi j hj hij => by omega⟩

/-- The first instructions have the current context at hand in `x20` and `G_SCHED` in
`x21`; the four registers they use are in the context. -/
theorem saveFirst_run (hr : Exists r) (hcur : m.kernel.sched.curr = some r)
    (hs : m.kernel.sched = withCtx sc r c) (hsp : m.sp < u64) :
    ∃ x st, saveFirst.foldlM (exec pf gSched h) m = .ok (setSched { m with x := x, stack := st }
        (withCtx sc r
          { c with x := putPair (putPair c.x 20 (m.x 20) (m.x 21)) 0 (m.x 0) (m.x 1) })) ∧
      x 20 = gSched + procOffset r ∧ x 21 = gSched ∧ ∀ i, i ≠ 20 → i ≠ 21 → x i = m.x i := by
  have hload := load_curr gSched hcur
  rw [hs] at hload
  have hstore := store_x gSched sc hr
  have hzero := fun c v => hstore c 0 v (by decide) (by decide)
  obtain ⟨hback, hup, hne⟩ := stack_words hsp
  have h₁ := hne 0 (by decide) 8 (by decide) (by decide)
  have h₂ := hne 0 (by decide) 16 (by decide) (by decide)
  have h₃ := hne 0 (by decide) 24 (by decide) (by decide)
  have h₄ := hne 8 (by decide) 16 (by decide) (by decide)
  have h₅ := hne 8 (by decide) 24 (by decide) (by decide)
  have h₆ := hne 16 (by decide) 24 (by decide) (by decide)
  have hctx : procCtx = 0 ∧ ctxX = 0 := ⟨rfl, rfl⟩
  have hsum : ∀ a, a + 160 + 8 = a + 168 := fun a => by omega
  simp only [Nat.add_zero, Nat.zero_div] at hzero
  have hrun : saveFirst.foldlM (exec pf gSched h) m = .ok (setSched { m with
      x := Function.update (Function.update (Function.update (Function.update (Function.update
        (Function.update m.x 21 gSched) 20 (gSched + procOffset r)) 0 (m.x 20)) 1 (m.x 21)) 0
        (m.x 0)) 1 (m.x 1)
      stack := Function.update (Function.update (Function.update (Function.update m.stack
        (plus (minus m.sp 32) 0) (m.x 20)) (plus (minus m.sp 32) 8) (m.x 21))
        (plus (minus m.sp 32) 16) (m.x 0)) (plus (minus m.sp 32) 24) (m.x 1) }
      (withCtx sc r
        { c with x := putPair (putPair c.x 20 (m.x 20) (m.x 21)) 0 (m.x 0) (m.x 1) })) := by
    simp [saveFirst, exec, setX, setSched, hload, hs, hctx, hstore, hzero, hsum, hback, hup, h₁,
      h₂, h₃, h₄, h₅, h₆, putPair]
  refine ⟨_, _, hrun, ?_, ?_, ?_⟩
  · simp
  · simp
  · intro i hi hi'
    by_cases h0 : i = 0
    · simp [h0]
    · by_cases h1 : i = 1
      · simp [h1]
      · simp [hi, hi', h0, h1]

/-- The pairs of registers at the given indices replaced by those of another file. -/
def putPairs (x y : ℕ → ℕ) (is : List ℕ) : ℕ → ℕ :=
  is.foldl (fun x i => putPair x i (y i) (y (i + 1))) x

theorem putPairs_apply (x y : ℕ → ℕ) (is : List ℕ) (j : ℕ) :
    putPairs x y is j = if ∃ i ∈ is, j = i ∨ j = i + 1 then y j else x j := by
  induction is generalizing x with
  | nil => simp [putPairs]
  | cons i is ih =>
    have hpair : putPair x i (y i) (y (i + 1)) j = if j = i ∨ j = i + 1 then y j else x j := by
      unfold putPair
      by_cases hj : j = i + 1
      · simp [hj]
      · by_cases hji : j = i <;> simp [hj, hji]
    have hstep := ih (putPair x i (y i) (y (i + 1)))
    rw [hpair] at hstep
    rw [putPairs, List.foldl_cons]
    apply hstep.trans
    by_cases htail : ∃ k ∈ is, j = k ∨ j = k + 1
    · rw [if_pos htail, if_pos]
      obtain ⟨k, hk, hjk⟩ := htail
      exact ⟨k, List.mem_cons_of_mem i hk, hjk⟩
    · rw [if_neg htail]
      refine if_congr ⟨fun hi => ⟨i, List.mem_cons_self, hi⟩, ?_⟩ rfl rfl
      rintro ⟨k, hk, hjk⟩
      rcases List.mem_cons.mp hk with rfl | hk
      · exact hjk
      · exact absurd ⟨k, hk, hjk⟩ htail

/-- Storing pairs of registers through `x20`. -/
theorem stores_run (is : List ℕ) (hr : Exists r) (hb : m.x 20 = gSched + procOffset r)
    (hs : m.kernel.sched = withCtx sc r c) (his : ∀ i ∈ is, i + 1 ≤ 30) :
    (is.map fun i => Instr.stp i (i + 1) 20 (ctxX + 8 * i)).foldlM (exec pf gSched h) m =
      .ok (setSched m (withCtx sc r { c with x := putPairs c.x m.x is })) := by
  induction is generalizing m c with
  | nil =>
    simp only [List.map_nil, List.foldlM_nil, putPairs, List.foldl_nil, ← hs]
    rfl
  | cons i is ih =>
    have hpair := exec_stp pf gSched h i (i + 1) hr hb hs (his i List.mem_cons_self)
    rw [List.map_cons, List.foldlM_cons, hpair, ok_bind]
    exact ih (m := setSched m _) (c := { c with x := putPair c.x i (m.x i) (m.x (i + 1)) }) hb rfl
      fun k hk => his k (List.mem_cons_of_mem i hk)

/-- The registers that are saved in pairs through `x20`. -/
def savedPairs : List ℕ := [2, 4, 6, 8, 10, 12, 14, 16, 18, 22, 24, 26, 28]

/-- Every register below `x30` that is not saved by way of the stack is in a pair. -/
theorem savedPairs_covers : ∀ i ≤ 30, i = 30 ∨ i = 0 ∨ i = 1 ∨ i = 20 ∨ i = 21 ∨
    ∃ j ∈ savedPairs, i = j ∨ i = j + 1 := by
  decide

theorem savedPairs_lt : ∀ j ∈ savedPairs, j + 1 < 30 ∧ j ≠ 20 ∧ j ≠ 21 ∧ j + 1 ≠ 20 := by
  decide

theorem saveRest_eq :
    saveRest = savedPairs.map fun i => Instr.stp i (i + 1) 20 (ctxX + 8 * i) := rfl

/-- `mmu_map_switch` with the map of `r`. -/
theorem callC_mmuMapSwitch (hr : Exists r) (hx : m.x 0 = gSched + procOffset r + ctxMmap) :
    callC pf gSched h m .mmuMapSwitch = .ok { m with
      ttbr0 := writeTtbr0Asid (m.kernel.sched.proc r).ctx.mmap.root.l0Pa
        (m.kernel.sched.proc r).ctx.mmap.asid } := by
  have h₁ := load_ctx gSched m.kernel.sched hr (by decide)
    (show ctxFieldAt (ctxMmap + mmapL0Pa) = some .l0Pa by decide)
  have h₂ := load_ctx gSched m.kernel.sched hr (by decide)
    (show ctxFieldAt (ctxMmap + mmapAsid) = some .asid by decide)
  rw [← Nat.add_assoc] at h₁ h₂
  rw [callC, hx, h₁, ok_bind, h₂, ok_bind]
  rfl

/-- The last instructions before the C handler: the return state and the stack pointer are
in the context, and the kernel's stack and map are in use. -/
theorem saveLast_run (hr : Exists r) (hb : m.x 20 = gSched + procOffset r) (hg : m.x 21 = gSched)
    (hs : m.kernel.sched = withCtx sc r c) :
    ∃ m', saveLast.foldlM (exec pf gSched h) m = .ok m' ∧ m'.x 20 = gSched + procOffset r ∧
      m'.x 21 = gSched ∧ m'.kernel = (setSched m (withCtx sc r
        ⟨Function.update c.x 30 (m.x 30), m.sp, m.elr, m.spsr, c.mmap⟩)).kernel := by
  have hx30 := fun c v => store_x gSched sc hr c 240 v (by decide) (by decide)
  have hpc := fun c v => store_ctx gSched sc hr c v (by decide)
    (show ctxFieldAt ctxPc = some .pc by decide)
  have hps := fun c v => store_ctx gSched sc hr c v (by decide)
    (show ctxFieldAt ctxPstate = some .pstate by decide)
  have hsp := fun c v => store_ctx gSched sc hr c v (by decide)
    (show ctxFieldAt ctxSp = some .sp by decide)
  have hk := fun sc => load_ctx gSched sc (r := .p0) trivial (by decide)
    (show ctxFieldAt ctxSp = some .sp by decide)
  have hctx : ctxX = 0 := rfl
  have hksp : kernelSp = ctxSp := rfl
  have hp0 : procOffset .p0 = 0 := rfl
  simp only [hp0, Nat.add_zero] at hk
  have hkmap : kernelMmap = ctxMmap := rfl
  have hmap := fun m => callC_mmuMapSwitch pf gSched h (m := m) (r := .p0) trivial
  simp [saveLast, exec, setX, setSched, hb, hg, hs, hctx, hx30, hpc, hps, hsp, hksp, hk, ctxSet,
    hmap, hp0, hkmap, afterCall]

/-- The context of an interrupted process. -/
def Trap.saved (t : Trap) (c : Ctx) : Ctx :=
  ⟨fun i => if i ≤ 30 then t.x i else c.x i, t.sp, t.pc, t.pstate, c.mmap⟩

/-- The kernel after the registers of `r` have been saved. -/
def suspend (t : Trap) (k : Kernel M) (r : ProcRef) : Kernel M :=
  { k with sched := withCtx k.sched r (t.saved (k.sched.proc r).ctx) }

/-- The four registers that went by way of the stack, the pairs and `x30` are all. -/
theorem saved_x (t : Trap) (c : Ctx) {x : ℕ → ℕ} (hx : ∀ i, i ≠ 20 → i ≠ 21 → x i = t.x i) :
    Function.update (putPairs (putPair (putPair c.x 20 (t.x 20) (t.x 21)) 0 (t.x 0) (t.x 1)) x
      savedPairs) 30 (x 30) = (t.saved c).x := by
  ext i
  by_cases h30 : i = 30
  · simp [h30, Trap.saved, hx 30 (by decide) (by decide)]
  rw [Function.update_of_ne h30, putPairs_apply]
  split_ifs with hpair
  · obtain ⟨j, hj, hij⟩ := hpair
    have hlt := savedPairs_lt j hj
    have hle : i ≤ 30 := by omega
    simp only [Trap.saved, if_pos hle]
    exact hx i (by omega) (by omega)
  · by_cases hle : i ≤ 30
    · obtain hi | rfl | rfl | rfl | rfl | hi := savedPairs_covers i hle
      · exact absurd hi h30
      · simp [putPair, Trap.saved]
      · simp [putPair, Trap.saved]
      · simp [putPair, Trap.saved]
      · simp [putPair, Trap.saved]
      · exact absurd hi hpair
    · have hne : i ≠ 0 ∧ i ≠ 1 ∧ i ≠ 20 ∧ i ≠ 21 := by omega
      simp [putPair, Trap.saved, hle, hne]

/-- Both handlers save the whole context of the process they interrupt. -/
theorem save_run (t : Trap) (hr : Exists r) (hcur : m.kernel.sched.curr = some r) :
    ∃ m', (saveFirst ++ saveRest ++ saveLast).foldlM (exec pf gSched h) (t.enter m) = .ok m' ∧
      m'.x 20 = gSched + procOffset r ∧ m'.x 21 = gSched ∧ m'.kernel = suspend t m.kernel r := by
  obtain ⟨x, st, hfirst, h20, h21, hother⟩ := saveFirst_run pf gSched h (m := t.enter m) hr hcur
    (withCtx_self m.kernel.sched r).symm t.sp_lt
  have hx := saved_x t (m.kernel.sched.proc r).ctx hother
  obtain ⟨y, hy⟩ : ∃ y, putPair (putPair (m.kernel.sched.proc r).ctx.x 20 (t.x 20) (t.x 21)) 0
    (t.x 0) (t.x 1) = y := ⟨_, rfl⟩
  have hrest := stores_run pf gSched h savedPairs hr (m := setSched
    { t.enter m with x := x, stack := st } (withCtx m.kernel.sched r
      { (m.kernel.sched.proc r).ctx with x := y })) h20 rfl (by decide)
  obtain ⟨m', hlast, h20', h21', hk⟩ := saveLast_run pf gSched h hr
    (m := setSched { t.enter m with x := x, stack := st } (withCtx m.kernel.sched r
      { (m.kernel.sched.proc r).ctx with x := putPairs y x savedPairs })) h20 h21 rfl
  rw [hy] at hx
  refine ⟨m', ?_, h20', h21', ?_⟩
  · rw [List.foldlM_append, List.foldlM_append, hfirst, ok_bind, saveRest_eq]
    simp only [Trap.enter] at hrest hlast ⊢
    rw [hy, hrest]
    exact hlast
  · rw [hk, suspend]
    exact congrArg (fun x => (setSched m (withCtx m.kernel.sched r
      ⟨x, t.sp, t.pc, t.pstate, (m.kernel.sched.proc r).ctx.mmap⟩)).kernel) hx

/-! ## The C handlers -/

/-- The events of an exception, which a system call takes from the saved registers. -/
def Trap.events (t : Trap) (sc : Sched) : Except Stop (List Event) :=
  if t.irq then irqEvents (t.pending.iar &&& 0x00FFFFFF) t.pending.ring
  else syncEvents t.pending.esr sc

/-- The middle part of a handler. -/
def Trap.call (t : Trap) : List Instr := if t.irq then irqCall else syncCall

/-- The middle part handles the events and keeps `G_SCHED` in `x21`. -/
theorem call_run (t : Trap) (hr : Exists r) (hb : m.x 20 = gSched + procOffset r)
    (hg : m.x 21 = gSched) :
    ∃ g : Kernel M → Machine M, (∀ k, (g k).x 21 = gSched ∧ (g k).kernel = k) ∧
      t.call.foldlM (exec pf gSched t.pending) m = (do
        let es ← t.events m.kernel.sched
        let k ← es.foldlM (step pf) m.kernel
        return g k) := by
  have hpc := load_ctx gSched m.kernel.sched hr (by decide)
    (show ctxFieldAt ctxPc = some .pc by decide)
  cases hirq : t.irq with
  | true =>
    refine ⟨fun k => afterCall (t.pending.noise 1) { m with
      x := Function.update (Function.update (Function.update m.x 0 t.pending.iar) 1
        (t.pending.iar &&& 0x00FFFFFF)) 0 (m.x 20)
      sp := minus m.sp 16
      stack := Function.update m.stack (minus m.sp 16) t.pending.iar
      kernel := k }, ?_, ?_⟩
    · simp [afterCall, hg]
    · simp [Trap.call, Trap.events, hirq, irqCall, exec, setX, callC]
  | false =>
    refine ⟨fun k => afterCall (t.pending.noise 1) { m with
      x := Function.update (Function.update (Function.update m.x 0 t.pending.esr) 1
        (m.kernel.sched.proc r).ctx.pc) 2 t.pending.far
      kernel := k }, ?_, ?_⟩
    · simp [afterCall, hg]
    · simp [Trap.call, Trap.events, hirq, syncCall, exec, setX, callC, hb, hpc, ctxGet]

/-! ## Restoring -/

/-- The machine runs with the context of `r`. -/
structure Loaded (m : Machine M) (r : ProcRef) : Prop where
  x : ∀ i ≤ 30, m.x i = (m.kernel.sched.proc r).ctx.x i
  sp : m.sp = (m.kernel.sched.proc r).ctx.sp
  pc : m.pc = (m.kernel.sched.proc r).ctx.pc
  pstate : m.pstate = (m.kernel.sched.proc r).ctx.pstate
  ttbr0 : m.ttbr0 = writeTtbr0Asid (m.kernel.sched.proc r).ctx.mmap.root.l0Pa
    (m.kernel.sched.proc r).ctx.mmap.asid

/-- The map of `r` is in use, and its return state is in the registers of `eret`. -/
@[mk_iff]
structure Fetched (gSched : ℕ) (m : Machine M) (r : ProcRef) : Prop where
  x20 : m.x 20 = gSched + procOffset r
  elr : m.elr = (m.kernel.sched.proc r).ctx.pc
  spsr : m.spsr = (m.kernel.sched.proc r).ctx.pstate
  ttbr0 : m.ttbr0 = writeTtbr0Asid (m.kernel.sched.proc r).ctx.mmap.root.l0Pa
    (m.kernel.sched.proc r).ctx.mmap.asid

theorem refetch_run (hr : Exists r) (hg : m.x 21 = gSched)
    (hcur : m.kernel.sched.curr = some r) :
    ∃ m', refetch.foldlM (exec pf gSched h) m = .ok m' ∧ Fetched gSched m' r ∧
      m'.kernel = m.kernel := by
  have hload := load_curr gSched hcur
  have hpc := load_ctx gSched m.kernel.sched hr (by decide)
    (show ctxFieldAt ctxPc = some .pc by decide)
  have hps := load_ctx gSched m.kernel.sched hr (by decide)
    (show ctxFieldAt ctxPstate = some .pstate by decide)
  have hctx : procCtx = 0 := rfl
  have hmap := fun m => callC_mmuMapSwitch pf gSched h (m := m) hr
  simp [refetch, exec, setX, hg, hload, hctx, hmap, afterCall, hpc, hps, ctxGet, fetched_iff]

/-- What `irq_el1` does before it leaves the kernel stack and `sync_el1` does not. -/
def Trap.finish (t : Trap) : List Instr := if t.irq then endOfIrq else []

theorem finish_run (t : Trap) (hf : Fetched gSched m r) :
    ∃ m', t.finish.foldlM (exec pf gSched h) m = .ok m' ∧ Fetched gSched m' r ∧
      m'.kernel = m.kernel := by
  cases hirq : t.irq with
  | true =>
    simp [Trap.finish, hirq, endOfIrq, exec, setX, fetched_iff, hf.x20, hf.elr, hf.spsr, hf.ttbr0,
      pure, Except.pure]
  | false => exact ⟨m, by simp [Trap.finish, hirq]; rfl, hf, rfl⟩

theorem exec_ldp {b i : ℕ} (hr : Exists r) (hb : m.x b = gSched + procOffset r) (hi : i + 1 ≤ 30) :
    exec pf gSched h m (.ldp i (i + 1) b (ctxX + 8 * i)) =
      .ok (setX (setX m i ((m.kernel.sched.proc r).ctx.x i)) (i + 1)
        ((m.kernel.sched.proc r).ctx.x (i + 1))) := by
  have hsize : procSize = 912 ∧ ctxX = 0 := ⟨rfl, rfl⟩
  have hoff : ctxX + 8 * (i + 1) = ctxX + 8 * i + 8 := by omega
  have h₁ := load_ctx gSched m.kernel.sched hr (by omega) (ctxFieldAt_x (i := i) (by omega))
  have h₂ := load_ctx gSched m.kernel.sched hr (by omega) (ctxFieldAt_x (i := i + 1) hi)
  rw [hoff, ← Nat.add_assoc] at h₂
  rw [exec, hb, h₁, ok_bind, h₂, ok_bind]
  rfl

/-- Loading pairs of registers through `x0`. -/
theorem loads_run (is : List ℕ) (hr : Exists r) (hb : m.x 0 = gSched + procOffset r)
    (his : ∀ i ∈ is, 2 ≤ i ∧ i + 1 ≤ 30) :
    (is.map fun i => Instr.ldp i (i + 1) 0 (ctxX + 8 * i)).foldlM (exec pf gSched h) m =
      .ok { m with x := putPairs m.x (m.kernel.sched.proc r).ctx.x is } := by
  induction is generalizing m with
  | nil => rfl
  | cons i is ih =>
    obtain ⟨h2, h30⟩ := his i List.mem_cons_self
    have hbase : (setX (setX m i ((m.kernel.sched.proc r).ctx.x i)) (i + 1)
        ((m.kernel.sched.proc r).ctx.x (i + 1))).x 0 = gSched + procOffset r := by
      have h0 : 0 ≠ i ∧ 0 ≠ i + 1 := by omega
      simp only [setX, Function.update_of_ne h0.1, Function.update_of_ne h0.2, hb]
    rw [List.map_cons, List.foldlM_cons, exec_ldp pf gSched h hr hb h30, ok_bind]
    exact ih hbase fun k hk => his k (List.mem_cons_of_mem i hk)

/-- The registers that are restored in pairs before the last. -/
def restoredPairs : List ℕ := [2, 4, 6, 8, 10, 12, 14, 16, 18, 20, 22, 24, 26, 28]

theorem restoreRest_eq :
    restoreRest = restoredPairs.map fun i => Instr.ldp i (i + 1) 0 (ctxX + 8 * i) := rfl

theorem restoredPairs_covers : ∀ i ≤ 30, i = 30 ∨ i = 0 ∨ i = 1 ∨
    ∃ j ∈ restoredPairs, i = j ∨ i = j + 1 := by
  decide

theorem restoreSp_run (hr : Exists r) (hf : Fetched gSched m r) :
    ∃ m', restoreSp.foldlM (exec pf gSched h) m = .ok m' ∧ Fetched gSched m' r ∧
      m'.kernel = m.kernel ∧ m'.sp = (m.kernel.sched.proc r).ctx.sp ∧
      m'.x 0 = gSched + procOffset r := by
  have hsp := load_ctx gSched m.kernel.sched hr (by decide)
    (show ctxFieldAt ctxSp = some .sp by decide)
  simp [restoreSp, exec, setX, hf.x20, hsp, ctxGet, fetched_iff, hf.elr, hf.spsr, hf.ttbr0]

/-- The last instructions use `x0` for the base until they overwrite it. -/
theorem restoreLast_run (hr : Exists r) (hb : m.x 0 = gSched + procOffset r) :
    ∃ x, restoreLast.foldlM (exec pf gSched h) m =
        .ok { m with x := x, pc := m.elr, pstate := m.spsr } ∧
      (∀ i, i = 30 ∨ i = 0 ∨ i = 1 → x i = (m.kernel.sched.proc r).ctx.x i) ∧
      ∀ i, i ≠ 30 → i ≠ 0 → i ≠ 1 → x i = m.x i := by
  have h0 := load_ctx gSched m.kernel.sched hr (by decide) (ctxFieldAt_x (i := 0) (by decide))
  have h1 := load_ctx gSched m.kernel.sched hr (by decide) (ctxFieldAt_x (i := 1) (by decide))
  have h30 := load_ctx gSched m.kernel.sched hr (by decide) (ctxFieldAt_x (i := 30) (by decide))
  have hctx : ctxX = 0 := rfl
  simp only [hctx, ctxGet, Nat.mul_zero, Nat.mul_one, Nat.add_zero, Nat.zero_add, Nat.reduceMul] at h0 h1 h30
  refine ⟨Function.update (Function.update (Function.update m.x 30
    ((m.kernel.sched.proc r).ctx.x 30)) 0 ((m.kernel.sched.proc r).ctx.x 0)) 1
    ((m.kernel.sched.proc r).ctx.x 1), ?_, ?_, ?_⟩
  · simp [restoreLast, exec, setX, hb, h0, h1, h30, hctx]
  · rintro i (rfl | rfl | rfl) <;> simp
  · intro i hi hi0 hi1
    simp [hi, hi0, hi1]

/-- From the refetch of the current process on, both handlers load its whole context. -/
theorem restore_run (t : Trap) (hr : Exists r) (hg : m.x 21 = gSched)
    (hcur : m.kernel.sched.curr = some r) :
    ∃ m', (refetch ++ t.finish ++ restoreSp ++ restoreRest ++ restoreLast).foldlM
        (exec pf gSched h) m = .ok m' ∧ Loaded m' r ∧ m'.kernel = m.kernel := by
  obtain ⟨m₁, h₁, hf₁, hk₁⟩ := refetch_run pf gSched h hr hg hcur
  obtain ⟨m₂, h₂, hf₂, hk₂⟩ := finish_run pf gSched h t hf₁
  obtain ⟨m₃, h₃, hf₃, hk₃, hsp, h0⟩ := restoreSp_run pf gSched h hr hf₂
  have h₄ := loads_run pf gSched h restoredPairs hr h0 (by decide)
  obtain ⟨x, h₅, hlast, hkeep⟩ := restoreLast_run pf gSched h (m := { m₃ with
    x := putPairs m₃.x (m₃.kernel.sched.proc r).ctx.x restoredPairs }) hr (by
      dsimp only
      rw [putPairs_apply, if_neg (by decide)]
      exact h0)
  refine ⟨{ m₃ with x := x, pc := m₃.elr, pstate := m₃.spsr }, ?_,
    ⟨?_, ?_, hf₃.elr, hf₃.spsr, hf₃.ttbr0⟩, ?_⟩
  · rw [List.foldlM_append, List.foldlM_append, List.foldlM_append, List.foldlM_append, h₁, ok_bind,
      h₂, ok_bind, h₃, ok_bind, restoreRest_eq, h₄, ok_bind]
    exact h₅
  · intro i hi
    by_cases hend : i = 30 ∨ i = 0 ∨ i = 1
    · exact hlast i hend
    · have hpair : ∃ j ∈ restoredPairs, i = j ∨ i = j + 1 := by
        have := restoredPairs_covers i hi
        simp only [not_or] at hend
        simpa [hend] using this
      have hkept := hkeep i (by omega) (by omega) (by omega)
      dsimp only at hkept ⊢
      rw [hkept, putPairs_apply, if_pos hpair]
  · rw [hsp, ← hk₃]
  · rw [hk₃, hk₂, hk₁]

/-! ## A whole exception -/

theorem handler_eq (t : Trap) : (if t.irq then irqEl1 else syncEl1) =
    saveFirst ++ saveRest ++ saveLast ++ t.call ++
      (refetch ++ t.finish ++ restoreSp ++ restoreRest ++ restoreLast) := by
  cases hirq : t.irq with
  | true => simp [Trap.call, Trap.finish, hirq, irqEl1]
  | false => simp [Trap.call, Trap.finish, hirq, syncEl1]

/-- An exception saves the current context, handles its events and leaves the machine with
the context that is current then. -/
theorem takeTrap_eq (t : Trap) (hr : Exists r) (hcur : m.kernel.sched.curr = some r) :
    ∃ back : Kernel M → Except Stop (Machine M),
      takeTrap pf gSched t m = (do
        let es ← t.events (suspend t m.kernel r).sched
        let k ← es.foldlM (step pf) (suspend t m.kernel r)
        back k) ∧
      ∀ k s, k.sched.curr = some s → Exists s → ∃ m', back k = .ok m' ∧ Loaded m' s ∧
        m'.kernel = k := by
  obtain ⟨m₁, hsave, h20, h21, hk⟩ := save_run pf gSched t.pending t hr hcur
  obtain ⟨g, hg, hcall⟩ := call_run pf gSched t hr h20 h21
  refine ⟨fun k => (refetch ++ t.finish ++ restoreSp ++ restoreRest ++ restoreLast).foldlM
    (exec pf gSched t.pending) (g k), ?_, ?_⟩
  · rw [takeTrap, handler_eq, List.foldlM_append, List.foldlM_append, hsave, ok_bind, hcall, hk]
    simp only [bind_assoc, pure_bind]
  · intro k s hs hex
    obtain ⟨hx, hkernel⟩ := hg k
    obtain ⟨m', hrun, hloaded, hk'⟩ := restore_run pf gSched t.pending t (m := g k) hex hx
      (by rw [hkernel]; exact hs)
    exact ⟨m', hrun, hloaded, hk'.trans hkernel⟩

end

end JanusRT.Exceptions
