import Mathlib.Tactic

/-!
# Writers that share a bounded queue

A device takes items into a queue of `depth` places and sends them off in order. To put an item in,
a writer first looks until the queue is not full and then stores the item; these are two accesses,
and an item stored into a full queue is lost. Tasks take turns: the running one can be interrupted
between any two accesses by a handler, which is not interrupted itself, and after which any task
may go on. So the handler's items all arrive in one piece, and a task loses at most one item for
each interrupt between its look and its store.
-/
namespace SharedFifo

universe u v

variable {ι : Type u} {α : Type v}

/-- The writer `none` stands for the handlers. `todo` is what is left of a writer's items, and
`clear` says that it has looked, found room and not yet stored. `asked` and `hits` are history:
all items of a writer, and the interrupts that came between its look and its store. -/
structure State (ι : Type u) (α : Type v) where
  queue : List (Option ι × α)
  sent : List (Option ι × α)
  todo : Option ι → List α
  clear : Option ι → Bool
  running : Option ι
  asked : Option ι → List α
  hits : Option ι → ℕ

/-- `puts` gives the running writer more items once it is done, and `access` is its next access.
`drain` is the device's, and `resume` ends a handler. -/
inductive Event (ι : Type u) (α : Type v)
  | drain
  | access
  | puts (xs : List α)
  | interrupt
  | resume (i : ι)
  deriving DecidableEq

def Event.isInterrupt : Event ι α → Bool
  | .interrupt => true
  | _ => false

/-- Everything the device has accepted, in order. -/
def State.out (s : State ι α) : List (Option ι × α) := s.sent ++ s.queue

variable [DecidableEq ι]

def drain (s : State ι α) : State ι α :=
  match s.queue with
  | [] => s
  | x :: q => { s with queue := q, sent := s.sent ++ [x] }

/-- The store of an item. -/
def store (depth : ℕ) (s : State ι α) (a : α) (rest : List α) : State ι α :=
  { s with
    queue := if s.queue.length < depth then s.queue ++ [(s.running, a)] else s.queue
    todo := Function.update s.todo s.running rest
    clear := Function.update s.clear s.running false }

/-- The look at the queue. -/
def look (depth : ℕ) (s : State ι α) : State ι α :=
  { s with clear := Function.update s.clear s.running (decide (s.queue.length < depth)) }

def access (depth : ℕ) (s : State ι α) : State ι α :=
  match s.todo s.running with
  | [] => s
  | a :: rest => if s.clear s.running then store depth s a rest else look depth s

def puts (s : State ι α) (xs : List α) : State ι α :=
  if s.todo s.running = [] then
    { s with
      todo := Function.update s.todo s.running xs
      asked := Function.update s.asked s.running (s.asked s.running ++ xs) }
  else s

def interrupt (s : State ι α) : State ι α :=
  match s.running with
  | none => s
  | some i =>
    { s with
      running := none
      hits := Function.update s.hits (some i)
        (s.hits (some i) + if s.clear (some i) then 1 else 0) }

def resume (s : State ι α) (i : ι) : State ι α :=
  if s.running = none ∧ s.todo none = [] then { s with running := some i } else s

/-- An event that is not possible leaves everything as it is. -/
def step (depth : ℕ) (s : State ι α) : Event ι α → State ι α
  | .drain => drain s
  | .access => access depth s
  | .puts xs => puts s xs
  | .interrupt => interrupt s
  | .resume i => resume s i

def run (depth : ℕ) (s : State ι α) (es : List (Event ι α)) : State ι α := es.foldl (step depth) s

/-- Nothing has been put out yet. -/
def start (w : Option ι) : State ι α :=
  ⟨[], [], fun _ => [], fun _ => false, w, fun _ => [], fun _ => 0⟩

/-- The items of one writer that the device has accepted. -/
def State.shown (s : State ι α) (w : Option ι) : List α :=
  s.out.filterMap fun x => if x.1 = w then some x.2 else none

/-! ## What an access can do -/

section Access
variable {depth : ℕ} {s : State ι α}

omit [DecidableEq ι] in
theorem out_drain : (drain s).out = s.out := by
  unfold drain
  split
  · rfl
  · rename_i x q hq
    simp [State.out, hq]

omit [DecidableEq ι] in
/-- The writers do not see the device send. -/
theorem drain_eq : ∃ q l, drain s = { s with queue := q, sent := l } := by
  unfold drain
  split
  · exact ⟨_, _, rfl⟩
  · exact ⟨_, _, rfl⟩

omit [DecidableEq ι] in
theorem length_drain : (drain s).queue.length ≤ s.queue.length := by
  unfold drain
  split
  · exact le_rfl
  · rename_i x q hq
    simp [hq]

theorem out_store (a : α) (rest : List α) : (store depth s a rest).out =
    if s.queue.length < depth then s.out ++ [(s.running, a)] else s.out := by
  unfold store State.out
  split_ifs <;> simp

theorem shown_of_out {s' : State ι α} (h : s'.out = s.out) (w : Option ι) :
    s'.shown w = s.shown w := by
  rw [State.shown, h, State.shown]

theorem shown_append {s' : State ι α} {v : Option ι} {a : α} (h : s'.out = s.out ++ [(v, a)])
    (w : Option ι) : s'.shown w = s.shown w ++ if v = w then [a] else [] := by
  rw [State.shown, h, List.filterMap_append, State.shown]
  split_ifs with hw <;> simp [hw]

end Access

/-! ## The invariant -/

/-- An item is at risk when its writer has found room that may be gone at the store. -/
def State.AtRisk (depth : ℕ) (s : State ι α) (w : Option ι) : Prop :=
  s.clear w = true ∧ ¬ (s.running = w ∧ s.queue.length < depth)

instance (depth : ℕ) (s : State ι α) (w : Option ι) : Decidable (s.AtRisk depth w) :=
  inferInstanceAs (Decidable (_ ∧ _))

/-- `done` is what the writer has stored, `shown` what of it was accepted. -/
structure Kept (depth : ℕ) (s : State ι α) (w : Option ι) (done : List α) : Prop where
  asked : s.asked w = done ++ s.todo w
  shown : (s.shown w).Sublist done
  lost : done.length + (if s.AtRisk depth w then 1 else 0) ≤ (s.shown w).length + s.hits w
  idle : s.todo w = [] → s.clear w = false

/-- What holds in every state of a run. -/
structure Inv (depth : ℕ) (s : State ι α) : Prop where
  length : s.queue.length ≤ depth
  hits : s.hits none = 0
  handled : s.running ≠ none → s.todo none = []
  kept : ∀ w, ∃ done, Kept depth s w done

section Step
variable {depth : ℕ} {s s' : State ι α} {w : Option ι} {done : List α}

/-- A step that does not touch the writer's own state and does not add to its risk. -/
theorem Kept.frame (h : Kept depth s w done) (hasked : s'.asked w = s.asked w)
    (htodo : s'.todo w = s.todo w) (hclear : s'.clear w = s.clear w) (hhits : s'.hits w = s.hits w)
    (hshown : s'.shown w = s.shown w) (hrisk : s'.AtRisk depth w → s.AtRisk depth w) :
    Kept depth s' w done where
  asked := by rw [hasked, htodo, h.asked]
  shown := by rw [hshown]; exact h.shown
  lost := by
    have hle : (if s'.AtRisk depth w then 1 else 0) ≤ if s.AtRisk depth w then 1 else 0 := by
      split_ifs with h' h''
      · exact le_rfl
      · exact absurd (hrisk h') h''
      · omega
      · exact le_rfl
    have hlost := h.lost
    rw [hshown, hhits]
    omega
  idle := by rw [htodo, hclear]; exact h.idle

omit [DecidableEq ι] in
theorem State.AtRisk.of_ne (hw : s.running ≠ w) (hclear : s'.clear w = s.clear w)
    (h : s'.AtRisk depth w) : s.AtRisk depth w :=
  ⟨hclear ▸ h.1, fun hrun => hw hrun.1⟩

theorem Kept.drain (h : Kept depth s w done) : Kept depth (drain s) w done := by
  have hout := @out_drain ι α s
  have hlen := @length_drain ι α s
  obtain ⟨q, l, heq⟩ := @drain_eq ι α s
  rw [heq] at hout hlen ⊢
  refine h.frame rfl rfl rfl rfl (shown_of_out hout w) ?_
  rintro ⟨hclear, hroom⟩
  exact ⟨hclear, fun hrun => hroom ⟨hrun.1, hlen.trans_lt hrun.2⟩⟩

theorem Kept.store (h : Kept depth s w done) {a : α} {rest : List α}
    (htodo : s.todo s.running = a :: rest) (hclear : s.clear s.running = true) :
    ∃ done', Kept depth (store depth s a rest) w done' := by
  have hout := @out_store ι α _ depth s a rest
  by_cases hw : s.running = w
  · subst hw
    have hlost := h.lost
    refine ⟨done ++ [a], ?_, ?_, ?_, fun _ => Function.update_self ..⟩
    · rw [List.append_assoc]
      exact h.asked.trans (by rw [htodo]; simp [SharedFifo.store])
    · split_ifs at hout with hlt
      · rw [shown_append hout, if_pos rfl]
        exact h.shown.append (List.Sublist.refl _)
      · rw [shown_of_out hout]
        exact h.shown.trans (List.sublist_append_left _ _)
    · have hsafe : ¬ (SharedFifo.store depth s a rest).AtRisk depth s.running := by
        rintro ⟨hc, -⟩
        simp [SharedFifo.store] at hc
      rw [if_neg hsafe, List.length_append, List.length_singleton]
      change done.length + 1 + 0 ≤ _ + s.hits s.running
      split_ifs at hout with hlt
      · rw [shown_append hout, if_pos rfl, List.length_append, List.length_singleton]
        omega
      · rw [if_pos ⟨hclear, fun hroom => hlt hroom.2⟩] at hlost
        rw [shown_of_out hout]
        omega
  · refine ⟨done, h.frame rfl ?_ ?_ rfl ?_ (State.AtRisk.of_ne hw ?_)⟩
    · exact Function.update_of_ne (Ne.symm hw) _ _
    · exact Function.update_of_ne (Ne.symm hw) _ _
    · split_ifs at hout with hlt
      · rw [shown_append hout, if_neg hw, List.append_nil]
      · exact shown_of_out hout w
    · exact Function.update_of_ne (Ne.symm hw) _ _

theorem Kept.look (h : Kept depth s w done) (htodo : s.todo s.running ≠ []) :
    Kept depth (look depth s) w done := by
  by_cases hw : s.running = w
  · subst hw
    have hsafe : ¬ (SharedFifo.look depth s).AtRisk depth s.running := by
      rintro ⟨hc, hroom⟩
      exact hroom ⟨rfl, by simpa [SharedFifo.look] using hc⟩
    have hlost := h.lost
    refine ⟨h.asked, h.shown, ?_, fun hnil => absurd hnil htodo⟩
    rw [if_neg hsafe]
    change done.length + 0 ≤ (s.shown s.running).length + s.hits s.running
    omega
  · have hclear := Function.update_of_ne (Ne.symm hw) (decide (s.queue.length < depth)) s.clear
    exact h.frame rfl rfl hclear rfl rfl (State.AtRisk.of_ne hw hclear)

theorem Kept.access (h : Kept depth s w done) : ∃ done', Kept depth (access depth s) w done' := by
  unfold SharedFifo.access
  split
  · exact ⟨done, h⟩
  · rename_i a rest htodo
    split_ifs with hclear
    · exact h.store htodo hclear
    · exact ⟨done, h.look (by simp [htodo])⟩

theorem Kept.puts (h : Kept depth s w done) (xs : List α) : Kept depth (puts s xs) w done := by
  unfold SharedFifo.puts
  split_ifs with hnil
  · by_cases hw : s.running = w
    · subst hw
      have hasked := h.asked
      rw [hnil, List.append_nil] at hasked
      refine ⟨?_, h.shown, h.lost, fun _ => h.idle hnil⟩
      simp [hasked]
    · exact h.frame (Function.update_of_ne (Ne.symm hw) _ _)
        (Function.update_of_ne (Ne.symm hw) _ _) rfl rfl rfl (State.AtRisk.of_ne hw rfl)
  · exact h

theorem Kept.interrupt (h : Kept depth s w done) : Kept depth (interrupt s) w done := by
  unfold SharedFifo.interrupt
  split
  · exact h
  · rename_i i hrun
    by_cases hw : some i = w
    · subst hw
      have hlost := h.lost
      refine ⟨h.asked, h.shown, ?_, h.idle⟩
      change done.length + _ ≤ (s.shown (some i)).length + Function.update s.hits (some i)
        (s.hits (some i) + if s.clear (some i) then 1 else 0) (some i)
      rw [Function.update_self]
      by_cases hclear : s.clear (some i) = true
      · rw [if_pos hclear]
        split_ifs <;> omega
      · rw [if_neg fun hrisk => hclear hrisk.1]
        omega
    · exact h.frame rfl rfl rfl (Function.update_of_ne (Ne.symm hw) _ _) rfl
        (State.AtRisk.of_ne (hrun ▸ hw) rfl)

/-- A handler ends with nothing at risk. -/
theorem Kept.resume (h : Kept depth s w done) (i : ι) : Kept depth (resume s i) w done := by
  unfold SharedFifo.resume
  split_ifs with hdone
  · refine h.frame rfl rfl rfl rfl rfl ?_
    rintro ⟨hclear, -⟩
    refine ⟨hclear, ?_⟩
    rintro ⟨hrun, -⟩
    obtain rfl : w = none := hrun.symm.trans hdone.1
    have hidle : s.clear none = false := h.idle hdone.2
    exact absurd (hclear.symm.trans hidle) (by decide)
  · exact h

theorem Kept.step (h : Kept depth s w done) (e : Event ι α) :
    ∃ done', Kept depth (step depth s e) w done' := by
  cases e with
  | drain => exact ⟨done, h.drain⟩
  | access => exact h.access
  | puts xs => exact ⟨done, h.puts xs⟩
  | interrupt => exact ⟨done, h.interrupt⟩
  | resume i => exact ⟨done, h.resume i⟩

theorem length_step (h : s.queue.length ≤ depth) (e : Event ι α) :
    (step depth s e).queue.length ≤ depth := by
  cases e with
  | drain => exact length_drain.trans h
  | access =>
    simp only [SharedFifo.step, SharedFifo.access]
    split
    · exact h
    · simp only [SharedFifo.store, SharedFifo.look]
      split_ifs with hclear hlt
      · simpa using hlt
      · exact h
      · exact h
  | puts xs =>
    simp only [SharedFifo.step, SharedFifo.puts]
    split_ifs <;> exact h
  | interrupt =>
    simp only [SharedFifo.step, SharedFifo.interrupt]
    split <;> exact h
  | resume i =>
    simp only [SharedFifo.step, SharedFifo.resume]
    split_ifs <;> exact h

/-- Only an interrupt counts as one, and only for the task it interrupts. -/
theorem hits_step (e : Event ι α) : (step depth s e).hits = s.hits ∨
    ∃ i n, n ≤ 1 ∧ e = .interrupt ∧
      (step depth s e).hits = Function.update s.hits (some i) (s.hits (some i) + n) := by
  cases e with
  | drain =>
    obtain ⟨q, l, heq⟩ := @drain_eq ι α s
    left
    simp only [SharedFifo.step, heq]
  | access =>
    left
    simp only [SharedFifo.step, SharedFifo.access]
    split
    · rfl
    · split_ifs <;> rfl
  | puts xs =>
    left
    simp only [SharedFifo.step, SharedFifo.puts]
    split_ifs <;> rfl
  | interrupt =>
    simp only [SharedFifo.step, SharedFifo.interrupt]
    split
    · exact .inl rfl
    · refine .inr ⟨_, _, ?_, trivial, rfl⟩
      split_ifs <;> omega
  | resume i =>
    left
    simp only [SharedFifo.step, SharedFifo.resume]
    split_ifs <;> rfl

theorem hits_step_none (e : Event ι α) : (step depth s e).hits none = s.hits none := by
  obtain h | ⟨i, n, -, -, h⟩ := @hits_step ι α _ depth s e
  · rw [h]
  · rw [h]
    exact Function.update_of_ne (Option.some_ne_none i).symm _ _

theorem hits_step_le (e : Event ι α) (w : Option ι) :
    (step depth s e).hits w ≤ s.hits w + if e.isInterrupt then 1 else 0 := by
  obtain h | ⟨i, n, hn, rfl, h⟩ := @hits_step ι α _ depth s e
  · rw [h]
    exact Nat.le_add_right _ _
  · rw [h, if_pos (show (Event.interrupt : Event ι α).isInterrupt = true from rfl)]
    by_cases hw : w = some i
    · rw [hw, Function.update_self]
      omega
    · rw [Function.update_of_ne hw]
      exact Nat.le_add_right _ _

/-- Nothing but a call asks for more. -/
theorem asked_step {e : Event ι α} (he : ∀ xs, e ≠ .puts xs) :
    (step depth s e).asked = s.asked := by
  cases e with
  | drain =>
    obtain ⟨q, l, heq⟩ := @drain_eq ι α s
    simp only [SharedFifo.step, heq]
  | access =>
    simp only [SharedFifo.step, SharedFifo.access]
    split
    · rfl
    · split_ifs <;> rfl
  | puts xs => exact absurd rfl (he xs)
  | interrupt =>
    simp only [SharedFifo.step, SharedFifo.interrupt]
    split <;> rfl
  | resume i =>
    simp only [SharedFifo.step, SharedFifo.resume]
    split_ifs <;> rfl

/-- A handler prints all it has to before it ends. -/
theorem handled_step (h : s.running ≠ none → s.todo none = []) (e : Event ι α)
    (hrun : (step depth s e).running ≠ none) : (step depth s e).todo none = [] := by
  cases e with
  | drain =>
    obtain ⟨q, l, heq⟩ := @drain_eq ι α s
    simp only [SharedFifo.step, heq] at hrun ⊢
    exact h hrun
  | access =>
    simp only [SharedFifo.step, SharedFifo.access] at hrun ⊢
    split at hrun
    · exact h hrun
    · split_ifs at hrun ⊢ with hclear
      · exact (Function.update_of_ne (Ne.symm hrun) _ _).trans (h hrun)
      · exact h hrun
  | puts xs =>
    simp only [SharedFifo.step, SharedFifo.puts] at hrun ⊢
    split_ifs at hrun ⊢ with hnil
    · exact (Function.update_of_ne (Ne.symm hrun) _ _).trans (h hrun)
    · exact h hrun
  | interrupt =>
    simp only [SharedFifo.step, SharedFifo.interrupt] at hrun ⊢
    split at hrun
    · exact h hrun
    · exact absurd rfl hrun
  | resume i =>
    simp only [SharedFifo.step, SharedFifo.resume] at hrun ⊢
    split_ifs at hrun ⊢ with hdone
    · exact hdone.2
    · exact h hrun

theorem Inv.step (h : Inv depth s) (e : Event ι α) : Inv depth (SharedFifo.step depth s e) where
  length := length_step h.length e
  hits := (hits_step_none e).trans h.hits
  handled := handled_step h.handled e
  kept w := by
    obtain ⟨done, hdone⟩ := h.kept w
    exact hdone.step e

end Step

section Run
variable {depth : ℕ} {s : State ι α}

theorem Inv.start (depth : ℕ) (w : Option ι) : Inv depth (start w : State ι α) where
  length := Nat.zero_le _
  hits := rfl
  handled _ := rfl
  kept v := ⟨[], rfl, List.Sublist.refl _, by simp [SharedFifo.start, State.AtRisk], fun _ => rfl⟩

theorem Inv.run (h : Inv depth s) (es : List (Event ι α)) : Inv depth (run depth s es) := by
  induction es generalizing s with
  | nil => exact h
  | cons e es ih => exact ih (h.step e)

theorem hits_run_le (es : List (Event ι α)) (w : Option ι) :
    (SharedFifo.run depth s es).hits w ≤ s.hits w + es.countP Event.isInterrupt := by
  induction es generalizing s with
  | nil => exact le_rfl
  | cons e es ih =>
    have hstep := @hits_step_le ι α _ depth s e w
    rw [List.countP_cons]
    exact (ih.trans (Nat.add_le_add_right hstep _)).trans (by omega)

/-- Whatever the order of the accesses, a writer's items come out in order, and all but those that
an interrupt came in between of. -/
theorem Inv.shown (h : Inv depth s) (w : Option ι) : ∃ done, s.asked w = done ++ s.todo w ∧
    (s.shown w).Sublist done ∧ done.length ≤ (s.shown w).length + s.hits w := by
  obtain ⟨done, hdone⟩ := h.kept w
  exact ⟨done, hdone.asked, hdone.shown, (Nat.le_add_right _ _).trans hdone.lost⟩

/-- A handler loses nothing. -/
theorem Inv.shown_none (h : Inv depth s) : s.asked none = s.shown none ++ s.todo none := by
  obtain ⟨done, hasked, hsub, hlen⟩ := h.shown none
  rw [h.hits, Nat.add_zero] at hlen
  rw [hasked, hsub.eq_of_length_le hlen]

/-- A handler that finds room at the look finds it at the store. -/
theorem Inv.room (h : Inv depth s) (hclear : s.clear none = true) :
    s.queue.length < depth := by
  by_contra hfull
  obtain ⟨done, hdone⟩ := h.kept none
  have hlost := hdone.lost
  have hlen := hdone.shown.length_le
  rw [if_pos ⟨hclear, fun hroom => hfull hroom.2⟩, h.hits] at hlost
  omega

end Run

/-! ## A writer that keeps running -/

/-- The event does not make another writer run. -/
def Event.Stays (w : Option ι) : Event ι α → Prop
  | .interrupt => w = none
  | .resume _ => w ≠ none
  | _ => True

/-- What the writer `w` puts out from `s` to `s'`, or has yet to put out, is all that comes, in one
piece. -/
structure Alone (depth : ℕ) (w : Option ι) (s s' : State ι α) : Prop where
  running : s'.running = w
  safe : s'.clear w = true → s'.queue.length < depth
  piece : ∃ xs, s'.asked w = s.asked w ++ xs ∧
    s'.out ++ (s'.todo w).map (w, ·) = s.out ++ (s.todo w ++ xs).map (w, ·)

section Alone
variable {depth : ℕ} {w : Option ι} {s s' s'' : State ι α}

omit [DecidableEq ι] in
theorem Alone.of_out (hrun : s'.running = w) (hsafe : s'.clear w = true → s'.queue.length < depth)
    (hasked : s'.asked w = s.asked w)
    (hout : s'.out ++ (s'.todo w).map (w, ·) = s.out ++ (s.todo w).map (w, ·)) :
    Alone depth w s s' :=
  ⟨hrun, hsafe, [], by rw [hasked, List.append_nil], by rw [hout, List.append_nil]⟩

omit [DecidableEq ι] in
theorem Alone.trans (h : Alone depth w s s') (h' : Alone depth w s' s'') : Alone depth w s s'' := by
  obtain ⟨xs, hasked, hout⟩ := h.piece
  obtain ⟨ys, hasked', hout'⟩ := h'.piece
  refine ⟨h'.running, h'.safe, xs ++ ys, ?_, ?_⟩
  · rw [hasked', hasked, List.append_assoc]
  · rw [hout', List.map_append, ← List.append_assoc, hout]
    simp

omit [DecidableEq ι] in
theorem alone_drain (hrun : s.running = w) (hsafe : s.clear w = true → s.queue.length < depth) :
    Alone depth w s (drain s) := by
  have hout := @out_drain ι α s
  have hlen := @length_drain ι α s
  obtain ⟨q, l, heq⟩ := @drain_eq ι α s
  rw [heq] at hout hlen ⊢
  exact .of_out hrun (fun hclear => hlen.trans_lt (hsafe hclear)) rfl (by rw [hout])

theorem alone_access (hrun : s.running = w) (hsafe : s.clear w = true → s.queue.length < depth) :
    Alone depth w s (access depth s) := by
  subst hrun
  unfold SharedFifo.access
  split
  · exact .of_out rfl hsafe rfl rfl
  · rename_i a rest htodo
    split_ifs with hclear
    · refine .of_out rfl ?_ rfl ?_
      · simp [store]
      · rw [out_store, if_pos (hsafe hclear), htodo]
        simp [store]
    · refine .of_out rfl ?_ rfl rfl
      simp [look]

theorem alone_puts (hrun : s.running = w) (hsafe : s.clear w = true → s.queue.length < depth)
    (xs : List α) : Alone depth w s (puts s xs) := by
  subst hrun
  unfold SharedFifo.puts
  split_ifs with hnil
  · refine ⟨rfl, hsafe, xs, ?_, ?_⟩
    · simp
    · simp [hnil, State.out]
  · exact .of_out rfl hsafe rfl rfl

theorem alone_step (hrun : s.running = w) (hsafe : s.clear w = true → s.queue.length < depth)
    {e : Event ι α} (he : e.Stays w) : Alone depth w s (step depth s e) := by
  cases e with
  | drain => exact alone_drain hrun hsafe
  | access => exact alone_access hrun hsafe
  | puts xs => exact alone_puts hrun hsafe xs
  | interrupt =>
    have hnone : s.running = none := hrun.trans he
    simp only [step, interrupt, hnone]
    exact .of_out hrun hsafe rfl rfl
  | resume i =>
    have hsome : ¬ (s.running = none ∧ s.todo none = []) := fun h => he (hrun.symm.trans h.1)
    simp only [step, resume, if_neg hsome]
    exact .of_out hrun hsafe rfl rfl

/-- Until another writer runs, nothing but this one's items comes out. -/
theorem alone_run (hrun : s.running = w) (hsafe : s.clear w = true → s.queue.length < depth)
    {es : List (Event ι α)} (hes : ∀ e ∈ es, e.Stays w) : Alone depth w s (run depth s es) := by
  induction es generalizing s with
  | nil => exact .of_out hrun hsafe rfl rfl
  | cons e es ih =>
    have hstep := alone_step hrun hsafe (hes e List.mem_cons_self)
    apply hstep.trans
    exact ih hstep.running hstep.safe fun e' he' => hes e' (List.mem_cons_of_mem e he')

end Alone

/-! ## Progress -/

/-- The events between two interrupts in which the running writer only writes. -/
def Event.Writes (e : Event ι α) : Prop := e = .drain ∨ e = .access

/-- How many more accesses that are not in vain the running writer makes. -/
def State.work (s : State ι α) : ℕ :=
  2 * (s.todo s.running).length + if s.clear s.running then 0 else 1

section Progress
variable {depth : ℕ} {s : State ι α} {e : Event ι α}

omit [DecidableEq ι] in
theorem drain_writer : (drain s).running = s.running ∧ (drain s).work = s.work := by
  obtain ⟨q, l, heq⟩ := @drain_eq ι α s
  rw [heq]
  exact ⟨rfl, rfl⟩

theorem access_writer : (access depth s).running = s.running ∧
    (access depth s).work ≤ s.work ∧ (s.todo s.running ≠ [] → s.queue.length < depth →
      (access depth s).work < s.work) := by
  unfold SharedFifo.access
  split
  · rename_i hnil
    exact ⟨rfl, le_rfl, fun hne => absurd hnil hne⟩
  · rename_i a rest htodo
    split_ifs with hclear
    · have hlt : (store depth s a rest).work < s.work := by
        simp [State.work, store, htodo, hclear]
        omega
      exact ⟨rfl, hlt.le, fun _ _ => hlt⟩
    · have hwork : (look depth s).work =
          2 * (s.todo s.running).length + if s.queue.length < depth then 0 else 1 := by
        simp [State.work, look]
      have hbefore : s.work = 2 * (s.todo s.running).length + 1 := by
        simp [State.work, hclear]
      refine ⟨rfl, ?_, ?_⟩
      · rw [hwork, hbefore]
        split_ifs <;> omega
      · intro _ hlt
        rw [hwork, hbefore, if_pos hlt]
        omega

theorem writes_step (he : e.Writes) : (step depth s e).running = s.running ∧
    (step depth s e).work ≤ s.work := by
  obtain rfl | rfl := he
  · exact ⟨drain_writer.1, drain_writer.2.le⟩
  · exact ⟨access_writer.1, access_writer.2.1⟩

/-- Nothing is asked for, and nothing is lost if there is room for what has been looked for. -/
theorem writes_run (hsafe : s.clear s.running = true → s.queue.length < depth)
    {es : List (Event ι α)} (hes : ∀ e ∈ es, e.Writes) :
    (run depth s es).out ++ ((run depth s es).todo s.running).map (s.running, ·) =
      s.out ++ (s.todo s.running).map (s.running, ·) := by
  have hstays : ∀ e ∈ es, e.Stays s.running := by
    intro e he
    obtain rfl | rfl := hes e he <;> trivial
  have hasked : (run depth s es).asked = s.asked := by
    clear hstays hsafe
    induction es generalizing s with
    | nil => rfl
    | cons e es ih =>
      have hputs : ∀ xs, e ≠ .puts xs := by
        obtain rfl | rfl := hes e List.mem_cons_self <;> simp
      exact (ih fun e' he' => hes e' (List.mem_cons_of_mem e he')).trans (asked_step hputs)
  obtain ⟨xs, hxs, hout⟩ := (alone_run rfl hsafe hstays).piece
  rw [hasked, List.self_eq_append_right] at hxs
  rw [hout, hxs, List.append_nil]

/-- The events from `n` on, as the device and the writer come to them. -/
def State.at (depth : ℕ) (s : State ι α) (f : ℕ → Event ι α) (n : ℕ) : State ι α :=
  run depth s ((List.range n).map f)

variable {f : ℕ → Event ι α}

theorem State.at_succ (n : ℕ) : s.at depth f (n + 1) = step depth (s.at depth f n) (f n) := by
  simp [State.at, run, List.range_succ]

theorem State.at_running (hf : ∀ n, (f n).Writes) (n : ℕ) :
    (s.at depth f n).running = s.running := by
  induction n with
  | zero => rfl
  | succ n ih => rw [State.at_succ, (writes_step (hf n)).1, ih]

theorem State.at_work (hf : ∀ n, (f n).Writes) {m n : ℕ} (hmn : m ≤ n) :
    (s.at depth f n).work ≤ (s.at depth f m).work := by
  induction n, hmn using Nat.le_induction with
  | base => exact le_rfl
  | succ n _ ih => rw [State.at_succ]; exact (writes_step (hf n)).2.trans ih

/-- Once there is room there is room at the next access. -/
theorem room_at_access (hf : ∀ n, (f n).Writes) {k n : ℕ} (hacc : f (n + k) = .access)
    (hroom : (s.at depth f n).queue.length < depth) :
    ∃ m ≥ n, f m = .access ∧ (s.at depth f m).queue.length < depth := by
  induction k generalizing n with
  | zero => exact ⟨n, le_rfl, hacc, hroom⟩
  | succ k ih =>
    obtain hdrain | hacc' := hf n
    · have hnext : (s.at depth f (n + 1)).queue.length < depth := by
        rw [State.at_succ, hdrain]
        exact length_drain.trans_lt hroom
      obtain ⟨m, hm, h⟩ := ih (by rw [← hacc]; congr 1; omega) hnext
      exact ⟨m, by omega, h⟩
    · exact ⟨n, le_rfl, hacc', hroom⟩

omit [DecidableEq ι] in
theorem room_after_drain (hdepth : 0 < depth) (h : s.queue.length ≤ depth) :
    (drain s).queue.length < depth := by
  unfold SharedFifo.drain
  split
  · rename_i hnil
    rwa [hnil]
  · rename_i x q hq
    rw [hq] at h
    exact h

/-- A writer that is left alone is done at some time, if the device goes on sending. -/
theorem Inv.finishes (h : Inv depth s) (hdepth : 0 < depth) (hf : ∀ n, (f n).Writes)
    (hdrain : ∀ n, ∃ m ≥ n, f m = .drain) (hacc : ∀ n, ∃ m ≥ n, f m = .access) :
    ∃ n, (s.at depth f n).todo s.running = [] := by
  have hleft : ∀ k n, (s.at depth f n).work ≤ k → ∃ m, (s.at depth f m).todo s.running = [] := by
    intro k
    induction k with
    | zero =>
      intro n hn
      refine ⟨n, ?_⟩
      rw [State.work, State.at_running hf] at hn
      exact List.eq_nil_of_length_eq_zero (by omega)
    | succ k ih =>
      intro n hn
      obtain ⟨d, hd, hfd⟩ := hdrain n
      obtain ⟨a, ha, hfa⟩ := hacc (d + 1)
      obtain ⟨j, rfl⟩ := Nat.exists_eq_add_of_le ha
      have hroom : (s.at depth f (d + 1)).queue.length < depth := by
        rw [State.at_succ, hfd]
        exact room_after_drain hdepth (h.run _).length
      obtain ⟨m, hm, hfm, hlt⟩ := room_at_access hf hfa hroom
      by_cases hnil : (s.at depth f m).todo s.running = []
      · exact ⟨m, hnil⟩
      · apply ih (m + 1)
        have hle := @State.at_work ι α _ depth s f hf n m (by omega)
        have hless : (s.at depth f (m + 1)).work < (s.at depth f m).work := by
          rw [State.at_succ, hfm]
          apply access_writer.2.2 _ hlt
          rwa [State.at_running hf]
        omega
  exact hleft _ 0 le_rfl

end Progress

end SharedFifo
