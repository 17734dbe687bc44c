import Mathlib.Tactic

/-!
# Code that is written as data

Stores go to the data side. A fetch is answered by the instruction cache and, where that holds
nothing, by the level at which the two sides meet. Data gets there when its line is cleaned, and the
instruction cache forgets a line that is invalidated. Either may also happen on its own, and lines
are filled at any time. What has been cleaned and after that invalidated is fetched as it was stored.
-/
namespace FetchCache

universe u

variable {V : Type u}

/-- `data` is what loads and stores see, `unified` what instruction lines are filled from. -/
structure Hierarchy (V : Type u) where
  data : ℕ → V
  unified : ℕ → V
  fetched : ℕ → Option V

/-- The line of `size` bytes that `addr` lies in. -/
structure Line where
  size : ℕ
  addr : ℕ
  deriving DecidableEq, Repr

def Line.Covers (l : Line) (a : ℕ) : Prop := a / l.size = l.addr / l.size

instance (l : Line) (a : ℕ) : Decidable (l.Covers a) := inferInstanceAs (Decidable (_ = _))

inductive Op (V : Type u)
  | store (a : ℕ) (v : V)
  | clean (l : Line)
  | invalidate (l : Line)
  | fill (l : Line)

def Op.StoresAt (a : ℕ) : Op V → Prop
  | .store b _ => b = a
  | _ => False

instance (a : ℕ) (op : Op V) : Decidable (op.StoresAt a) := by
  unfold Op.StoresAt
  split <;> infer_instance

def step (h : Hierarchy V) : Op V → Hierarchy V
  | .store a v => { h with data := Function.update h.data a v }
  | .clean l => { h with unified := fun a => if l.Covers a then h.data a else h.unified a }
  | .invalidate l => { h with fetched := fun a => if l.Covers a then none else h.fetched a }
  | .fill l => { h with fetched := fun a => if l.Covers a then some (h.unified a) else h.fetched a }

def run (h : Hierarchy V) (ops : List (Op V)) : Hierarchy V := ops.foldl step h

def fetch (h : Hierarchy V) (a : ℕ) : V := (h.fetched a).getD (h.unified a)

/-- What the instruction cache is filled with at `a` is current. -/
def Cleaned (h : Hierarchy V) (a : ℕ) : Prop := h.unified a = h.data a

/-- The instruction cache is current at `a` as well. -/
structure Synced (h : Hierarchy V) (a : ℕ) : Prop where
  cleaned : Cleaned h a
  fetched : ∀ v, h.fetched a = some v → v = h.data a

theorem Synced.fetch_eq {h : Hierarchy V} {a : ℕ} (hs : Synced h a) : fetch h a = h.data a := by
  unfold fetch
  cases hf : h.fetched a with
  | none => exact hs.cleaned
  | some v => exact hs.fetched v hf

/-! ## One operation -/

section Step
variable {h : Hierarchy V} {a : ℕ} {op : Op V} {l : Line}

theorem step_data (hop : ¬ op.StoresAt a) : (step h op).data a = h.data a := by
  cases op with
  | store b v => exact Function.update_of_ne (Ne.symm hop) _ _
  | clean l => rfl
  | invalidate l => rfl
  | fill l => rfl

theorem step_clean (hl : l.Covers a) : Cleaned (step h (.clean l)) a := if_pos hl

theorem Cleaned.step (hc : Cleaned h a) (hop : ¬ op.StoresAt a) : Cleaned (step h op) a := by
  unfold Cleaned at hc ⊢
  rw [step_data hop, ← hc]
  cases op with
  | store b v => rfl
  | clean l => simp [FetchCache.step, hc]
  | invalidate l => rfl
  | fill l => rfl

theorem Cleaned.invalidate (hc : Cleaned h a) (hl : l.Covers a) :
    Synced (FetchCache.step h (.invalidate l)) a := by
  refine ⟨hc, ?_⟩
  intro v hv
  simp only [FetchCache.step, if_pos hl, reduceCtorEq] at hv

theorem Synced.step (hs : Synced h a) (hop : ¬ op.StoresAt a) : Synced (step h op) a := by
  refine ⟨hs.cleaned.step hop, ?_⟩
  intro v hv
  rw [step_data hop]
  cases op with
  | store b w => exact hs.fetched v hv
  | clean l => exact hs.fetched v hv
  | invalidate l =>
    simp only [FetchCache.step] at hv
    split_ifs at hv
    exact hs.fetched v hv
  | fill l =>
    simp only [FetchCache.step] at hv
    split_ifs at hv
    · rw [← Option.some.inj hv]
      exact hs.cleaned
    · exact hs.fetched v hv

end Step

/-! ## Runs that store nothing at the address -/

section Run
variable {h : Hierarchy V} {a : ℕ} {ops : List (Op V)}

theorem run_data (hops : ∀ op ∈ ops, ¬ op.StoresAt a) : (run h ops).data a = h.data a := by
  induction ops generalizing h with
  | nil => rfl
  | cons op ops ih =>
    rw [run, List.foldl_cons]
    have hop := hops op List.mem_cons_self
    exact (ih fun op' hop' => hops op' (List.mem_cons_of_mem op hop')).trans (step_data hop)

end Run

/-! ## Maintenance that is interleaved with other operations -/

/-- What `ops` has yet to do for `a`: both, the second half, or nothing. -/
inductive Due (a : ℕ) (h : Hierarchy V) (ops : List (Op V)) : Prop
  | both {l l' : Line} (hsub : [.clean l, .invalidate l'].Sublist ops) (hl : l.Covers a)
      (hl' : l'.Covers a)
  | half {l' : Line} (hc : Cleaned h a) (hmem : .invalidate l' ∈ ops) (hl' : l'.Covers a)
  | nothing (hs : Synced h a)

section Due
variable {h : Hierarchy V} {a : ℕ} {op : Op V} {ops due : List (Op V)}

theorem Due.synced (hd : Due a h []) : Synced h a := by
  cases hd with
  | both hsub _ _ => exact absurd (List.sublist_nil.mp hsub) (List.cons_ne_nil _ _)
  | half _ hmem _ => exact absurd hmem List.not_mem_nil
  | nothing hs => exact hs

/-- Another operation comes first. -/
theorem Due.other (hd : Due a h due) (hop : ¬ op.StoresAt a) : Due a (step h op) due := by
  cases hd with
  | both hsub hl hl' => exact .both hsub hl hl'
  | half hc hmem hl' => exact .half (hc.step hop) hmem hl'
  | nothing hs => exact .nothing (hs.step hop)

/-- The next operation of the maintenance is done. -/
theorem Due.next (hd : Due a h (op :: due)) (hop : ¬ op.StoresAt a) : Due a (step h op) due := by
  cases hd with
  | both hsub hl hl' =>
    cases hsub with
    | cons _ hsub => exact .both hsub hl hl'
    | cons_cons _ hsub => exact .half (step_clean hl) (hsub.subset List.mem_cons_self) hl'
  | half hc hmem hl' =>
    obtain rfl | hmem := List.mem_cons.mp hmem
    · exact .nothing (hc.invalidate hl')
    · exact .half (hc.step hop) hmem hl'
  | nothing hs => exact .nothing (hs.step hop)

theorem Due.run (hd : Due a h due) (hsub : due.Sublist ops) (hops : ∀ op ∈ ops, ¬ op.StoresAt a) :
    Synced (FetchCache.run h ops) a := by
  induction hsub generalizing h with
  | slnil => exact hd.synced
  | cons op _ ih =>
    have hop := hops op List.mem_cons_self
    exact ih (hd.other hop) fun op' hop' => hops op' (List.mem_cons_of_mem op hop')
  | cons_cons op _ ih =>
    have hop := hops op List.mem_cons_self
    exact ih (hd.next hop) fun op' hop' => hops op' (List.mem_cons_of_mem op hop')

end Due

end FetchCache
