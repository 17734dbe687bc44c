import Mathlib.Tactic

/-!
# Interrupt dispatch

The two handler tables of `irq.c`, registration, and the way from the acknowledge register to
a handler. A handler is any value; calling it is an action that the dispatcher returns. What
the functions print is left out.
-/
namespace JanusRT

variable {F C : Type}

/-! ## The code -/

/-- `ppi_table` for the INTIDs below 32 and `spi_table` for those below 1020; `none` is the
null pointer. -/
structure IrqTables (F : Type) where
  ppi : Vector (Option F) 32
  spi : Vector (Option F) (1020 - 32)
  deriving DecidableEq

def irqRegisterPpi (intid : ℕ) (fn : Option F) (t : IrqTables F) : IrqTables F :=
  if h : intid < 32 then { t with ppi := t.ppi.set intid fn h } else t

def irqRegisterSpi (intid : ℕ) (fn : Option F) (t : IrqTables F) : IrqTables F :=
  if h : 32 ≤ intid ∧ intid < 1020 then
    { t with spi := t.spi.set (intid - 32) fn (by omega) }
  else t

def irqInit (t : IrqTables F) : IrqTables F :=
  (List.range 1020).foldl
    (fun t i => if i < 32 then irqRegisterPpi i none t else irqRegisterSpi i none t) t

/-- What `irq_dispatch` does once it has the handler. -/
inductive IrqAction (F C : Type)
  | defaultHandler (intid : ℕ)
  | call (f : F) (ctx : C)
  | skip
  deriving DecidableEq, Repr

/-- `irq_dispatch`; `none` is a read outside the table. -/
def irqDispatch (t : IrqTables F) (ctx : C) (intid : ℕ) : Option (IrqAction F C) :=
  if 1020 < intid then some (.defaultHandler intid)
  else
    match if intid < 32 then t.ppi[intid]? else t.spi[intid - 32]? with
    | none => none
    | some none => some .skip
    | some (some f) => some (.call f ctx)

/-- The INTID in what the acknowledge register reads. -/
def irqIntid (iar : ℕ) : ℕ := iar &&& 0x00FFFFFF

/-- `irq_el1` between the switch to the kernel and the way back. -/
def irqEl1 (t : IrqTables F) (ctx : C) (iar : ℕ) : Option (IrqAction F C) :=
  irqDispatch t ctx (irqIntid iar)

/-! ## Registrations -/

/-- A call of one of the two registration functions. -/
inductive Registration (F : Type)
  | ppi (intid : ℕ) (fn : Option F)
  | spi (intid : ℕ) (fn : Option F)
  deriving DecidableEq, Repr

namespace Registration

def apply : Registration F → IrqTables F → IrqTables F
  | ppi intid fn => irqRegisterPpi intid fn
  | spi intid fn => irqRegisterSpi intid fn

def fn : Registration F → Option F
  | ppi _ fn => fn
  | spi _ fn => fn

/-- The call is one for this INTID: each function has its own range. -/
def IsFor (intid : ℕ) : Registration F → Prop
  | ppi id _ => id = intid ∧ intid < 32
  | spi id _ => id = intid ∧ 32 ≤ intid ∧ intid < 1020

instance (intid : ℕ) : DecidablePred (IsFor (F := F) intid)
  | ppi _ _ => inferInstanceAs (Decidable (_ ∧ _))
  | spi _ _ => inferInstanceAs (Decidable (_ ∧ _ ∧ _))

end Registration

/-- The tables after a history of registrations, oldest first. -/
def IrqTables.after (t : IrqTables F) (h : List (Registration F)) : IrqTables F :=
  h.foldl (fun t r => r.apply t) t

/-- The handler of the newest registration for an INTID. -/
def registered (h : List (Registration F)) (intid : ℕ) : Option F :=
  (h.reverse.find? fun r => r.IsFor intid).bind Registration.fn

/-- The slot that is read for an INTID. -/
def IrqTables.slot (t : IrqTables F) (intid : ℕ) : Option F :=
  ((if intid < 32 then t.ppi[intid]? else t.spi[intid - 32]?).getD none)

section
variable {t : IrqTables F} {l : List (Registration F)} {intid : ℕ}

theorem slot_ppi (h : intid < 32) : t.slot intid = t.ppi[intid] := by
  simp [IrqTables.slot, h]

theorem slot_spi (h : ¬ intid < 32) : t.slot intid = t.spi[intid - 32]?.getD none := by
  simp [IrqTables.slot, h]

theorem slot_irqRegisterPpi (id : ℕ) (fn : Option F) : (irqRegisterPpi id fn t).slot intid =
    if id = intid ∧ intid < 32 then fn else t.slot intid := by
  unfold irqRegisterPpi
  by_cases hid : id < 32
  · rw [dif_pos hid]
    by_cases hlow : intid < 32
    · rw [slot_ppi hlow, slot_ppi hlow, Vector.getElem_set]
      simp only [hlow, and_true]
    · rw [slot_spi hlow, slot_spi hlow, if_neg fun h => hlow h.2]
  · rw [dif_neg hid, if_neg (by omega)]

theorem slot_irqRegisterSpi (id : ℕ) (fn : Option F) : (irqRegisterSpi id fn t).slot intid =
    if id = intid ∧ 32 ≤ intid ∧ intid < 1020 then fn else t.slot intid := by
  unfold irqRegisterSpi
  by_cases hid : 32 ≤ id ∧ id < 1020
  · rw [dif_pos hid]
    by_cases hlow : intid < 32
    · rw [slot_ppi hlow, slot_ppi hlow, if_neg (by omega)]
    · rw [slot_spi hlow, slot_spi hlow, Vector.getElem?_set]
      by_cases heq : id = intid
      · rw [if_pos (by omega), if_pos (by omega)]
        rfl
      · rw [if_neg (by omega), if_neg (by omega)]
  · rw [dif_neg hid, if_neg (by omega)]

/-- A registration changes the slot of its INTID and no other. -/
theorem slot_apply (r : Registration F) (t : IrqTables F) (intid : ℕ) :
    (r.apply t).slot intid = if r.IsFor intid then r.fn else t.slot intid := by
  cases r with
  | ppi id fn => exact slot_irqRegisterPpi id fn
  | spi id fn => exact slot_irqRegisterSpi id fn

/-- After a history a slot holds what the newest registration for it has brought. -/
theorem slot_after (t : IrqTables F) (h : List (Registration F)) (intid : ℕ) :
    (t.after h).slot intid =
      if ∃ r ∈ h, r.IsFor intid then registered h intid else t.slot intid := by
  induction h using List.reverseRecOn with
  | nil => simp [IrqTables.after]
  | append_singleton h r ih =>
    have hstep : t.after (h ++ [r]) = r.apply (t.after h) := by
      simp [IrqTables.after]
    rw [hstep, slot_apply, ih]
    by_cases hr : r.IsFor intid
    · simp [registered, hr]
    · simp [registered, hr]

theorem registered_eq_none (h : ¬ ∃ r ∈ l, r.IsFor intid) : registered l intid = none := by
  have hnone : (l.reverse.find? fun r => r.IsFor intid) = none := by
    simpa using h
  rw [registered, hnone]
  rfl

/-- The registrations that `irq_init` makes. -/
def initRegistrations : List (Registration F) :=
  (List.range 1020).map fun i => if i < 32 then .ppi i none else .spi i none

theorem irqInit_eq (t : IrqTables F) : irqInit t = t.after initRegistrations := by
  have hstep : (fun (t : IrqTables F) i =>
      if i < 32 then irqRegisterPpi i none t else irqRegisterSpi i none t) =
      fun t i => (if i < 32 then .ppi i none else .spi i none : Registration F).apply t := by
    funext t i
    split_ifs <;> rfl
  rw [irqInit, IrqTables.after, initRegistrations, List.foldl_map, hstep]

theorem slot_irqInit (t : IrqTables F) (hlt : intid < 1020) : (irqInit t).slot intid = none := by
  rw [irqInit_eq, slot_after, if_pos]
  · have hnull : ∀ r ∈ (initRegistrations : List (Registration F)), r.fn = none := by
      intro r hr
      obtain ⟨i, -, rfl⟩ := List.mem_map.mp hr
      split_ifs <;> rfl
    unfold registered
    cases hfind : initRegistrations.reverse.find? fun r : Registration F => r.IsFor intid with
    | none => rfl
    | some r => exact hnull r (List.mem_reverse.mp (List.mem_of_find?_eq_some hfind))
  · refine ⟨_, List.mem_map.mpr ⟨intid, List.mem_range.mpr hlt, rfl⟩, ?_⟩
    split_ifs with hlow
    · exact ⟨rfl, hlow⟩
    · exact ⟨rfl, by omega, hlt⟩

/-! ## Dispatch -/

/-- The call of a handler that may be null. -/
def IrqAction.ofHandler (ctx : C) : Option F → IrqAction F C
  | none => .skip
  | some f => .call f ctx

/-- In bounds and exact: the newest handler of an INTID below 1020, and none for another. -/
structure DispatchExact (h : List (Registration F)) (ctx : C) (intid : ℕ)
    (res : Option (IrqAction F C)) : Prop where
  inBounds : res ≠ none
  handler : intid < 1020 → res = some (.ofHandler ctx (registered h intid))
  other : 1020 ≤ intid → ∀ f c, res ≠ some (.call f c)

/-- The tables have a slot for every INTID below 1020. -/
theorem irqDispatch_slot (t : IrqTables F) (ctx : C) (hlt : intid < 1020) :
    irqDispatch t ctx intid = some (.ofHandler ctx (t.slot intid)) := by
  rw [irqDispatch, if_neg (by omega)]
  by_cases hlow : intid < 32
  · have hread : t.ppi[intid]? = some t.ppi[intid] := Vector.getElem?_eq_getElem hlow
    rw [if_pos hlow, hread, slot_ppi hlow]
    cases t.ppi[intid] <;> rfl
  · have hidx : intid - 32 < 1020 - 32 := by omega
    have hread : t.spi[intid - 32]? = some t.spi[intid - 32] := Vector.getElem?_eq_getElem hidx
    rw [if_neg hlow, hread, slot_spi hlow, hread, Option.getD_some]
    cases t.spi[intid - 32] <;> rfl

/-- The one INTID that passes the range test without a slot. -/
theorem irqDispatch_limit (t : IrqTables F) (ctx : C) : irqDispatch t ctx 1020 = none := by
  simp [irqDispatch]

end

/-- Whatever has been registered since `irq_init`, an interrupt is dispatched to the newest
handler of its INTID, in bounds, unless the INTID is 1020. -/
theorem irqEl1_iff (t : IrqTables F) (h : List (Registration F)) (ctx : C) (iar : ℕ) :
    DispatchExact h ctx (irqIntid iar) (irqEl1 ((irqInit t).after h) ctx iar) ↔
      irqIntid iar ≠ 1020 := by
  unfold irqEl1
  generalize irqIntid iar = intid
  constructor
  · intro hexact heq
    rw [heq] at hexact
    exact hexact.inBounds (irqDispatch_limit _ _)
  · intro hne
    by_cases hlt : intid < 1020
    · have hslot : ((irqInit t).after h).slot intid = registered h intid := by
        rw [slot_after]
        by_cases hex : ∃ r ∈ h, r.IsFor intid
        · rw [if_pos hex]
        · rw [if_neg hex, slot_irqInit t hlt, registered_eq_none hex]
      rw [irqDispatch_slot _ ctx hlt, hslot]
      exact ⟨by simp, fun _ => rfl, fun hge => absurd hlt (by omega)⟩
    · have hdefault : irqDispatch ((irqInit t).after h) ctx intid =
          some (.defaultHandler intid) := by
        rw [irqDispatch, if_pos (by omega)]
      rw [hdefault]
      exact ⟨by simp, fun h => absurd h hlt, by simp⟩

/-- With no handler registered at all, INTID 1020 reads behind the table. -/
theorem irqEl1_limit :
    let t : IrqTables Unit := irqInit ⟨.replicate 32 none, .replicate (1020 - 32) none⟩
    irqIntid 1020 = 1020 ∧ irqEl1 (t.after []) () 1020 = none ∧
      ¬ DispatchExact [] () (irqIntid 1020) (irqEl1 (t.after []) () 1020) := by
  intro t
  have hread : irqEl1 (t.after []) () 1020 = none := irqDispatch_limit _ ()
  exact ⟨rfl, hread, fun hexact => hexact.inBounds hread⟩

end JanusRT
