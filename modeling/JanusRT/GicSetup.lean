import JanusRT.Gic
import JanusRT.Irq
import JanusRT.Lib.RegisterBank

/-!
# Setting up interrupts

`gic_enable_ppi` and `gic_enable_spi` write one interrupt's bits into registers that it shares with
others. Each interrupt has its own configuration nevertheless: calls in any number and order leave
what the last one for an interrupt asks for, and the others as they were. At boot nothing is enabled
before it has a handler.
-/
namespace JanusRT.Gic
open ByteStore RegisterBank Masks

/-! ## The code -/

/-- The distributor's registers. -/
def gicdCtlr : ℕ := 0x0000

def gicdIgroupr (n : ℕ) : ℕ := 0x0080 + 4 * n

def gicdIgrpmodr (n : ℕ) : ℕ := 0x0D00 + 4 * n

def gicdIsenabler (n : ℕ) : ℕ := 0x0100 + 4 * n

def gicdIcfgr (n : ℕ) : ℕ := 0x0C00 + 4 * n

def gicdIpriorityr : ℕ := 0x0400

/-- The redistributor's registers. -/
def gicrWaker : ℕ := 0x0014

def gicrWakerProcessorSleep : ℕ := 1 <<< 1

def gicrSgiBase : ℕ := 0x10000

def gicrIgroupr0 : ℕ := 0x0080

def gicrIsenabler0 : ℕ := 0x0100

def gicrIpriorityr : ℕ := 0x0400

def gicrIgrpmodr0 : ℕ := 0x0D00

def r32i (id : ℕ) : ℕ := id / 32

def b32i (id : ℕ) : ℕ := id % 32

def icfgrI (id : ℕ) : ℕ := id / 16

def icfgrSh (id : ℕ) : ℕ := id % 16 * 2

def prioOff (id : ℕ) : ℕ := id

/-- The system registers of the CPU interface. -/
structure Icc where
  sre : ℕ
  pmr : ℕ
  igrpen1 : ℕ
  deriving DecidableEq, Repr

/-- `TYPER` can only be read, so it does not share the memory of the other registers. -/
structure Controller where
  regs : Store
  typer : Store
  icc : Icc

def sysEnableIccEl1 (g : Controller) : Controller := { g with icc := ⟨g.icc.sre ||| 1, 0xFF, 1⟩ }

def gicEnableDist (g : Controller) : Controller :=
  { g with regs := orWord g.regs (gicdBase + gicdCtlr) (1 <<< 4 ||| 1 <<< 1) }

/-- Writing to a set-enable register sets the bits that are one and leaves the others. -/
def setEnable (d : Store) (a v : ℕ) : Store := orWord d a v

/-- The loop until `ChildrenAsleep` reads as zero, with a bound on its rounds. -/
def pollWaker (asleep : ℕ → Bool) : ℕ → ℕ → Option Unit
  | 0, _ => none
  | rounds + 1, i => if asleep i then pollWaker asleep rounds (i + 1) else some ()

/-- The registers are written once the redistributor is awake. -/
def ppiRegs (d : Store) (sgiBase ppi prio : ℕ) (group1ns : Bool) : Store :=
  let d :=
    if group1ns then orWord d (sgiBase + gicrIgroupr0) (1 <<< ppi)
    else andNotWord d (sgiBase + gicrIgroupr0) (1 <<< ppi)
  let d := if group1ns then andNotWord d (sgiBase + gicrIgrpmodr0) (1 <<< ppi) else d
  let d := wr8 d (sgiBase + gicrIpriorityr + ppi) (UInt8.ofNat prio)
  setEnable d (sgiBase + gicrIsenabler0) (1 <<< ppi)

def gicEnablePpi (mpidr rounds : ℕ) (asleep : ℕ → Bool) (ppi prio : ℕ) (group1ns : Bool)
    (g : Controller) : Option (ℤ × Controller) :=
  if ppi < 16 ∨ 31 < ppi then some (-1, g)
  else do
    let g := gicEnableDist (sysEnableIccEl1 g)
    let rdBase ← gicrBaseForThisCpu g.typer mpidr rounds
    let d := andNotWord g.regs (rdBase + gicrWaker) gicrWakerProcessorSleep
    pollWaker asleep rounds 0
    pure (0, { g with regs := ppiRegs d (rdBase + gicrSgiBase) ppi prio group1ns })

def gicEnableSpi (mpidr spi : ℕ) (d : Store) : Store :=
  let d := orWord d (gicdBase + gicdIgroupr (r32i spi)) (1 <<< b32i spi)
  let d := andNotWord d (gicdBase + gicdIgrpmodr (r32i spi)) (1 <<< b32i spi)
  let d := orWord d (gicdBase + gicdIcfgr (icfgrI spi)) (2 <<< icfgrSh spi)
  let d := wr8 d (gicdBase + gicdIpriorityr + prioOff spi) 0x80
  let d := routeSpiToThisCpu d mpidr spi
  setEnable d (gicdBase + gicdIsenabler (r32i spi)) (1 <<< b32i spi)

/-! ## One interrupt -/

/-- What the registers say about one interrupt. -/
structure IntConfig where
  group : Bool
  modifier : Bool
  edge : Bool
  priority : UInt8
  route : ℕ
  enabled : Bool
  deriving DecidableEq

/-- Private interrupts are configured in the frame at `rdBase` and go nowhere else. -/
def config (rdBase : ℕ) (d : Store) (id : ℕ) : IntConfig :=
  if id < 32 then
    let sgiBase := rdBase + gicrSgiBase
    ⟨bitAt d (sgiBase + gicrIgroupr0) id, bitAt d (sgiBase + gicrIgrpmodr0) id,
      bitAt d (sgiBase + 0x0C00) (2 * id + 1), d (sgiBase + gicrIpriorityr + id), 0,
      bitAt d (sgiBase + gicrIsenabler0) id⟩
  else
    ⟨bitAt d (gicdBase + 0x0080) id, bitAt d (gicdBase + 0x0D00) id,
      bitAt d (gicdBase + 0x0C00) (2 * id + 1), d (gicdBase + gicdIpriorityr + id),
      rd64 d (irouterAddr id), bitAt d (gicdBase + 0x0100) id⟩

/-- A shared interrupt after `gic_enable_spi`: group 1, on an edge, of middle priority, routed by
this core's `MPIDR`. -/
def spiConfigured (mpidr : ℕ) : IntConfig :=
  ⟨true, false, true, 0x80, buildIrouterFromMpidr mpidr false, true⟩

/-- A private one after `gic_enable_ppi`. -/
def ppiConfigured (c : IntConfig) (prio : ℕ) (group1ns : Bool) : IntConfig :=
  { c with
    group := group1ns
    modifier := if group1ns then false else c.modifier
    priority := UInt8.ofNat prio
    enabled := true }

/-! ## Shared interrupts -/

section Spi
variable {d : Store} {mpidr rdBase spi id : ℕ}

theorem routeSpi_outside {x : ℕ} (h : x < irouterAddr spi ∨ irouterAddr spi + 8 ≤ x) :
    routeSpiToThisCpu d mpidr spi x = d x := by
  unfold routeSpiToThisCpu
  rw [wr32_of_outside (by omega), wr32_of_outside (by omega)]

/-- The trigger of an interrupt is the upper one of its two bits. -/
theorem icfgr_word (id : ℕ) : gicdBase + gicdIcfgr (icfgrI id) =
      gicdBase + 0x0C00 + 4 * ((2 * id + 1) / 32) ∧
    2 <<< icfgrSh id = 1 <<< ((2 * id + 1) % 32) := by
  have hdiv : (2 * id + 1) / 32 = id / 16 := by omega
  have hmod : (2 * id + 1) % 32 = 1 + id % 16 * 2 := by omega
  refine ⟨?_, ?_⟩
  · rw [gicdIcfgr, icfgrI, hdiv, Nat.add_assoc]
  · rw [icfgrSh, hmod, Nat.shiftLeft_add]
    rfl

theorem bitAt_routeSpi {a j : ℕ}
    (h : irouterAddr spi + 8 ≤ a + 4 * (j / 32) ∨ a + 4 * (j / 32) + 4 ≤ irouterAddr spi) :
    bitAt (routeSpiToThisCpu d mpidr spi) a j = bitAt d a j :=
  bitAt_congr fun _ _ _ => routeSpi_outside (by omega)

theorem irouterAddr_eq (hid : id < 1020) : irouterAddr id = gicdBase + 0x6000 + 8 * id := by
  have hlt : 0x6000 + 8 * id < 2 ^ 32 := by omega
  rw [irouterAddr, gicdIrouter, Nat.mod_eq_of_lt hlt, Nat.add_assoc]

theorem gicEnableSpi_config (hid : 32 ≤ id ∧ id < 1020) (hspi : 32 ≤ spi ∧ spi < 1020) :
    config rdBase (gicEnableSpi mpidr spi d) id =
      if id = spi then spiConfigured mpidr else config rdBase d id := by
  have hgroup : gicdIgroupr (r32i spi) = 0x0080 + 4 * (spi / 32) := rfl
  have hmod : gicdIgrpmodr (r32i spi) = 0x0D00 + 4 * (spi / 32) := rfl
  have hcfg : gicdIcfgr (icfgrI spi) = 0x0C00 + 4 * (spi / 16) := rfl
  have hprio : gicdIpriorityr = 0x0400 ∧ prioOff spi = spi := ⟨rfl, rfl⟩
  have hen : gicdIsenabler (r32i spi) = 0x0100 + 4 * (spi / 32) := rfl
  have hroute := irouterAddr_eq hspi.2
  have hroute' := irouterAddr_eq hid.2
  have hgroupBit : bitAt (gicEnableSpi mpidr spi d) (gicdBase + 0x0080) id =
      if id = spi then true else bitAt d (gicdBase + 0x0080) id := by
    unfold gicEnableSpi setEnable
    rw [bitAt_orWord_apart (by omega), bitAt_routeSpi (by omega), bitAt_wr8_apart (by omega),
      bitAt_orWord_apart (by omega), bitAt_andNotWord_apart (by omega), hgroup, ← Nat.add_assoc]
    exact bitAt_orWord d _ spi id
  have hmodBit : bitAt (gicEnableSpi mpidr spi d) (gicdBase + 0x0D00) id =
      if id = spi then false else bitAt d (gicdBase + 0x0D00) id := by
    unfold gicEnableSpi setEnable
    rw [bitAt_orWord_apart (by omega), bitAt_routeSpi (by omega), bitAt_wr8_apart (by omega),
      bitAt_orWord_apart (by omega), hmod, ← Nat.add_assoc]
    refine (bitAt_andNotWord _ _ spi id).trans ?_
    rw [bitAt_orWord_apart (by omega)]
  have hcfgBit : bitAt (gicEnableSpi mpidr spi d) (gicdBase + 0x0C00) (2 * id + 1) =
      if id = spi then true else bitAt d (gicdBase + 0x0C00) (2 * id + 1) := by
    unfold gicEnableSpi setEnable
    rw [bitAt_orWord_apart (by omega), bitAt_routeSpi (by omega), bitAt_wr8_apart (by omega),
      (icfgr_word spi).1, (icfgr_word spi).2, bitAt_orWord, bitAt_andNotWord_apart (by omega),
      bitAt_orWord_apart (by omega)]
    exact if_congr (by omega) rfl rfl
  have hprioByte : gicEnableSpi mpidr spi d (gicdBase + gicdIpriorityr + id) =
      if id = spi then 0x80 else d (gicdBase + gicdIpriorityr + id) := by
    unfold gicEnableSpi setEnable
    rw [orWord_outside (by omega), routeSpi_outside (by omega), wr8, Function.update_apply, hprio.2,
      orWord_outside (by omega), andNotWord_outside (by omega), orWord_outside (by omega)]
    exact if_congr (by omega) rfl rfl
  have hrouteReg : rd64 (gicEnableSpi mpidr spi d) (irouterAddr id) =
      if id = spi then buildIrouterFromMpidr mpidr false else rd64 d (irouterAddr id) := by
    split_ifs with heq
    · subst heq
      simp only [gicEnableSpi, setEnable]
      have hkeep : ∀ d : Store, rd64 (orWord d (gicdBase + gicdIsenabler (r32i id)) (1 <<< b32i id))
          (irouterAddr id) = rd64 d (irouterAddr id) :=
        fun d => rd64_eq_iff.mpr fun i hi => orWord_outside (by omega)
      rw [hkeep, rd64_routeSpi]
    · apply rd64_eq_iff.mpr
      intro i hi
      unfold gicEnableSpi setEnable
      rw [orWord_outside (by omega), routeSpi_outside (by omega), wr8,
        Function.update_of_ne (by omega), orWord_outside (by omega), andNotWord_outside (by omega),
        orWord_outside (by omega)]
  have henBit : bitAt (gicEnableSpi mpidr spi d) (gicdBase + 0x0100) id =
      if id = spi then true else bitAt d (gicdBase + 0x0100) id := by
    unfold gicEnableSpi setEnable
    rw [hen, ← Nat.add_assoc]
    refine (bitAt_orWord _ _ spi id).trans ?_
    rw [bitAt_routeSpi (by omega), bitAt_wr8_apart (by omega), bitAt_orWord_apart (by omega),
      bitAt_andNotWord_apart (by omega), bitAt_orWord_apart (by omega)]
  have hhigh : ¬ id < 32 := by omega
  rw [config, if_neg hhigh, hgroupBit, hmodBit, hcfgBit, hprioByte, hrouteReg, henBit, config,
    if_neg hhigh]
  split_ifs <;> rfl

end Spi

/-! ## Frames -/

section Frame
variable {d d' : Store} {mpidr rdBase spi id ppi prio x : ℕ} {group1ns : Bool}

/-- A private interrupt depends on the frame at `rdBase`. -/
theorem config_private (hid : id < 32) (h : ∀ x, rdBase + gicrSgiBase + 0x80 ≤ x →
    x < rdBase + gicrSgiBase + 0x0E00 → d' x = d x) : config rdBase d' id = config rdBase d id := by
  have hgroup : gicrIgroupr0 = 0x80 := rfl
  have hmod : gicrIgrpmodr0 = 0x0D00 := rfl
  have hprio : gicrIpriorityr = 0x0400 := rfl
  have hen : gicrIsenabler0 = 0x0100 := rfl
  generalize hsgi : rdBase + gicrSgiBase = sgi at h
  have hbit : ∀ off j, 0x80 ≤ off → off + 4 * (j / 32) + 4 ≤ 0x0E00 →
      bitAt d' (sgi + off) j = bitAt d (sgi + off) j :=
    fun off j hlo hhi => bitAt_congr fun x hx hx' => h x (by omega) (by omega)
  simp only [config, if_pos hid, hsgi]
  rw [hbit gicrIgroupr0 id (by omega) (by omega), hbit gicrIgrpmodr0 id (by omega) (by omega),
    hbit 0x0C00 (2 * id + 1) (by omega) (by omega), hbit gicrIsenabler0 id (by omega) (by omega),
    h _ (by omega) (by omega)]

/-- A shared one depends on the distributor. -/
theorem config_shared (hid : 32 ≤ id ∧ id < 1020)
    (h : ∀ x, gicdBase + 0x80 ≤ x → x < gicdBase + 0x8000 → d' x = d x) :
    config rdBase d' id = config rdBase d id := by
  have hprio : gicdIpriorityr = 0x0400 := rfl
  have hroute := irouterAddr_eq hid.2
  have hhigh : ¬ id < 32 := by omega
  have hbit : ∀ off j, 0x80 ≤ off → off + 4 * (j / 32) + 4 ≤ 0x8000 →
      bitAt d' (gicdBase + off) j = bitAt d (gicdBase + off) j :=
    fun off j hlo hhi => bitAt_congr fun x hx hx' => h x (by omega) (by omega)
  simp only [config, if_neg hhigh]
  rw [hbit 0x0080 id (by omega) (by omega), hbit 0x0D00 id (by omega) (by omega),
    hbit 0x0C00 (2 * id + 1) (by omega) (by omega), hbit 0x0100 id (by omega) (by omega),
    h _ (by omega) (by omega), rd64_eq_iff.mpr fun i hi => h (irouterAddr id + i) (by omega) (by omega)]

/-- What `gic_enable_spi` writes lies in the distributor. -/
theorem gicEnableSpi_outside (hspi : 32 ≤ spi ∧ spi < 1020)
    (hx : x < gicdBase + 0x80 ∨ gicdBase + 0x8000 ≤ x) : gicEnableSpi mpidr spi d x = d x := by
  have hgroup : gicdIgroupr (r32i spi) = 0x0080 + 4 * (spi / 32) := rfl
  have hmod : gicdIgrpmodr (r32i spi) = 0x0D00 + 4 * (spi / 32) := rfl
  have hcfg : gicdIcfgr (icfgrI spi) = 0x0C00 + 4 * (spi / 16) := rfl
  have hprio : gicdIpriorityr = 0x0400 ∧ prioOff spi = spi := ⟨rfl, rfl⟩
  have hen : gicdIsenabler (r32i spi) = 0x0100 + 4 * (spi / 32) := rfl
  have hroute := irouterAddr_eq hspi.2
  unfold gicEnableSpi setEnable
  rw [orWord_outside (by omega), routeSpi_outside (by omega), wr8,
    Function.update_of_ne (by omega), orWord_outside (by omega), andNotWord_outside (by omega),
    orWord_outside (by omega)]

theorem ppiRegs_outside {sgiBase : ℕ} (hppi : ppi < 32)
    (hx : x < sgiBase + 0x80 ∨ sgiBase + 0x0E00 ≤ x) :
    ppiRegs d sgiBase ppi prio group1ns x = d x := by
  have hgroup : gicrIgroupr0 = 0x80 := rfl
  have hmod : gicrIgrpmodr0 = 0x0D00 := rfl
  have hprio : gicrIpriorityr = 0x0400 := rfl
  have hen : gicrIsenabler0 = 0x0100 := rfl
  unfold ppiRegs setEnable
  rw [orWord_outside (by omega), wr8, Function.update_of_ne (by omega)]
  cases group1ns with
  | true =>
    simp only [if_true]
    rw [andNotWord_outside (by omega), orWord_outside (by omega)]
  | false =>
    simp only [Bool.false_eq_true, if_false]
    rw [andNotWord_outside (by omega)]

end Frame

/-! ## Private interrupts -/

section Ppi
variable {d : Store} {rdBase id ppi prio : ℕ} {group1ns : Bool}

/-- A bank of a single word. -/
theorem bitAt_orWord_single {a i j : ℕ} (hi : i < 32) :
    bitAt (orWord d a (1 <<< i)) a j = if j = i then true else bitAt d a j := by
  have h := bitAt_orWord d a i j
  rwa [Nat.div_eq_of_lt hi, Nat.mod_eq_of_lt hi] at h

theorem bitAt_andNotWord_single {a i j : ℕ} (hi : i < 32) :
    bitAt (andNotWord d a (1 <<< i)) a j = if j = i then false else bitAt d a j := by
  have h := bitAt_andNotWord d a i j
  rwa [Nat.div_eq_of_lt hi, Nat.mod_eq_of_lt hi] at h

theorem ppiRegs_config (hid : id < 32) (hppi : ppi < 32) :
    config rdBase (ppiRegs d (rdBase + gicrSgiBase) ppi prio group1ns) id =
      if id = ppi then ppiConfigured (config rdBase d id) prio group1ns
      else config rdBase d id := by
  have hgroup : gicrIgroupr0 = 0x80 := rfl
  have hmod : gicrIgrpmodr0 = 0x0D00 := rfl
  have hprio : gicrIpriorityr = 0x0400 := rfl
  have hen : gicrIsenabler0 = 0x0100 := rfl
  generalize hsgi : rdBase + gicrSgiBase = sgi
  have hprioByte : ppiRegs d sgi ppi prio group1ns (sgi + gicrIpriorityr + id) =
      if id = ppi then UInt8.ofNat prio else d (sgi + gicrIpriorityr + id) := by
    simp only [ppiRegs, setEnable]
    rw [orWord_outside (by omega), wr8, Function.update_apply]
    refine if_congr (by omega) rfl ?_
    cases group1ns with
    | true => exact (andNotWord_outside (by omega)).trans (orWord_outside (by omega))
    | false => exact andNotWord_outside (by omega)
  have hcfgBit : bitAt (ppiRegs d sgi ppi prio group1ns) (sgi + 0x0C00) (2 * id + 1) =
      bitAt d (sgi + 0x0C00) (2 * id + 1) := by
    simp only [ppiRegs, setEnable]
    rw [bitAt_orWord_apart (by omega), bitAt_wr8_apart (by omega)]
    cases group1ns with
    | true => exact (bitAt_andNotWord_apart (by omega)).trans (bitAt_orWord_apart (by omega))
    | false => exact bitAt_andNotWord_apart (by omega)
  have henBit : bitAt (ppiRegs d sgi ppi prio group1ns) (sgi + gicrIsenabler0) id =
      if id = ppi then true else bitAt d (sgi + gicrIsenabler0) id := by
    simp only [ppiRegs, setEnable]
    rw [bitAt_orWord_single hppi, bitAt_wr8_apart (by omega)]
    refine if_congr Iff.rfl rfl ?_
    cases group1ns with
    | true => exact (bitAt_andNotWord_apart (by omega)).trans (bitAt_orWord_apart (by omega))
    | false => exact bitAt_andNotWord_apart (by omega)
  have hgroupBit : bitAt (ppiRegs d sgi ppi prio group1ns) (sgi + gicrIgroupr0) id =
      if id = ppi then group1ns else bitAt d (sgi + gicrIgroupr0) id := by
    simp only [ppiRegs, setEnable]
    rw [bitAt_orWord_apart (by omega), bitAt_wr8_apart (by omega)]
    cases group1ns with
    | true => exact (bitAt_andNotWord_apart (by omega)).trans (bitAt_orWord_single hppi)
    | false => exact bitAt_andNotWord_single hppi
  have hmodBit : bitAt (ppiRegs d sgi ppi prio group1ns) (sgi + gicrIgrpmodr0) id =
      if id = ppi ∧ group1ns = true then false else bitAt d (sgi + gicrIgrpmodr0) id := by
    simp only [ppiRegs, setEnable]
    rw [bitAt_orWord_apart (by omega), bitAt_wr8_apart (by omega)]
    cases group1ns with
    | true =>
      refine (bitAt_andNotWord_single hppi).trans ?_
      exact if_congr (by simp) rfl (bitAt_orWord_apart (by omega))
    | false => exact (bitAt_andNotWord_apart (by omega)).trans (by simp)
  simp only [config, if_pos hid, hsgi, hprioByte, hcfgBit, henBit, hgroupBit, hmodBit]
  by_cases heq : id = ppi
  · cases group1ns <;> simp [heq, ppiConfigured]
  · simp [heq]

end Ppi

/-! ## Runs -/

/-- A registration or a call of one of the four functions; `asleep` is what the redistributor
answers while it is woken. -/
inductive Setup (F : Type)
  | register (r : Registration F)
  | icc
  | dist
  | spi (id : ℕ)
  | ppi (id prio : ℕ) (group1ns : Bool) (asleep : ℕ → Bool)

/-- The controller and the handler tables. -/
structure Interrupts (F : Type) where
  ctl : Controller
  tables : IrqTables F

section Runs
variable {F : Type}

def setupStep (mpidr rounds : ℕ) (s : Interrupts F) : Setup F → Option (Interrupts F)
  | .register r => some { s with tables := r.apply s.tables }
  | .icc => some { s with ctl := sysEnableIccEl1 s.ctl }
  | .dist => some { s with ctl := gicEnableDist s.ctl }
  | .spi id => some { s with ctl := { s.ctl with regs := gicEnableSpi mpidr id s.ctl.regs } }
  | .ppi id prio group1ns asleep =>
    (gicEnablePpi mpidr rounds asleep id prio group1ns s.ctl).map fun r => { s with ctl := r.2 }

def setupRun (mpidr rounds : ℕ) (s : Interrupts F) (cs : List (Setup F)) : Option (Interrupts F) :=
  cs.foldlM (setupStep mpidr rounds) s

/-- A shared interrupt that exists, and a redistributor that wakes up in time. -/
def Setup.Fits (rounds : ℕ) : Setup F → Prop
  | .spi id => 32 ≤ id ∧ id < 1020
  | .ppi _ _ _ asleep => ∃ n < rounds, asleep n = false
  | _ => True

/-- What is meant by all of it: a configuration for each interrupt, the two switches of the
distributor, and the CPU interface. -/
structure Setting where
  ints : ℕ → IntConfig
  group1 : Bool
  affinity : Bool
  icc : Icc

def Setting.enableIcc (t : Setting) : Setting := { t with icc := ⟨t.icc.sre ||| 1, 0xFF, 1⟩ }

def Setting.enableDist (t : Setting) : Setting := { t with group1 := true, affinity := true }

def Setting.step (mpidr : ℕ) (t : Setting) : Setup F → Setting
  | .register _ => t
  | .icc => t.enableIcc
  | .dist => t.enableDist
  | .spi id => { t with ints := Function.update t.ints id (spiConfigured mpidr) }
  | .ppi id prio group1ns _ =>
    if id < 16 ∨ 31 < id then t
    else { t.enableIcc.enableDist with
      ints := Function.update t.ints id (ppiConfigured (t.ints id) prio group1ns) }

/-- The registers mean this setting. -/
structure Agrees (rdBase : ℕ) (g : Controller) (t : Setting) : Prop where
  ints : ∀ id, id < 1020 → config rdBase g.regs id = t.ints id
  group1 : (rd32 g.regs (gicdBase + gicdCtlr)).testBit 1 = t.group1
  affinity : (rd32 g.regs (gicdBase + gicdCtlr)).testBit 4 = t.affinity
  icc : g.icc = t.icc

/-- The setting that registers mean. -/
def settingOf (rdBase : ℕ) (g : Controller) : Setting :=
  ⟨config rdBase g.regs, (rd32 g.regs (gicdBase + gicdCtlr)).testBit 1,
    (rd32 g.regs (gicdBase + gicdCtlr)).testBit 4, g.icc⟩

theorem settingOf_agrees (rdBase : ℕ) (g : Controller) : Agrees rdBase g (settingOf rdBase g) :=
  ⟨fun _ _ => rfl, rfl, rfl, rfl⟩

variable {mpidr rounds rdBase : ℕ} {g : Controller} {t : Setting}

theorem Agrees.enableIcc (h : Agrees rdBase g t) : Agrees rdBase (sysEnableIccEl1 g) t.enableIcc := by
  refine ⟨h.ints, h.group1, h.affinity, ?_⟩
  rw [sysEnableIccEl1, Setting.enableIcc, h.icc]

theorem Agrees.enableDist (hbase : gicrBase0 ≤ rdBase) (h : Agrees rdBase g t) :
    Agrees rdBase (gicEnableDist g) t.enableDist := by
  have hfar : gicdBase = 0x08000000 ∧ gicrBase0 = 0x080A0000 ∧ gicdCtlr = 0 := ⟨rfl, rfl, rfl⟩
  refine ⟨?_, ?_, ?_, h.icc⟩
  · intro id hid
    refine Eq.trans ?_ (h.ints id hid)
    by_cases hlow : id < 32
    · exact config_private hlow fun x hx _ => orWord_outside (by omega)
    · exact config_shared ⟨by omega, hid⟩ fun x hx _ => orWord_outside (by omega)
  · have hbit : (1 <<< 4 ||| 1 <<< 1 : ℕ).testBit 1 = true := by decide
    simp only [gicEnableDist, orWord, rd32_wr32_same, Setting.enableDist]
    rw [Nat.testBit_mod_two_pow, Nat.testBit_or, hbit, Bool.or_true]
    rfl
  · have hbit : (1 <<< 4 ||| 1 <<< 1 : ℕ).testBit 4 = true := by decide
    simp only [gicEnableDist, orWord, rd32_wr32_same, Setting.enableDist]
    rw [Nat.testBit_mod_two_pow, Nat.testBit_or, hbit, Bool.or_true]
    rfl

/-- Writes that leave the distributor's control register alone. -/
theorem Agrees.regs (h : Agrees rdBase g t) {d : Store} {ints : ℕ → IntConfig}
    (hctlr : ∀ x, gicdBase ≤ x → x < gicdBase + 4 → d x = g.regs x)
    (hints : ∀ id, id < 1020 → config rdBase d id = ints id) :
    Agrees rdBase { g with regs := d } { t with ints := ints } := by
  have hword : rd32 d (gicdBase + gicdCtlr) = rd32 g.regs (gicdBase + gicdCtlr) :=
    rd32_congr fun x hx hx' => hctlr x hx hx'
  refine ⟨hints, ?_, ?_, h.icc⟩
  · rw [hword]
    exact h.group1
  · rw [hword]
    exact h.affinity

theorem Agrees.enableSpi (hbase : gicrBase0 ≤ rdBase) (h : Agrees rdBase g t) {spi : ℕ}
    (hspi : 32 ≤ spi ∧ spi < 1020) :
    Agrees rdBase { g with regs := gicEnableSpi mpidr spi g.regs }
      { t with ints := Function.update t.ints spi (spiConfigured mpidr) } := by
  have hfar : gicdBase = 0x08000000 ∧ gicrBase0 = 0x080A0000 := ⟨rfl, rfl⟩
  apply h.regs fun x hx hx' => gicEnableSpi_outside hspi (by omega)
  intro id hid
  rw [Function.update_apply, ← h.ints id hid]
  by_cases hlow : id < 32
  · rw [if_neg (by omega)]
    exact config_private hlow fun x hx _ => gicEnableSpi_outside hspi (by omega)
  · exact gicEnableSpi_config ⟨by omega, hid⟩ hspi

theorem pollWaker_eq {asleep : ℕ → Bool} {n : ℕ} (hn : asleep n = false) :
    ∀ rounds i, i ≤ n → n < i + rounds → pollWaker asleep rounds i = some ()
  | 0, i, hi, hlt => absurd hlt (by omega)
  | rounds + 1, i, hi, hlt => by
    rw [pollWaker]
    split_ifs with ha
    · have hne : i ≠ n := by
        rintro rfl
        rw [hn] at ha
        cases ha
      exact pollWaker_eq hn rounds (i + 1) (by omega) (by omega)
    · rfl

theorem Agrees.enablePpi (hbase : gicrBase0 ≤ rdBase)
    (hfind : gicrBaseForThisCpu g.typer mpidr rounds = some rdBase) (h : Agrees rdBase g t)
    {asleep : ℕ → Bool} (hasleep : ∃ n < rounds, asleep n = false) (id prio : ℕ) (group1ns : Bool) :
    ∃ r g', gicEnablePpi mpidr rounds asleep id prio group1ns g = some (r, g') ∧
      g'.typer = g.typer ∧
      Agrees rdBase g' (t.step mpidr (.ppi id prio group1ns asleep : Setup F)) := by
  by_cases hrange : id < 16 ∨ 31 < id
  · refine ⟨-1, g, by rw [gicEnablePpi, if_pos hrange], rfl, ?_⟩
    rw [Setting.step, if_pos hrange]
    exact h
  have hfar : gicdBase = 0x08000000 ∧ gicdCtlr = 0 ∧ gicrBase0 = 0x080A0000 ∧
      gicrSgiBase = 0x10000 ∧ gicrWaker = 0x14 := ⟨rfl, rfl, rfl, rfl, rfl⟩
  obtain ⟨n, hn, hn'⟩ := hasleep
  have hpoll := pollWaker_eq hn' rounds 0 (Nat.zero_le n) (by omega)
  have hon := h.enableIcc.enableDist hbase
  let d := andNotWord (gicEnableDist (sysEnableIccEl1 g)).regs (rdBase + gicrWaker)
    gicrWakerProcessorSleep
  have hwaker : ∀ x, x < rdBase + 0x14 ∨ rdBase + 0x18 ≤ x →
      d x = (gicEnableDist (sysEnableIccEl1 g)).regs x := fun x hx => andNotWord_outside (by omega)
  refine ⟨0, { gicEnableDist (sysEnableIccEl1 g) with
    regs := ppiRegs d (rdBase + gicrSgiBase) id prio group1ns }, ?_, rfl, ?_⟩
  · have htyper : (gicEnableDist (sysEnableIccEl1 g)).typer = g.typer := rfl
    simp only [gicEnablePpi, if_neg hrange, htyper, hfind, hpoll]
    rfl
  rw [Setting.step, if_neg hrange]
  apply hon.regs
  · intro x hx hx'
    rw [ppiRegs_outside (by omega) (by omega), hwaker x (by omega)]
  · intro i hi
    rw [Function.update_apply, ← h.ints id (by omega)]
    by_cases hlow : i < 32
    · have hsame : ∀ j, j < 32 → config rdBase d j = config rdBase g.regs j := by
        intro j hj
        refine config_private hj fun x hx _ => ?_
        rw [hwaker x (by omega)]
        exact orWord_outside (by omega)
      rw [ppiRegs_config hlow (by omega), hsame i hlow]
      split_ifs with heq
      · rw [heq]
      · exact h.ints i hi
    · rw [if_neg (by omega)]
      refine Eq.trans ?_ (hon.ints i hi)
      refine config_shared ⟨by omega, hi⟩ fun x hx hx' => ?_
      rw [ppiRegs_outside (by omega) (by omega), hwaker x (by omega)]

def Setup.registrations : Setup F → List (Registration F)
  | .register r => [r]
  | _ => []

/-- What holds of a run so far. -/
structure SetUp (mpidr rdBase : ℕ) (s : Interrupts F) (cs : List (Setup F)) (s' : Interrupts F) :
    Prop where
  typer : s'.ctl.typer = s.ctl.typer
  agrees : Agrees rdBase s'.ctl (cs.foldl (Setting.step mpidr) (settingOf rdBase s.ctl))
  tables : s'.tables = s.tables.after (cs.flatMap Setup.registrations)

/-- One more call. -/
theorem SetUp.step (hbase : gicrBase0 ≤ rdBase) {s s₁ : Interrupts F} {cs : List (Setup F)}
    (hfind : gicrBaseForThisCpu s.ctl.typer mpidr rounds = some rdBase)
    (h : SetUp mpidr rdBase s cs s₁) {c : Setup F} (hc : c.Fits rounds) :
    ∃ s₂, setupStep mpidr rounds s₁ c = some s₂ ∧ SetUp mpidr rdBase s (cs ++ [c]) s₂ := by
  have hsetting : (cs ++ [c]).foldl (Setting.step mpidr) (settingOf rdBase s.ctl) =
      (cs.foldl (Setting.step mpidr) (settingOf rdBase s.ctl)).step mpidr c := by
    rw [List.foldl_append]
    rfl
  have htables : (cs ++ [c]).flatMap Setup.registrations =
      cs.flatMap Setup.registrations ++ c.registrations := by
    rw [List.flatMap_append, List.flatMap_singleton]
  have hsame : s.tables.after (cs.flatMap Setup.registrations ++ []) = s₁.tables := by
    rw [List.append_nil]
    exact h.tables.symm
  cases c with
  | register r =>
    refine ⟨_, rfl, h.typer, ?_, ?_⟩
    · rw [hsetting]
      exact h.agrees
    · rw [htables, IrqTables.after, List.foldl_append]
      exact congrArg r.apply h.tables
  | icc =>
    refine ⟨_, rfl, h.typer, ?_, ?_⟩
    · rw [hsetting]
      exact h.agrees.enableIcc
    · rw [htables]
      exact hsame.symm
  | dist =>
    refine ⟨_, rfl, h.typer, ?_, ?_⟩
    · rw [hsetting]
      exact h.agrees.enableDist hbase
    · rw [htables]
      exact hsame.symm
  | spi id =>
    refine ⟨_, rfl, h.typer, ?_, ?_⟩
    · rw [hsetting]
      exact h.agrees.enableSpi hbase hc
    · rw [htables]
      exact hsame.symm
  | ppi id prio group1ns asleep =>
    rw [← h.typer] at hfind
    obtain ⟨r, g', hg', htyper, hagrees⟩ := h.agrees.enablePpi hbase hfind hc id prio group1ns
    refine ⟨{ s₁ with ctl := g' }, ?_, htyper.trans h.typer, ?_, ?_⟩
    · rw [setupStep, hg']
      rfl
    · rw [hsetting]
      exact hagrees
    · rw [htables]
      exact hsame.symm

theorem setupRun_setUp (hbase : gicrBase0 ≤ rdBase) {s : Interrupts F}
    (hfind : gicrBaseForThisCpu s.ctl.typer mpidr rounds = some rdBase) (cs : List (Setup F))
    (hcs : ∀ c ∈ cs, c.Fits rounds) :
    ∃ s', setupRun mpidr rounds s cs = some s' ∧ SetUp mpidr rdBase s cs s' := by
  induction cs using List.reverseRecOn with
  | nil => exact ⟨s, rfl, rfl, settingOf_agrees rdBase s.ctl, rfl⟩
  | append_singleton cs c ih =>
    obtain ⟨s₁, h₁, hs₁⟩ := ih fun c' hc' => hcs c' (List.mem_append_left _ hc')
    obtain ⟨s₂, h₂, hs₂⟩ := hs₁.step hbase hfind (hcs c (List.mem_append_right _ List.mem_cons_self))
    refine ⟨s₂, ?_, hs₂⟩
    rw [setupRun] at h₁ ⊢
    rw [List.foldlM_append, h₁]
    simpa using h₂

/-- The frame of this core does not overlap with the distributor. -/
theorem frameBase_ge {i : ℕ} (hi : i < 2 ^ 32) : gicrBase0 ≤ frameBase i := by
  have hlt : gicrBase0 + i * gicrStride < 2 ^ 64 := by
    rw [show gicrBase0 = 0x080A0000 from rfl, show gicrStride = 0x20000 from rfl]
    omega
  rw [frameBase, Nat.mod_eq_of_lt hlt]
  exact Nat.le_add_right _ _

/-- Calls in any number and order come to what each of them means for its own interrupt. -/
theorem setupRun_agrees {s : Interrupts F} {frames : List ℕ} (hf : FrameList s.ctl.typer mpidr frames)
    (hlen : frames.length ≤ 2 ^ 32) (hrounds : frames.length ≤ rounds) (cs : List (Setup F))
    (hcs : ∀ c ∈ cs, c.Fits rounds) :
    ∃ i, ∃ hi : i < frames.length, typerAffinity frames[i] = mpidrAffinity mpidr ∧
      ∃ s', setupRun mpidr rounds s cs = some s' ∧
        Agrees (frameBase i) s'.ctl
          (cs.foldl (Setting.step mpidr) (settingOf (frameBase i) s.ctl)) ∧
        s'.tables = s.tables.after (cs.flatMap Setup.registrations) := by
  obtain ⟨i, hi, hown, hfind⟩ := gicrBaseForThisCpu_eq hf
  obtain ⟨s', hs', hset⟩ := setupRun_setUp (frameBase_ge (by omega)) (hfind rounds (by omega)) cs hcs
  exact ⟨i, hi, hown, s', hs', hset.agrees, hset.tables⟩

/-- Cleared registers and empty tables. -/
def coldInterrupts : Interrupts Unit :=
  ⟨⟨fun _ => 0, twoClusters, ⟨0, 0, 0⟩⟩, ⟨.replicate 32 none, .replicate (1020 - 32) none⟩⟩

/-- Interrupts that share their words, and one that has a redistributor of its own. -/
def neighbours : List (Setup Unit) :=
  [.spi 72, .ppi 30 0x80 true fun _ => false, .register (.spi 72 (some ())), .spi 73]

theorem coldInterrupts_disabled (rdBase id : ℕ) :
    (config rdBase coldInterrupts.ctl.regs id).enabled = false := by
  have hzero : ∀ a i, bitAt (fun _ => 0) a i = false := by
    intro a i
    rw [bitAt, show rd32 (fun _ => 0) (a + 4 * (i / 32)) = 0 from rfl, Nat.zero_testBit]
  rw [config]
  split_ifs
  · exact hzero _ _
  · exact hzero _ _

theorem setupRun_agrees_neighbours :
    ∃ i < 2, ∃ s', setupRun 0x80000100 2 coldInterrupts neighbours = some s' ∧
      config (frameBase i) s'.ctl.regs 72 = spiConfigured 0x80000100 ∧
      (config (frameBase i) s'.ctl.regs 74).enabled = false := by
  have hfits : ∀ c ∈ neighbours, c.Fits 2 := by
    simp only [neighbours, List.mem_cons, List.not_mem_nil, or_false]
    rintro c (rfl | rfl | rfl | rfl)
    · exact ⟨by decide, by decide⟩
    · exact ⟨0, by decide, rfl⟩
    · trivial
    · exact ⟨by decide, by decide⟩
  obtain ⟨i, hi, -, s', hs', hagrees, -⟩ :=
    @setupRun_agrees Unit 0x80000100 2 coldInterrupts twoFrames (frameList_twoClusters rfl)
      (by decide) (by decide) neighbours hfits
  refine ⟨i, hi, s', hs', hagrees.ints 72 (by decide), ?_⟩
  rw [hagrees.ints 74 (by decide)]
  exact coldInterrupts_disabled (frameBase i) 74

end Runs

/-! ## Boot -/

section Boot
variable {F C : Type} {mpidr rounds rdBase : ℕ}

/-- `sched_spi_init`. -/
def schedSpiInit (ipcSched : F) : List (Setup F) :=
  [.register (.spi 72 (some ipcSched)), .icc, .dist, .spi 72]

/-- The interrupts of `timer_ppi_init`. -/
def timerPpiInit (timerFn : F) (asleep : ℕ → Bool) : List (Setup F) :=
  [.register (.ppi 30 (some timerFn)), .ppi 30 0x80 true asleep]

/-- Both, as `jrt_main` calls them. -/
def jrtSetup (ipcSched timerFn : F) (asleep : ℕ → Bool) : List (Setup F) :=
  schedSpiInit ipcSched ++ timerPpiInit timerFn asleep

/-- The interrupt is enabled and goes to this core, if it goes to any single one. -/
def Reaches (mpidr id : ℕ) (c : IntConfig) : Prop :=
  c.enabled = true ∧
    (32 ≤ id → irouterIrm c.route = true ∨ irouterAffinity c.route = mpidrAffinity mpidr)

/-- It also gets past the switches and the priority mask. -/
structure Signalled (mpidr : ℕ) (t : Setting) (id : ℕ) : Prop where
  reaches : Reaches mpidr id (t.ints id)
  group : (t.ints id).group = true ∧ (t.ints id).modifier = false
  priority : (t.ints id).priority.toNat < t.icc.pmr
  switches : t.group1 = true ∧ t.affinity = true ∧ t.icc.igrpen1.testBit 0 = true

theorem Agrees.signalled {g : Controller} {t : Setting} (h : Agrees rdBase g t) {id : ℕ}
    (hid : id < 1020) : Signalled mpidr (settingOf rdBase g) id ↔ Signalled mpidr t id := by
  have hints := h.ints id hid
  have hctl := h.group1
  have haff := h.affinity
  have hicc := h.icc
  constructor
  · rintro ⟨hreach, hgroup, hprio, hon⟩
    simp only [settingOf, hints, hctl, haff, hicc] at hreach hgroup hprio hon
    exact ⟨hreach, hgroup, hprio, hon⟩
  · rintro ⟨hreach, hgroup, hprio, hon⟩
    constructor <;> simp only [settingOf, hints, hctl, haff, hicc] <;> assumption

/-- The doorbell goes to this core if the register can hold its name. -/
theorem reaches_spiConfigured {id : ℕ} (hid : 32 ≤ id) : Reaches mpidr id (spiConfigured mpidr) ↔
    byte mpidr 8 = 0 ∧ byte mpidr 16 = 0 ∧ byte mpidr 32 = 0 := by
  have hirm := irouterIrm_build mpidr
  have haff := irouterAffinity_build mpidr
  simp only [Reaches, spiConfigured, hirm, haff, mpidrAffinity, Affinity.mk.injEq, true_and,
    Bool.false_eq_true, false_or]
  omega

/-- The settings during boot, from one in which nothing reaches this core. -/
theorem jrtSetup_reaches {t : Setting} (hoff : ∀ id, 16 ≤ id → id < 1020 → ¬ Reaches mpidr id (t.ints id))
    (ipcSched timerFn : F) (asleep : ℕ → Bool) (n : ℕ) {id : ℕ} (hid : 16 ≤ id ∧ id < 1020)
    (h : Reaches mpidr id
      ((((jrtSetup ipcSched timerFn asleep).take n).foldl (Setting.step mpidr) t).ints id)) :
    (id = 72 ∧ 4 ≤ n) ∨ (id = 30 ∧ 6 ≤ n) := by
  rcases n with _ | _ | _ | _ | n
  · exact absurd h (hoff id hid.1 hid.2)
  · exact absurd h (hoff id hid.1 hid.2)
  · exact absurd h (hoff id hid.1 hid.2)
  · exact absurd h (hoff id hid.1 hid.2)
  have hspi : id = 72 ∨ ¬ Reaches mpidr id
      (Function.update t.ints 72 (spiConfigured mpidr) id) := by
    by_cases heq : id = 72
    · exact Or.inl heq
    · rw [Function.update_of_ne heq]
      exact Or.inr (hoff id hid.1 hid.2)
  rcases n with _ | _ | n
  · exact Or.inl ⟨hspi.resolve_right (not_not.mpr h), by omega⟩
  · exact Or.inl ⟨hspi.resolve_right (not_not.mpr h), by omega⟩
  by_cases heq : id = 30
  · exact Or.inr ⟨heq, by omega⟩
  · rw [List.take_of_length_le (show 6 ≤ _ by omega)] at h
    have hlast : Reaches mpidr id (Function.update t.ints 72 (spiConfigured mpidr) id) := by
      have hne := Function.update_of_ne heq (ppiConfigured
        (Function.update t.ints 72 (spiConfigured mpidr) 30) 0x80 true)
        (Function.update t.ints 72 (spiConfigured mpidr))
      rw [← hne]
      exact h
    exact Or.inl ⟨hspi.resolve_right (not_not.mpr hlast), by omega⟩

/-- A handler is there before its interrupt. -/
theorem jrtSetup_slots (t : IrqTables F) (ipcSched timerFn : F) (asleep : ℕ → Bool) (n : ℕ) :
    let regs := ((jrtSetup ipcSched timerFn asleep).take n).flatMap Setup.registrations
    (4 ≤ n → (t.after regs).slot 72 = some ipcSched) ∧
      (6 ≤ n → (t.after regs).slot 30 = some timerFn) := by
  intro regs
  have hone : ((.spi 72 (some ipcSched) : Registration F).apply t).slot 72 = some ipcSched := by
    rw [slot_apply, if_pos ⟨rfl, by decide, by decide⟩]
    rfl
  have htwo : ((.ppi 30 (some timerFn) : Registration F).apply
      ((.spi 72 (some ipcSched) : Registration F).apply t)).slot 72 = some ipcSched := by
    rw [slot_apply, if_neg (by rintro ⟨hne, -⟩; cases hne), hone]
  have hppi : ((.ppi 30 (some timerFn) : Registration F).apply
      ((.spi 72 (some ipcSched) : Registration F).apply t)).slot 30 = some timerFn := by
    rw [slot_apply, if_pos ⟨rfl, by decide⟩]
    rfl
  have hall : 6 ≤ n → regs = [.spi 72 (some ipcSched), .ppi 30 (some timerFn)] := by
    intro hn
    have htake := List.take_of_length_le (l := jrtSetup ipcSched timerFn asleep) (i := n) hn
    simp only [regs, htake]
    rfl
  constructor
  · intro hn
    by_cases hn' : 6 ≤ n
    · rw [hall hn']
      exact htwo
    · obtain rfl | rfl : n = 4 ∨ n = 5 := by omega
      · exact hone
      · exact htwo
  · intro hn
    rw [hall hn]
    exact hppi

/-- After `n` of the calls, what reaches this core has its handler. In the end the timer is
signalled to it, and the doorbell exactly if the core's name fits into its first field. -/
structure Prepared (mpidr rdBase : ℕ) (ipcSched timerFn : F) (ctx : C) (n : ℕ) (s' : Interrupts F) :
    Prop where
  handled : ∀ id, 16 ≤ id → id < 1020 → Reaches mpidr id (config rdBase s'.ctl.regs id) →
    irqDispatch s'.tables ctx id = some (.call ipcSched ctx) ∧ id = 72 ∨
      irqDispatch s'.tables ctx id = some (.call timerFn ctx) ∧ id = 30
  timer : 6 ≤ n → Signalled mpidr (settingOf rdBase s'.ctl) 30
  doorbell : 6 ≤ n → (Signalled mpidr (settingOf rdBase s'.ctl) 72 ↔
    byte mpidr 8 = 0 ∧ byte mpidr 16 = 0 ∧ byte mpidr 32 = 0)

/-- Whatever redistributor the search ends with. -/
theorem jrtSetup_prepared (hbase : gicrBase0 ≤ rdBase) {s : Interrupts F}
    (hfind : gicrBaseForThisCpu s.ctl.typer mpidr rounds = some rdBase)
    (hoff : ∀ id, 16 ≤ id → id < 1020 → ¬ Reaches mpidr id (config rdBase s.ctl.regs id))
    (ipcSched timerFn : F) {asleep : ℕ → Bool} (hasleep : ∃ i < rounds, asleep i = false) (ctx : C)
    (n : ℕ) :
    ∃ s', setupRun mpidr rounds s ((jrtSetup ipcSched timerFn asleep).take n) = some s' ∧
      Prepared mpidr rdBase ipcSched timerFn ctx n s' := by
  have hfits : ∀ c ∈ (jrtSetup ipcSched timerFn asleep).take n, c.Fits rounds := by
    intro c hc
    have hmem := List.mem_of_mem_take hc
    simp only [jrtSetup, schedSpiInit, timerPpiInit, List.cons_append, List.nil_append,
      List.mem_cons, List.not_mem_nil, or_false] at hmem
    obtain rfl | rfl | rfl | rfl | rfl | rfl := hmem
    · trivial
    · trivial
    · trivial
    · exact ⟨by decide, by decide⟩
    · trivial
    · exact hasleep
  obtain ⟨s', hs', hset⟩ := setupRun_setUp hbase hfind _ hfits
  obtain ⟨hspi, hppi⟩ := jrtSetup_slots s.tables ipcSched timerFn asleep n
  have hprio : (UInt8.ofNat 0x80).toNat < 0xFF := by decide
  have hon : Nat.testBit 1 0 = true := by decide
  refine ⟨s', hs', ?_, ?_, ?_⟩
  · intro id hlow hid h
    rw [hset.agrees.ints id hid] at h
    rw [irqDispatch_slot _ _ hid, hset.tables]
    obtain ⟨rfl, hn⟩ | ⟨rfl, hn⟩ := jrtSetup_reaches hoff ipcSched timerFn asleep n ⟨hlow, hid⟩ h
    · rw [hspi hn]
      exact Or.inl ⟨rfl, rfl⟩
    · rw [hppi hn]
      exact Or.inr ⟨rfl, rfl⟩
  · intro hn
    rw [List.take_of_length_le hn] at hset
    rw [hset.agrees.signalled (show 30 < 1020 by decide)]
    exact ⟨⟨rfl, by omega⟩, ⟨rfl, rfl⟩, hprio, ⟨rfl, rfl, hon⟩⟩
  · intro hn
    rw [List.take_of_length_le hn] at hset
    rw [hset.agrees.signalled (show 72 < 1020 by decide)]
    constructor
    · exact fun h => (reaches_spiConfigured (by decide)).mp h.reaches
    · intro h
      exact ⟨(reaches_spiConfigured (by decide)).mpr h, ⟨rfl, rfl⟩, hprio, ⟨rfl, rfl, hon⟩⟩

/-- At every moment of boot, on a core with a redistributor of its own that wakes in time. The
software generated interrupts, below 16, are nobody's. -/
theorem jrtSetup_handled {s : Interrupts F} {frames : List ℕ}
    (hf : FrameList s.ctl.typer mpidr frames) (hlen : frames.length ≤ 2 ^ 32)
    (hrounds : frames.length ≤ rounds)
    (hoff : ∀ i (hi : i < frames.length), typerAffinity frames[i] = mpidrAffinity mpidr →
      ∀ id, 16 ≤ id → id < 1020 → ¬ Reaches mpidr id (config (frameBase i) s.ctl.regs id))
    (ipcSched timerFn : F) {asleep : ℕ → Bool} (hasleep : ∃ i < rounds, asleep i = false) (ctx : C)
    (n : ℕ) :
    ∃ i, ∃ hi : i < frames.length, typerAffinity frames[i] = mpidrAffinity mpidr ∧
      ∃ s', setupRun mpidr rounds s ((jrtSetup ipcSched timerFn asleep).take n) = some s' ∧
        Prepared mpidr (frameBase i) ipcSched timerFn ctx n s' := by
  obtain ⟨i, hi, hown, hfind⟩ := gicrBaseForThisCpu_eq hf
  exact ⟨i, hi, hown, jrtSetup_prepared (frameBase_ge (by omega)) (hfind rounds (by omega))
    (hoff i hi hown) ipcSched timerFn hasleep ctx n⟩

/-- A core that can be named. -/
theorem jrtSetup_handled_firstCore :
    ∃ i < 2, ∃ s', setupRun 0x80000000 2 coldInterrupts (jrtSetup () () fun _ => false) = some s' ∧
      Signalled 0x80000000 (settingOf (frameBase i) s'.ctl) 30 ∧
      Signalled 0x80000000 (settingOf (frameBase i) s'.ctl) 72 := by
  have hoff : ∀ i (hi : i < twoFrames.length),
      typerAffinity twoFrames[i] = mpidrAffinity 0x80000000 → ∀ id, 16 ≤ id → id < 1020 →
      ¬ Reaches 0x80000000 id (config (frameBase i) coldInterrupts.ctl.regs id) := by
    rintro i - - id - - ⟨hen, -⟩
    rw [coldInterrupts_disabled] at hen
    cases hen
  obtain ⟨i, hi, -, s', hs', hprep⟩ := @jrtSetup_handled Unit Unit 0x80000000 2 coldInterrupts
    twoFrames (frameList_twoClusters rfl) (by decide) (by decide) hoff () () (fun _ => false)
    ⟨0, by decide, rfl⟩ () 6
  exact ⟨i, hi, s', hs', hprep.timer le_rfl, (hprep.doorbell le_rfl).mpr ⟨rfl, rfl, rfl⟩⟩

end Boot

end JanusRT.Gic
