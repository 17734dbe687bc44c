import JanusRT.Lib.ByteStore
import JanusRT.Lib.Masks

/-!
# Interrupts for this core

The kernel finds its own redistributor by the affinity in `TYPER` and routes a shared
interrupt to itself by the affinity in `IROUTER`. Both packings start from `MPIDR`. The device
is the memory of its registers.
-/
namespace JanusRT.Gic

open ByteStore Masks

/-! ## The code -/

/-- `GICD_BASE`. -/
def gicdBase : ℕ := 0x08000000

/-- `GICR_BASE0`. -/
def gicrBase0 : ℕ := 0x080A0000

/-- `GICR_STRIDE`. -/
def gicrStride : ℕ := 0x00020000

/-- `GICR_TYPER`. -/
def gicrTyper : ℕ := 0x0008

/-- `GICD_IROUTER`, an `unsigned` expression. -/
def gicdIrouter (i : ℕ) : ℕ := (0x6000 + 8 * i) % 2 ^ 32

/-- The address of `GICD_IROUTER` of the interrupt. -/
def irouterAddr (spi : ℕ) : ℕ := gicdBase + gicdIrouter spi

/-- The affinity that `gicr_base_for_this_cpu` looks for. -/
def want (mpidr : ℕ) : ℕ :=
  let aff0 := mpidr &&& 0xFF
  let aff1 := (mpidr >>> 8) &&& 0xFF
  let aff2 := (mpidr >>> 16) &&& 0xFF
  let aff3 := (mpidr >>> 32) &&& 0xFF
  aff0 ||| (aff1 <<< 8) ||| (aff2 <<< 16) ||| (aff3 <<< 24)

/-- The loop over the frames, with a bound on its rounds; `none` is a loop that goes on. The
first frame is the answer if none fits. -/
def findFrame (d : Store) (want : ℕ) : ℕ → ℕ → Option ℕ
  | 0, _ => none
  | rounds + 1, base =>
    let typer := rd64 d ((base + gicrTyper) % 2 ^ 64)
    if (typer >>> 32) % 2 ^ 32 = want then some base
    else if typer &&& (1 <<< 4) ≠ 0 then some gicrBase0
    else findFrame d want rounds ((base + gicrStride) % 2 ^ 64)

def gicrBaseForThisCpu (d : Store) (mpidr rounds : ℕ) : Option ℕ :=
  findFrame d (want mpidr) rounds gicrBase0

def buildIrouterFromMpidr (mpidr : ℕ) (irmAny : Bool) : ℕ :=
  let aff0 := mpidr &&& 0xFF
  let aff1 := (mpidr >>> 8) &&& 0xFF
  let aff2 := (mpidr >>> 16) &&& 0xFF
  let aff3 := (mpidr >>> 32) &&& 0xFF
  let route := (aff3 <<< 56) ||| (aff2 <<< 32) ||| (aff1 <<< 16) ||| (aff0 <<< 0)
  if irmAny then route ||| (1 <<< 31) else route

/-- The same register from its fields, in the header. Nothing calls it. -/
def irouterAff (a3 a2 a1 a0 : ℕ) : ℕ :=
  (a3 <<< 48) ||| (a2 <<< 32) ||| (a1 <<< 16) ||| a0

/-- The 64-bit register in two halves. -/
def routeSpiToThisCpu (d : Store) (mpidr spi : ℕ) : Store :=
  let route := buildIrouterFromMpidr mpidr false
  let d := wr32 d (irouterAddr spi + 0) (route % 2 ^ 32)
  wr32 d (irouterAddr spi + 4) ((route >>> 32) % 2 ^ 32)

/-! ## The registers -/

/-- The name of a core. -/
structure Affinity where
  aff0 : ℕ
  aff1 : ℕ
  aff2 : ℕ
  aff3 : ℕ
  deriving DecidableEq, Repr

/-- The fields of `MPIDR_EL1`. -/
def mpidrAffinity (mpidr : ℕ) : Affinity :=
  ⟨byte mpidr 0, byte mpidr 8, byte mpidr 16, byte mpidr 32⟩

/-- The fields of `GICR_TYPER`, in its upper half. -/
def typerAffinity (typer : ℕ) : Affinity :=
  ⟨byte typer 32, byte typer 40, byte typer 48, byte typer 56⟩

/-- The fields of `GICD_IROUTER`. -/
def irouterAffinity (route : ℕ) : Affinity :=
  ⟨byte route 0, byte route 8, byte route 16, byte route 32⟩

/-- The bit `LAST` of `GICR_TYPER`. -/
def typerLast (typer : ℕ) : Bool := typer.testBit 4

/-- The bit `IRM` of `GICD_IROUTER`: any core may take the interrupt. -/
def irouterIrm (route : ℕ) : Bool := route.testBit 31

/-- The address of a frame. -/
def frameBase (i : ℕ) : ℕ := (gicrBase0 + i * gicrStride) % 2 ^ 64

/-- The redistributor frames that a core with this `MPIDR` finds. -/
structure FrameList (d : Store) (mpidr : ℕ) (frames : List ℕ) : Prop where
  typer : ∀ i (hi : i < frames.length), rd64 d ((frameBase i + gicrTyper) % 2 ^ 64) = frames[i]
  one : frames.countP (fun typer => typerAffinity typer = mpidrAffinity mpidr) = 1
  last : ∀ i (hi : i < frames.length), typerLast frames[i] → i + 1 = frames.length

/-- Private and shared interrupts are set up for the same core: the search ends with the frame
of this core, and the register that is written names this core. -/
structure SameCore (d : Store) (mpidr spi : ℕ) (frames : List ℕ) : Prop where
  frame : ∃ i, ∃ hi : i < frames.length, typerAffinity frames[i] = mpidrAffinity mpidr ∧
    ∀ rounds, i < rounds → gicrBaseForThisCpu d mpidr rounds = some (frameBase i)
  route : irouterAffinity (rd64 (routeSpiToThisCpu d mpidr spi) (irouterAddr spi)) =
    mpidrAffinity mpidr
  irm : ¬ irouterIrm (rd64 (routeSpiToThisCpu d mpidr spi) (irouterAddr spi))

/-! ## The search -/

theorem want_eq (mpidr : ℕ) : want mpidr = byte mpidr 0 + 2 ^ 8 * byte mpidr 8 +
    2 ^ 16 * byte mpidr 16 + 2 ^ 24 * byte mpidr 32 := by
  have h₀ := byte_lt mpidr 0
  have h₁ := byte_lt mpidr 8
  have h₂ := byte_lt mpidr 16
  have h₃ := byte_lt mpidr 32
  have hand : mpidr &&& 0xFF = byte mpidr 0 := shiftRight_and mpidr 0
  have h₀₁ := or_shiftLeft h₀ (byte mpidr 8)
  have h₀₂ := or_shiftLeft (x := byte mpidr 0 + 2 ^ 8 * byte mpidr 8) (k := 16) (by omega)
    (byte mpidr 16)
  have h₀₃ := or_shiftLeft (k := 24) (show byte mpidr 0 + 2 ^ 8 * byte mpidr 8 +
    2 ^ 16 * byte mpidr 16 < 2 ^ 24 by omega) (byte mpidr 32)
  unfold want
  rw [hand, shiftRight_and, shiftRight_and, shiftRight_and]
  dsimp only
  rw [h₀₁, h₀₂, h₀₃]

/-- The comparison of the loop is one of affinities. -/
theorem typer_eq_want (typer mpidr : ℕ) :
    (typer >>> 32) % 2 ^ 32 = want mpidr ↔ typerAffinity typer = mpidrAffinity mpidr := by
  have h₀ := byte_lt mpidr 0
  have h₁ := byte_lt mpidr 8
  have h₂ := byte_lt mpidr 16
  have h₃ := byte_lt mpidr 32
  rw [want_eq, Nat.shiftRight_eq_div_pow, typerAffinity, mpidrAffinity, Affinity.mk.injEq]
  generalize byte mpidr 0 = a₀ at *
  generalize byte mpidr 8 = a₁ at *
  generalize byte mpidr 16 = a₂ at *
  generalize byte mpidr 32 = a₃ at *
  unfold byte
  omega

theorem frameBase_succ (i : ℕ) : (frameBase i + gicrStride) % 2 ^ 64 = frameBase (i + 1) := by
  unfold frameBase gicrBase0 gicrStride
  omega

theorem typer_last (typer : ℕ) : typer &&& (1 <<< 4) ≠ 0 ↔ typerLast typer := by
  rw [typerLast, Nat.shiftLeft_eq, Nat.one_mul, Nat.and_two_pow]
  cases typer.testBit 4 with
  | false => simp
  | true => simp

section
variable {d : Store} {mpidr spi : ℕ} {frames : List ℕ}

/-- One round at the frame `i`. -/
theorem findFrame_succ (h : FrameList d mpidr frames) {i : ℕ} (hi : i < frames.length)
    (rounds : ℕ) :
    findFrame d (want mpidr) (rounds + 1) (frameBase i) =
      if typerAffinity frames[i] = mpidrAffinity mpidr then some (frameBase i)
      else if typerLast frames[i] then some gicrBase0
      else findFrame d (want mpidr) rounds (frameBase (i + 1)) := by
  rw [findFrame, h.typer i hi, frameBase_succ]
  simp only [typer_eq_want, typer_last]

/-- The frames in front of the one that fits are passed, none of them being the last. -/
theorem findFrame_eq (h : FrameList d mpidr frames) {i : ℕ} (hi : i < frames.length)
    (hfit : typerAffinity frames[i] = mpidrAffinity mpidr)
    (hfirst : ∀ j (hj : j < i), typerAffinity frames[j] ≠ mpidrAffinity mpidr) (n : ℕ) (hn : n ≤ i)
    (rounds : ℕ) (hr : n < rounds) :
    findFrame d (want mpidr) rounds (frameBase (i - n)) = some (frameBase i) := by
  induction n generalizing rounds with
  | zero =>
    obtain ⟨r, rfl⟩ := Nat.exists_eq_add_of_lt hr
    rw [Nat.zero_add, Nat.sub_zero, findFrame_succ h hi, if_pos hfit]
  | succ n ih =>
    obtain ⟨r, rfl⟩ := Nat.exists_eq_add_of_lt hr
    have hlast : ¬ typerLast frames[i - (n + 1)] := by
      intro hl
      have := h.last (i - (n + 1)) (by omega) hl
      omega
    rw [findFrame_succ h (by omega), if_neg (hfirst _ (by omega)), if_neg hlast,
      show i - (n + 1) + 1 = i - n by omega]
    exact ih (by omega) _ (by omega)

/-- The search ends, with the frame of this core. -/
theorem gicrBaseForThisCpu_eq (h : FrameList d mpidr frames) :
    ∃ i, ∃ hi : i < frames.length, typerAffinity frames[i] = mpidrAffinity mpidr ∧
      ∀ rounds, i < rounds → gicrBaseForThisCpu d mpidr rounds = some (frameBase i) := by
  let fits := fun typer => decide (typerAffinity typer = mpidrAffinity mpidr)
  have hex : ∃ typer ∈ frames, fits typer := List.countP_pos_iff.mp (by rw [h.one]; decide)
  have hi := List.findIdx_lt_length_of_exists hex
  have hfit : typerAffinity frames[frames.findIdx fits] = mpidrAffinity mpidr :=
    of_decide_eq_true (List.findIdx_getElem (w := hi))
  have hfirst : ∀ j (hj : j < frames.findIdx fits),
      typerAffinity frames[j] ≠ mpidrAffinity mpidr := by
    intro j hj
    exact of_decide_eq_false (List.not_of_lt_findIdx hj)
  refine ⟨frames.findIdx fits, hi, hfit, ?_⟩
  intro rounds hr
  have hrun := findFrame_eq h hi hfit hfirst (frames.findIdx fits) le_rfl rounds hr
  rw [Nat.sub_self] at hrun
  exact hrun

end

/-! ## The route -/

/-- Both packings of the register, which differ in the place of the last field. -/
theorem packed_eq {a₀ a₁ a₂ : ℕ} (h₀ : a₀ < 2 ^ 8) (h₁ : a₁ < 2 ^ 8) (h₂ : a₂ < 2 ^ 8)
    (a₃ k : ℕ) : (a₃ <<< (40 + k)) ||| (a₂ <<< 32) ||| (a₁ <<< 16) ||| a₀ =
      2 ^ (40 + k) * a₃ + 2 ^ 32 * a₂ + 2 ^ 16 * a₁ + a₀ := by
  have hdvd : 2 ^ 40 ∣ 2 ^ (40 + k) * a₃ := by
    rw [pow_add, Nat.mul_assoc]
    exact Nat.dvd_mul_right _ _
  rw [Nat.shiftLeft_eq, Nat.shiftLeft_eq, Nat.shiftLeft_eq, Nat.mul_comm a₃, Nat.mul_comm a₂,
    Nat.mul_comm a₁]
  generalize 2 ^ (40 + k) * a₃ = high at hdvd ⊢
  have hlow : high ||| 2 ^ 32 * a₂ = high + 2 ^ 32 * a₂ := or_eq_add hdvd (by omega)
  have hmid : high + 2 ^ 32 * a₂ ||| 2 ^ 16 * a₁ = high + 2 ^ 32 * a₂ + 2 ^ 16 * a₁ :=
    or_eq_add (k := 32) (by omega) (by omega)
  rw [hlow, hmid]
  exact or_eq_add (k := 16) (by omega) (by omega)

theorem buildIrouterFromMpidr_eq (mpidr : ℕ) : buildIrouterFromMpidr mpidr false =
    2 ^ 56 * byte mpidr 32 + 2 ^ 32 * byte mpidr 16 + 2 ^ 16 * byte mpidr 8 + byte mpidr 0 := by
  have hand : mpidr &&& 0xFF = byte mpidr 0 := shiftRight_and mpidr 0
  rw [← packed_eq (byte_lt mpidr 0) (byte_lt mpidr 8) (byte_lt mpidr 16) (byte mpidr 32) 16]
  unfold buildIrouterFromMpidr
  rw [hand, shiftRight_and, shiftRight_and, shiftRight_and]
  rfl

/-- The helper in the header puts the last field elsewhere. -/
theorem irouterAff_eq_iff (mpidr : ℕ) :
    irouterAff (byte mpidr 32) (byte mpidr 16) (byte mpidr 8) (byte mpidr 0) =
      buildIrouterFromMpidr mpidr false ↔ byte mpidr 32 = 0 := by
  have hpack := packed_eq (byte_lt mpidr 0) (byte_lt mpidr 8) (byte_lt mpidr 16) (byte mpidr 32) 8
  rw [buildIrouterFromMpidr_eq, irouterAff, hpack]
  omega

/-- The register afterwards. -/
theorem rd64_routeSpi (d : Store) (mpidr spi : ℕ) :
    rd64 (routeSpiToThisCpu d mpidr spi) (irouterAddr spi) = buildIrouterFromMpidr mpidr false := by
  have hlt : buildIrouterFromMpidr mpidr false < 2 ^ 64 := by
    have h₀ := byte_lt mpidr 0
    have h₁ := byte_lt mpidr 8
    have h₂ := byte_lt mpidr 16
    have h₃ := byte_lt mpidr 32
    rw [buildIrouterFromMpidr_eq]
    omega
  rw [routeSpiToThisCpu, Nat.add_zero, rd64, rd32_wr32_apart (by omega), rd32_wr32_same,
    rd32_wr32_same, Nat.shiftRight_eq_div_pow]
  omega

/-- The core that the register names: every field but the first has moved up by one. -/
theorem irouterAffinity_build (mpidr : ℕ) :
    irouterAffinity (buildIrouterFromMpidr mpidr false) =
      ⟨byte mpidr 0, 0, byte mpidr 8, byte mpidr 16⟩ := by
  have h₀ := byte_lt mpidr 0
  have h₁ := byte_lt mpidr 8
  have h₂ := byte_lt mpidr 16
  rw [buildIrouterFromMpidr_eq]
  generalize byte mpidr 0 = a₀ at *
  generalize byte mpidr 8 = a₁ at *
  generalize byte mpidr 16 = a₂ at *
  generalize byte mpidr 32 = a₃ at *
  rw [irouterAffinity, Affinity.mk.injEq]
  unfold byte
  omega

theorem irouterIrm_build (mpidr : ℕ) : irouterIrm (buildIrouterFromMpidr mpidr false) = false := by
  have h₀ := byte_lt mpidr 0
  have h₁ := byte_lt mpidr 8
  rw [buildIrouterFromMpidr_eq, irouterIrm, Nat.testBit_eq_decide_div_mod_eq]
  apply decide_eq_false
  omega

/-- Private and shared interrupts are set up for the same core exactly on the cores whose name
has no field but the first. -/
theorem sameCore_iff (d : Store) (mpidr spi : ℕ) (frames : List ℕ)
    (h : FrameList d mpidr frames) :
    SameCore d mpidr spi frames ↔
      byte mpidr 8 = 0 ∧ byte mpidr 16 = 0 ∧ byte mpidr 32 = 0 := by
  have hroute : irouterAffinity (rd64 (routeSpiToThisCpu d mpidr spi) (irouterAddr spi)) =
      mpidrAffinity mpidr ↔ byte mpidr 8 = 0 ∧ byte mpidr 16 = 0 ∧ byte mpidr 32 = 0 := by
    rw [rd64_routeSpi, irouterAffinity_build, mpidrAffinity, Affinity.mk.injEq]
    omega
  constructor
  · exact fun hsame => hroute.mp hsame.route
  · intro hzero
    refine ⟨gicrBaseForThisCpu_eq h, hroute.mpr hzero, ?_⟩
    rw [rd64_routeSpi, irouterIrm_build]
    exact Bool.false_ne_true

/-- Two cores that differ in the second field. -/
def twoClusters : Store := fun x => if x = 0x080C0008 then 16 else if x = 0x080C000D then 1 else 0

/-- Their `TYPER`s; the second frame is marked as the last one. -/
def twoFrames : List ℕ := [0, 0x0000010000000010]

theorem frameList_twoClusters {mpidr : ℕ}
    (one : twoFrames.countP (fun typer => typerAffinity typer = mpidrAffinity mpidr) = 1) :
    FrameList twoClusters mpidr twoFrames := by
  refine ⟨?_, one, ?_⟩
  · intro i hi
    obtain rfl | rfl : i = 0 ∨ i = 1 := by
      have : i < 2 := hi
      omega
    · rfl
    · rfl
  · intro i hi hlast
    obtain rfl | rfl : i = 0 ∨ i = 1 := by
      have : i < 2 := hi
      omega
    · exact absurd hlast (show ¬ typerLast 0 = true by decide)
    · rfl

/-- The second core finds its frame and routes to a core that does not exist. -/
theorem sameCore_second_cluster :
    FrameList twoClusters 0x80000100 twoFrames ∧
      gicrBaseForThisCpu twoClusters 0x80000100 2 = some 0x080C0000 ∧
      mpidrAffinity 0x80000100 = ⟨0, 1, 0, 0⟩ ∧
      rd64 (routeSpiToThisCpu twoClusters 0x80000100 33) (irouterAddr 33) = 0x10000 ∧
      irouterAffinity 0x10000 = ⟨0, 0, 1, 0⟩ ∧
      ¬ SameCore twoClusters 0x80000100 33 twoFrames := by
  have hroute : rd64 (routeSpiToThisCpu twoClusters 0x80000100 33) (irouterAddr 33) = 0x10000 := by
    rw [rd64_routeSpi]
    rfl
  refine ⟨frameList_twoClusters rfl, rfl, rfl, hroute, rfl, ?_⟩
  intro hsame
  have hnames := hsame.route
  rw [hroute] at hnames
  exact absurd hnames (by decide)

/-- The first core of the same machine routes to itself. -/
theorem sameCore_first_cluster : SameCore twoClusters 0x80000000 33 twoFrames :=
  (sameCore_iff twoClusters 0x80000000 33 twoFrames (frameList_twoClusters rfl)).mpr ⟨rfl, rfl, rfl⟩

end JanusRT.Gic
