import JanusRT.AllocShape
import JanusRT.Lib.Outcome

/-!
# Allocating and freeing

What `alloc` and `free` do to a sound heap. The loops walk along one of the two linked
sets, so each of them ends, with a neighbour in that set.
-/
namespace JanusRT.Alloc

open LinkedSet Outcome

/-- No unused block lies right below another one. -/
def Coalesced (s : Arena) (F : Finset ℕ) : Prop := ∀ b ∈ F, b + s.get b .next ∉ F

/-- What the scan of the free list has found below `curr`: the lowest of the smallest
unused blocks that are large enough, or `NULL`. -/
def BestBelow (s : Arena) (F : Finset ℕ) (xlen curr best : ℕ) : Prop :=
  (best = 0 ∧ ∀ c ∈ F, c < curr → s.get c .next < xlen) ∨
    (best ∈ F ∧ best < curr ∧ xlen ≤ s.get best .next ∧
      ∀ c ∈ F, c < curr → xlen ≤ s.get c .next →
        s.get best .next ≤ s.get c .next ∧ (c < best → s.get best .next < s.get c .next))

/-- `b` is the lowest among the smallest of the unused blocks that hold `xlen` bytes. -/
def Best (s : Arena) (F : Finset ℕ) (xlen b : ℕ) : Prop :=
  b ∈ F ∧ xlen ≤ s.get b .next ∧ ∀ c ∈ F, xlen ≤ s.get c .next →
    s.get b .next ≤ s.get c .next ∧ (s.get c .next = s.get b .next → b ≤ c)

/-- At least the threshold remains of the block `b` when `xlen` bytes are cut off it. -/
def Cuts (s : Arena) (b xlen : ℕ) : Prop := xlen + minSplitThreshold ≤ s.get b .next

instance (s : Arena) (b xlen : ℕ) : Decidable (Cuts s b xlen) :=
  inferInstanceAs (Decidable (_ ≤ _))

/-- The block that `alloc` has chosen, cut to size if enough remains. -/
def cutTail (s : Arena) (b xlen : ℕ) : Arena :=
  if minSplitThreshold ≤ sub64 (s.get b .next) xlen then split s b xlen else s

@[simp] theorem cutTail_base (s : Arena) (b xlen : ℕ) : (cutTail s b xlen).base = s.base := by
  simp [cutTail, apply_ite Arena.base]

@[simp] theorem cutTail_free (s : Arena) (b xlen : ℕ) : (cutTail s b xlen).free = s.free := by
  simp [cutTail, apply_ite Arena.free]

@[simp] theorem cutTail_endAddr (s : Arena) (b xlen : ℕ) :
    (cutTail s b xlen).endAddr = s.endAddr := by
  simp [cutTail, apply_ite Arena.endAddr]

namespace Shape
variable {s s' : Arena} {B F : Finset ℕ} {b n : ℕ}

theorem pos_of_mem (h : Shape s B F) (hpos : 0 < s.base) (hb : b ∈ B) : 0 < b :=
  hpos.trans_le (h.low b hb)

/-- Between an unused block and the next one there is none. -/
theorem le_of_lt_nextFree {c curr : ℕ} (h : Shape s B F) (hcurr : curr ∈ F) (hc : c ∈ F)
    (hlt : c < curr + s.get curr .nextFree) : c < curr ∨ c = curr := by
  have := (h.frees.next curr hcurr).1.2 c hc
  omega

/-- A loop along the free list ends, with what each of its rounds preserves. -/
theorem scan {loop : ℕ → ℕ → ℕ → Except Halt ℕ} {pick : ℕ → ℕ → ℕ} {I : ℕ → ℕ → Prop}
    (h : Shape s B F)
    (hloop : ∀ fuel curr best, loop (fuel + 1) curr best =
      if curr = s.endAddr then .ok best else loop fuel (s.nfree curr) (pick curr best))
    (hstep : ∀ curr ∈ F, ∀ best, I curr best → I (curr + s.get curr .nextFree) (pick curr best))
    {fuel curr best : ℕ} (hc : curr ∈ F ∨ curr = s.endAddr) (hfuel : s.endAddr < curr + fuel)
    (hI : I curr best) : ∃ best', loop fuel curr best = .ok best' ∧ I s.endAddr best' := by
  induction fuel generalizing curr best with
  | zero =>
    rcases hc with hc | rfl
    · exact absurd (h.frees.lt curr hc) (by omega)
    · omega
  | succ fuel ih =>
    rw [hloop]
    by_cases hend : curr = s.endAddr
    · rw [if_pos hend]
      subst hend
      exact ⟨best, rfl, hI⟩
    · rw [if_neg hend]
      have hcF := hc.resolve_right hend
      obtain ⟨hgap, hs⟩ := h.frees.next curr hcF
      have := hgap.1
      rw [h.nfree_eq hcF]
      exact ih hs (by omega) (hstep curr hcF best hI)

/-- One round of the scan. -/
theorem bestBelow_step (h : Shape s B F) (hpos : 0 < s.base) {xlen curr best : ℕ} (hc : curr ∈ F)
    (hbest : BestBelow s F xlen curr best) :
    BestBelow s F xlen (curr + s.get curr .nextFree)
      (if xlen ≤ s.get curr .next ∧ (best = 0 ∨ s.get curr .next < s.get best .next) then curr
        else best) := by
  obtain ⟨hgap, _⟩ := h.frees.next curr hc
  have hlt := fun c (hcF : c ∈ F) => h.le_of_lt_nextFree hc hcF
  have hne : ∀ c ∈ F, c ≠ 0 := fun c hcF => (h.pos_of_mem hpos (h.sub hcF)).ne'
  split_ifs with hfit
  · refine .inr ⟨hc, hgap.1, hfit.1, ?_⟩
    intro c hcF hcl hcx
    rcases hbest with ⟨_, hnone⟩ | ⟨hbF, _, _, hmin⟩
    · rcases hlt c hcF hcl with hcc | rfl
      · exact absurd hcx (Nat.not_le.mpr (hnone c hcF hcc))
      · exact ⟨le_rfl, fun hcc => absurd hcc (lt_irrefl _)⟩
    · have hless := hfit.2.resolve_left (hne best hbF)
      rcases hlt c hcF hcl with hcc | rfl
      · have := (hmin c hcF hcc hcx).1
        exact ⟨by omega, fun _ => by omega⟩
      · exact ⟨le_rfl, fun hcc => absurd hcc (lt_irrefl _)⟩
  · rcases hbest with ⟨rfl, hnone⟩ | ⟨hbF, hbl, hbx, hmin⟩
    · refine .inl ⟨rfl, ?_⟩
      intro c hcF hcl
      rcases hlt c hcF hcl with hcc | rfl
      · exact hnone c hcF hcc
      · by_contra hge
        exact hfit ⟨Nat.le_of_not_lt hge, .inl rfl⟩
    · refine .inr ⟨hbF, hbl.trans hgap.1, hbx, ?_⟩
      intro c hcF hcl hcx
      rcases hlt c hcF hcl with hcc | rfl
      · exact hmin c hcF hcc hcx
      · refine ⟨?_, fun hcb => absurd hcb (by omega)⟩
        by_contra hge
        exact hfit ⟨hcx, .inr (by omega)⟩

/-- The scan ends, with the best fit of the whole list. -/
theorem bestFit (h : Shape s B F) (hpos : 0 < s.base) {xlen fuel curr best : ℕ}
    (hc : curr ∈ F ∨ curr = s.endAddr) (hfuel : s.endAddr < curr + fuel) (hbest : BestBelow s F xlen curr best) :
    ∃ best', bestFit s xlen fuel curr best = .ok best' ∧
      BestBelow s F xlen s.endAddr best' := by
  exact h.scan (fun _ _ _ => rfl) (fun curr hcF best => h.bestBelow_step hpos hcF) hc hfuel hbest

/-- The walk upwards over used blocks ends at the next unused block. -/
theorem skipUsed (h : Shape s B F) (hend : s'.endAddr = s.endAddr)
    (hnext : ∀ c ∈ B, s'.get c .next = s.get c .next)
    (hused : ∀ c ∈ B, b < c → s'.get c .used = s.get c .used) {fuel x : ℕ}
    (hx : x ∈ headers s B) (hgap : Gap F b x) (hfuel : s.endAddr < x + fuel) :
    ∃ n, skipUsed s' fuel x = .ok n ∧ Gap F b n ∧ (n ∈ F ∨ n = s.endAddr) := by
  induction fuel generalizing x with
  | zero =>
    rcases hx with hx | rfl
    · exact absurd (h.blocks.lt x hx) (by omega)
    · omega
  | succ fuel ih =>
    rw [Alloc.skipUsed, hend]
    by_cases hxe : x = s.endAddr
    · rw [if_neg fun hc => hc.1 hxe]
      exact ⟨x, rfl, hgap, .inr hxe⟩
    have hxB := hx.resolve_right hxe
    rw [hused x hxB hgap.1, h.used x hxB]
    by_cases hxF : x ∈ F
    · rw [if_pos hxF, if_neg fun hc => hc.2 rfl]
      exact ⟨x, rfl, hgap, .inl hxF⟩
    · have hroom := h.room x hxB
      have hhdr : unusedHeaderSize = 20 := rfl
      have hstep : s'.next x = x + s.get x .next := by
        rw [Arena.next, hnext x hxB]
        exact add64_eq ((h.next_le hxB).trans_lt h.space)
      rw [if_neg hxF, if_pos ⟨hxe, one_ne_zero⟩, hstep]
      refine ih (h.next_mem hxB) ⟨by have := hgap.1; omega, ?_⟩ (by omega)
      intro z hz
      have hzx : z ≠ x := fun he => hxF (he ▸ hz)
      have := hgap.2 z hz
      have := fun hlt : x < z => h.le_of_lt hxB (mem_headers (h.sub hz)) hlt
      omega

/-- The block below, as `prev` computes it. -/
theorem prev_eq (h : Shape s B F) (hb : b ∈ B) :
    (s.prev b = 0 ∧ ∀ c ∈ B, b ≤ c) ∨ ∃ c ∈ B, Gap B c b ∧ s.prev b = c := by
  by_cases hmin : ∀ c ∈ B, b ≤ c
  · refine .inl ⟨?_, hmin⟩
    rw [Arena.prev, if_pos (h.blocks.first b hb hmin)]
  · have hex : ∃ c ∈ B, c < b := by
      by_contra hno
      exact hmin fun c hc => Nat.le_of_not_lt fun hlt => hno ⟨c, hc, hlt⟩
    obtain ⟨c, hc, hgap⟩ := exists_gap_below hex
    have hback := h.blocks.prev c hc b hb hgap
    have hlt := hgap.1
    have hspace := (h.blocks.lt b hb).trans h.space
    refine .inr ⟨c, hc, hgap, ?_⟩
    rw [Arena.prev, if_neg (by omega), sub64_eq (by omega) hspace]
    omega

/-- The walk downwards over used blocks ends at the unused block below, if there is one. -/
theorem skipUsedBack (h : Shape s B F) (hpos : 0 < s.base) (hprev : ∀ c ∈ B, s'.prev c = s.prev c)
    (hused : ∀ c ∈ B, c < b → s'.get c .used = s.get c .used) {fuel x : ℕ}
    (hx : (x = 0 ∧ ∀ c ∈ F, b ≤ c) ∨ (x ∈ B ∧ Gap F x b)) (hfuel : x < fuel) :
    ∃ p, skipUsedBack s' fuel x = .ok p ∧
      ((p = 0 ∧ ∀ c ∈ F, b ≤ c) ∨ (p ∈ F ∧ Gap F p b)) := by
  induction fuel generalizing x with
  | zero => omega
  | succ fuel ih =>
    rw [Alloc.skipUsedBack]
    rcases hx with ⟨rfl, hnone⟩ | ⟨hxB, hgap⟩
    · rw [if_neg fun hc => hc.1 rfl]
      exact ⟨0, rfl, .inl ⟨rfl, hnone⟩⟩
    rw [hused x hxB hgap.1, h.used x hxB]
    by_cases hxF : x ∈ F
    · rw [if_pos hxF, if_neg fun hc => hc.2 rfl]
      exact ⟨x, rfl, .inr ⟨hxF, hgap⟩⟩
    · rw [if_neg hxF, if_pos ⟨(h.pos_of_mem hpos hxB).ne', one_ne_zero⟩, hprev x hxB]
      have hstep : ∀ z ∈ F, z < x ∨ b ≤ z := by
        intro z hz
        have hzx : z ≠ x := fun he => hxF (he ▸ hz)
        have := hgap.2 z hz
        omega
      rcases h.prev_eq hxB with ⟨hp, hmin⟩ | ⟨c, hc, hcx, hp⟩
      · rw [hp]
        refine ih (.inl ⟨rfl, fun c hc => ?_⟩) (by have := h.pos_of_mem hpos hxB; omega)
        have := hstep c hc
        have := hmin c (h.sub hc)
        omega
      · rw [hp]
        have hlt := hcx.1
        refine ih (.inr ⟨hc, hlt.trans hgap.1, fun z hz => ?_⟩) (by omega)
        have := hstep z hz
        have := hcx.2 z (h.sub hz)
        omega

theorem cutTail_eq {xlen : ℕ} (hfit : xlen ≤ s.get b .next) :
    cutTail s b xlen = if Cuts s b xlen then Alloc.split s b xlen else s := by
  have hu : u32 < u64 := by decide
  rw [cutTail, sub64_eq hfit ((s.get_lt _ _).trans hu)]
  exact if_congr (by unfold Cuts; omega) rfl rfl

/-- The run of `alloc`: it finds no block, or takes the best one. -/
theorem alloc_eq (h : Shape s B F) (hpos : 0 < s.base) {len : ℕ}
    (hlen : len + usedHeaderSize < u64) :
    ((∀ c ∈ F, s.get c .next < len + usedHeaderSize) ∧ alloc s len = .ok (0, s)) ∨
      ∃ b, Best s F (len + usedHeaderSize) b ∧ alloc s len =
        .ok (b + usedHeaderSize, Alloc.useBlock (cutTail s b (len + usedHeaderSize)) b) := by
  have hhdr : usedHeaderSize = 12 ∧ unusedHeaderSize = 20 := ⟨rfl, rfl⟩
  have hspace := h.space
  have hx : (len + usedHeaderSize) % u64 = len + usedHeaderSize := Nat.mod_eq_of_lt hlen
  have hstart : BestBelow s F (len + usedHeaderSize) s.free 0 :=
    .inl ⟨rfl, fun c hc hlt => absurd hlt (Nat.not_lt.mpr (h.lowest c hc))⟩
  obtain ⟨b, hscan, hbest⟩ := h.bestFit hpos h.head (show s.endAddr < s.free + u64 by omega) hstart
  rw [Alloc.alloc, hx, hscan, ok_bind]
  rcases hbest with ⟨rfl, hnone⟩ | ⟨hb, _, hfit, hmin⟩
  · exact .inl ⟨fun c hc => hnone c hc (h.frees.lt c hc), rfl⟩
  · have hB := h.sub hb
    have hroom := h.room b hB
    have hle := h.next_le hB
    refine .inr ⟨b, ⟨hb, hfit, ?_⟩, ?_⟩
    · intro c hc hcx
      obtain ⟨hle, hlt⟩ := hmin c hc (h.frees.lt c hc) hcx
      refine ⟨hle, fun he => ?_⟩
      by_contra hcb
      exact absurd (hlt (by omega)) (by omega)
    · have hptr : blockPtr b = b + usedHeaderSize := add64_eq (by omega)
      rw [if_neg (h.pos_of_mem hpos hB).ne', hptr]
      rfl

/-- A length that does not fit into the size word of a block and does not wrap gets NULL. -/
theorem alloc_too_long (h : Shape s B F) (hpos : 0 < s.base) {len : ℕ} (hlong : u32 ≤ len)
    (hlen : len + usedHeaderSize < u64) : alloc s len = .ok (0, s) := by
  rcases h.alloc_eq hpos hlen with ⟨-, hrun⟩ | ⟨b, ⟨-, hfit, -⟩, -⟩
  · exact hrun
  · have hword := s.get_lt b .next
    omega

/-- Cutting the tail off a block that is about to be used. -/
theorem split_if (h : Shape s B F) (hco : Coalesced s F) (hb : b ∈ F) {xlen : ℕ}
    (hx : unusedHeaderSize ≤ xlen) (hfit : xlen ≤ s.get b .next) :
    ∃ B' F', Shape (cutTail s b xlen) B' F' ∧ b ∈ F' ∧ (∀ x, x ∈ B' ∧ x ∉ F' ↔ x ∈ B ∧ x ∉ F) ∧
      Coalesced (cutTail s b xlen) (F'.erase b) := by
  have hhdr : unusedHeaderSize = 20 := rfl
  have hmin : minSplitThreshold = 40 := rfl
  rw [cutTail_eq hfit]
  split_ifs with hcut
  · unfold Cuts at hcut
    have hB := h.sub hb
    obtain ⟨h', hnext, hr⟩ := h.split hb rfl hx (by omega)
    refine ⟨_, _, h', Finset.mem_insert_of_mem hb, ?_, ?_⟩
    · intro x
      have hxr : x = b + xlen → x ∉ B := by
        rintro rfl hxB
        have := h.le_of_lt hB (mem_headers hxB) (by omega)
        omega
      simp only [Finset.mem_insert, not_or]
      constructor
      · rintro ⟨hxB, hne, hxF⟩
        exact ⟨hxB.resolve_left hne, hxF⟩
      · rintro ⟨hxB, hxF⟩
        exact ⟨.inr hxB, fun he => hxr he hxB, hxF⟩
    · intro c hc hadj
      obtain ⟨hcb, hc⟩ := Finset.mem_erase.mp hc
      have hadj := Finset.mem_insert.mp (Finset.mem_of_mem_erase hadj)
      rcases Finset.mem_insert.mp hc with rfl | hcF
      · -- the block above the new one was above `b` before
        rw [hr] at hadj
        have heq : b + xlen + (s.get b .next - xlen) = b + s.get b .next := by omega
        rw [heq] at hadj
        rcases hadj with hadj | hadj
        · omega
        · exact hco b hb hadj
      · have hcB := h.sub hcF
        rw [hnext c hcB, if_neg hcb] at hadj
        rcases hadj with hadj | hadj
        · have h₁ := fun hlt : c < b => h.le_of_lt hcB (mem_headers hB) hlt
          have h₂ := fun hlt : b < c => h.le_of_lt hB (mem_headers hcB) hlt
          have h₃ := h.room c hcB
          omega
        · exact hco c hcF hadj
  · refine ⟨B, F, h, hb, fun x => Iff.rfl, ?_⟩
    intro c hc hadj
    exact hco c (Finset.mem_of_mem_erase hc) (Finset.mem_of_mem_erase hadj)

/-- `alloc` gives out the best fit among the unused blocks, or finds none. -/
theorem alloc (h : Shape s B F) (hpos : 0 < s.base) (hco : Coalesced s F) {len : ℕ}
    (hlen : 8 ≤ len) (hlen' : len + usedHeaderSize < u32) :
    ∃ p s', alloc s len = .ok (p, s') ∧ s'.base = s.base ∧
      ((p = 0 ∧ s' = s) ∨ ∃ b ∈ F, p = b + usedHeaderSize ∧
        ∃ B' F', Shape s' B' F' ∧ Coalesced s' F' ∧
          ∀ x, x ∈ B' ∧ x ∉ F' ↔ (x ∈ B ∧ x ∉ F) ∨ x = b) := by
  have hhdr : usedHeaderSize = 12 ∧ unusedHeaderSize = 20 := ⟨rfl, rfl⟩
  have hu : u32 < u64 := by decide
  rcases h.alloc_eq hpos (show len + usedHeaderSize < u64 by omega) with ⟨_, hrun⟩ | ⟨b, hbest, hrun⟩
  · exact ⟨0, s, hrun, rfl, .inl ⟨rfl, rfl⟩⟩
  · obtain ⟨hb, hfit, _⟩ := hbest
    obtain ⟨B', F', h', hb', hsame, hco'⟩ := h.split_if hco hb (by omega) hfit
    refine ⟨_, _, hrun, ?_, .inr ⟨b, hb, rfl, B', F'.erase b, (h'.useBlock hb').1, ?_, ?_⟩⟩
    · rw [useBlock_base, cutTail_base]
    · intro c hc
      rw [(h'.useBlock hb').2 c (h'.sub (Finset.mem_of_mem_erase hc))]
      exact hco' c hc
    · intro x
      rw [← hsame x, Finset.mem_erase]
      by_cases hxb : x = b
      · subst hxb
        simp [h'.sub hb']
      · simp [hxb]

/-- The block that `free` releases is linked between its unused neighbours. -/
theorem relink {p : ℕ} (h : Shape s B F) (hpos : 0 < s.base) (hb : b ∈ B) (hbF : b ∉ F) (hgap : Gap F b n)
    (hn : n ∈ F ∨ n = s.endAddr) (hp : (p = 0 ∧ ∀ c ∈ F, b ≤ c) ∨ (p ∈ F ∧ Gap F p b)) :
    Shape (relink (unuse s b) b n p) B (insert b F) ∧
      ∀ c ∈ B, (Alloc.relink (unuse s b) b n p).get c .next = s.get c .next := by
  have hlt := h.blocks.lt b hb
  have hspace := h.space
  have hspan := h.span
  have hlow := h.low b hb
  have hb0 := h.pos_of_mem hpos hb
  have hbn := hgap.1
  have hnD : n ∈ headers s B := hn.imp_left (h.sub ·)
  have hne : n ≤ s.endAddr := by
    rcases hn with hn | rfl
    · exact (h.frees.lt n hn).le
    · exact le_rfl
  have hpD : p ≠ 0 → p ∈ headers s B := by
    rintro hp0
    rcases hp with ⟨rfl, _⟩ | ⟨hpF, _⟩
    · exact absurd rfl hp0
    · exact .inl (h.sub hpF)
  have hd : sub64 n b % u32 = n - b := by
    rw [sub64_eq hbn.le (by omega), Nat.mod_eq_of_lt (by omega)]
  have hdp : p ∈ F → Gap F p b → sub64 b p % u32 = b - p := by
    intro hpF hpb
    have := h.low p (h.sub hpF)
    have := hpb.1
    rw [sub64_eq (by omega) (by omega), Nat.mod_eq_of_lt (by omega)]
  have hget : ∀ c ∈ B, ∀ j, (Alloc.relink (unuse s b) b n p).get c j = _ :=
    fun c hc => get_relink h.apart (mem_headers hb) hnD hpD (mem_headers hc)
  have hmark : ∀ c ∈ B, ∀ j, (unuse s b).get c j = _ :=
    fun c hc => get_unuse h.apart (mem_headers hb) (mem_headers hc)
  have hnext : ∀ c ∈ B, (Alloc.relink (unuse s b) b n p).get c .next = s.get c .next := by
    intro c hc
    simp [hget c hc, hmark c hc]
  refine ⟨h.of_frees (relink_base _ _ _ _) (relink_endAddr _ _ _ _) hnext ?_ ?_ ?_ ?_ ?_ ?_, hnext⟩
  · intro c hc
    simp [hget c hc, hmark c hc]
  · intro c hc
    rcases Finset.mem_insert.mp hc with rfl | hc
    · exact hb
    · exact h.sub hc
  · intro c hc
    simp only [hget c hc, hmark c hc, true_or, and_true, Finset.mem_insert]
    rw [h.used c hc]
    by_cases hcb : c = b <;> simp [hcb]
  · refine h.frees.insert hbF hgap hn ?_ ?_ ?_ ?_ ?_ ?_
    · have hbp : b ≠ p := by
        rcases hp with ⟨rfl, _⟩ | ⟨hpF, _⟩
        · exact hb0.ne'
        · exact fun he => hbF (he ▸ hpF)
      simp only [hget b hb, hbp, false_and, if_false, if_true, hd]
      omega
    · intro hnF
      have hne' : n ≠ s.endAddr := (h.frees.lt n hnF).ne
      simp only [hget n (h.sub hnF), hbn.ne', false_and, if_false, unuse_endAddr, hne', ne_eq,
        not_false_eq_true, and_self, if_true, hd]
      omega
    · intro q hq hqb
      rcases hp with ⟨_, hmin⟩ | ⟨hpF, hpb⟩
      · exact absurd (hmin q hq) (by have := hqb.1; omega)
      obtain rfl := hqb.lower_unique hq hpF hpb
      have hq0 : q ≠ 0 := (h.pos_of_mem hpos (h.sub hq)).ne'
      have hlt' := hqb.1
      constructor
      · simp only [hget q (h.sub hq), hq0, ne_eq, not_false_eq_true, and_self, if_true, hdp hq hqb]
        omega
      · simp only [hget b hb, hq0, ne_eq, not_false_eq_true, and_self, if_true, hdp hq hqb]
        omega
    · intro hmin
      have hp0 : p = 0 := by
        rcases hp with ⟨hp0, _⟩ | ⟨hpF, hpb⟩
        · exact hp0
        · exact absurd (hmin p hpF) (by have := hpb.1; omega)
      simp only [hget b hb]
      simp [hmark b hb, hp0, hbn.ne]
    · intro z hz hzb
      have hzB := h.sub hz
      have hzne : z ≠ b := fun he => hbF (he ▸ hz)
      have hzp : z ≠ p := by
        rintro rfl
        rcases hp with ⟨hz0, _⟩ | ⟨_, hpb⟩
        · exact absurd hz0 (h.pos_of_mem hpos hzB).ne'
        · exact hzb hpb
      simp [hget z hzB, hmark z hzB, hzne, hzp]
    · intro z hz hzn
      have hzB := h.sub hz
      have hzne : z ≠ b := fun he => hbF (he ▸ hz)
      simp [hget z hzB, hmark z hzB, hzne, hzn]
  · rw [relink_free, unuse_free]
    split_ifs with hhead
    · exact .inl (Finset.mem_insert_self _ _)
    · exact h.head.imp_left (Finset.mem_insert_of_mem ·)
  · intro c hc
    rw [relink_free, unuse_free]
    rcases Finset.mem_insert.mp hc with rfl | hc
    · split_ifs <;> omega
    · have := h.lowest c hc
      split_ifs <;> omega

/-- Dropping an unused block leaves the same used blocks. -/
theorem used_erase {x : ℕ} (hn : n ∈ F) :
    x ∈ B.erase n ∧ x ∉ F.erase n ↔ x ∈ B ∧ x ∉ F := by
  simp only [Finset.mem_erase]
  constructor
  · rintro ⟨⟨hxn, hxB⟩, hxF⟩
    exact ⟨hxB, fun hx => hxF ⟨hxn, hx⟩⟩
  · rintro ⟨hxB, hxF⟩
    have hxn : x ≠ n := fun he => hxF (he ▸ hn)
    exact ⟨⟨hxn, hxB⟩, fun hx => hxF hx.2⟩

/-- A round of the coalescing loop leaves no unused block right above `b`. -/
theorem joinRound (h : Shape s B F) (hb : b ∈ F) (hgap : Gap F b n) (hn : n ∈ F ∨ n = s.endAddr)
    (htop : n ∈ F → n + s.get n .next ∉ F) :
    ∃ B' F', Shape (Alloc.joinNext s b n) B' F' ∧ (∀ x, x ∈ B' ∧ x ∉ F' ↔ x ∈ B ∧ x ∉ F) ∧
      F' ⊆ F ∧ (∀ x ∈ F, x ≠ n → x ∈ F') ∧
      ∀ c ∈ F', c + (Alloc.joinNext s b n).get c .next ∈ F' → c ≠ b ∧ c + s.get c .next ∈ F := by
  have hB := h.sub hb
  by_cases hjoin : n ≠ s.endAddr ∧ n = s.next b
  · have hnF := hn.resolve_right hjoin.1
    have hbn : b + s.get b .next = n := by rw [← h.next_eq hB, hjoin.2]
    obtain ⟨h', hnext⟩ := h.joinNext hb hnF hbn
    refine ⟨_, _, h', fun x => used_erase hnF, Finset.erase_subset n F,
      fun x hx hxn => Finset.mem_erase.mpr ⟨hxn, hx⟩, ?_⟩
    · intro c hc hadj
      obtain ⟨hcn, hcF⟩ := Finset.mem_erase.mp hc
      obtain ⟨_, hadj⟩ := Finset.mem_erase.mp hadj
      rw [hnext c (h.sub hcF)] at hadj
      by_cases hcb : c = b
      · rw [if_pos hcb, hcb, ← Nat.add_assoc, hbn] at hadj
        exact absurd hadj (htop hnF)
      · rw [if_neg hcb] at hadj
        exact ⟨hcb, hadj⟩
  · have hsame : Alloc.joinNext s b n = s := if_neg hjoin
    rw [hsame]
    refine ⟨B, F, h, fun x => Iff.rfl, Finset.Subset.refl F, fun x hx _ => hx, ?_⟩
    intro c _ hadj
    refine ⟨?_, hadj⟩
    rintro rfl
    have hnc : c + s.get c .next = n := by
      have hgapB := (h.blocks.next c hB).1
      have h₁ := hgap.2 _ hadj
      have h₂ := hgapB.1
      rcases hn with hnF | rfl
      · have := hgapB.2 n (h.sub hnF)
        have := hgap.1
        omega
      · have := h.frees.lt _ hadj
        omega
    refine hjoin ⟨?_, by rw [h.next_eq hB, hnc]⟩
    have := h.frees.lt _ hadj
    omega

/-- Marking a block changes neither the block list nor the other flags. -/
theorem get_unuse (h : Shape s B F) (hb : b ∈ B) :
    (∀ c ∈ B, (unuse s b).get c .next = s.get c .next) ∧
      (∀ c ∈ B, (unuse s b).prev c = s.prev c) ∧
      ∀ c ∈ B, c ≠ b → ∀ j, (unuse s b).get c j = s.get c j := by
  have hmark : ∀ c ∈ B, ∀ j, (unuse s b).get c j = _ :=
    fun c hc => Alloc.get_unuse h.apart (mem_headers hb) (mem_headers hc)
  refine ⟨?_, ?_, ?_⟩
  · intro c hc
    simp [hmark c hc]
  · intro c hc
    simp [Arena.prev, hmark c hc]
  · intro c hc hcb j
    simp [hmark c hc, hcb]

/-- `free` finds the next unused block. -/
theorem findNext (h : Shape s B F) (hb : b ∈ B) :
    ∃ n, Alloc.skipUsed (unuse s b) u64 ((unuse s b).next b) = .ok n ∧
      Gap F b n ∧ (n ∈ F ∨ n = s.endAddr) := by
  have hspace := h.space
  obtain ⟨hnext, _, hother⟩ := h.get_unuse hb
  have hstart : (unuse s b).next b = b + s.get b .next := by
    rw [Arena.next, hnext b hb]
    exact add64_eq ((h.next_le hb).trans_lt h.space)
  have hgap : Gap F b (b + s.get b .next) := (h.blocks.next b hb).1.mono fun z hz => h.sub hz
  rw [hstart]
  exact h.skipUsed (unuse_endAddr s b) hnext (fun c hc hcb => hother c hc hcb.ne' .used)
    (h.next_mem hb) hgap (by omega)

/-- `free` finds the previous unused block, if the list does not start above `b`. -/
theorem findPrev (h : Shape s B F) (hpos : 0 < s.base) (hb : b ∈ B) (hbF : b ∉ F)
    (hhole : s.free < b ∨ s.free = s.endAddr) (hgap : Gap F b n) (hn : n ∈ F ∨ n = s.endAddr) :
    ∃ p, findPrevFree (unuse s b) b n = .ok p ∧
      ((p = 0 ∧ ∀ c ∈ F, b ≤ c) ∨ (p ∈ F ∧ Gap F p b)) := by
  have hlt := h.blocks.lt b hb
  have hspace := h.space
  obtain ⟨_, hprev, hother⟩ := h.get_unuse hb
  rw [findPrevFree, unuse_endAddr]
  by_cases hne : n = s.endAddr
  · rw [if_neg fun hc => hc hne]
    have hback : ((unuse s b).prev b = 0 ∧ ∀ c ∈ F, b ≤ c) ∨
        ((unuse s b).prev b ∈ B ∧ Gap F ((unuse s b).prev b) b) := by
      rw [hprev b hb]
      rcases h.prev_eq hb with ⟨hp, hmin⟩ | ⟨c, hc, hcb, hp⟩
      · exact .inl ⟨hp, fun c hc => hmin c (h.sub hc)⟩
      · rw [hp]
        exact .inr ⟨hc, hcb.mono fun z hz => h.sub hz⟩
    have hfuel : (unuse s b).prev b < u64 := by
      rcases hback with ⟨hp, _⟩ | ⟨_, hcb⟩
      · rw [hp]; decide
      · have := hcb.1
        omega
    exact h.skipUsedBack hpos hprev (fun c hc hcb => hother c hc hcb.ne .used) hback hfuel
  · rw [if_pos hne]
    have hnF := hn.resolve_right hne
    have hlow := h.lowest n hnF
    have hnlt := h.frees.lt n hnF
    obtain ⟨p, hp, hpb⟩ := h.exists_below (hhole.resolve_right (by omega)) hlt
    have hpn : Gap F p n := by
      refine ⟨hpb.1.trans hgap.1, fun z hz => ?_⟩
      have hzb : z ≠ b := fun he => hbF (he ▸ hz)
      have := hpb.2 z hz
      have := hgap.2 z hz
      omega
    refine ⟨p, ?_, .inr ⟨hp, hpb⟩⟩
    rw [Arena.pfree, hother n (h.sub hnF) hgap.1.ne', ← Arena.pfree, h.pfree_eq hp hnF hpn]

theorem ptrBlock_eq (h : Shape s B F) (hb : b ∈ B) : ptrBlock (b + usedHeaderSize) = b := by
  have hhdr : usedHeaderSize = 12 ∧ unusedHeaderSize = 20 := ⟨rfl, rfl⟩
  have hspace := h.space
  have hle := h.next_le hb
  have hroom := h.room b hb
  rw [ptrBlock, sub64_eq (by omega) (by omega), Nat.add_sub_cancel]

/-- A pointer to a used block passes the checks. -/
theorem kassert_used (h : Shape s B F) (hb : b ∈ B) (hbF : b ∉ F) :
    kassert (decide (b + usedHeaderSize < s.endAddr)) = .ok () ∧
      kassert (decide (s.base < b + usedHeaderSize)) = .ok () ∧
      kassert (decide (s.get b .used = 1)) = .ok () := by
  have hhdr : usedHeaderSize = 12 := rfl
  have hhdr' : unusedHeaderSize = 20 := rfl
  have hspace := h.space
  have hle := h.next_le hb
  have hlow := h.low b hb
  have hroom := h.room b hb
  refine ⟨?_, ?_, ?_⟩
  · rw [kassert, if_pos (decide_eq_true (by omega))]
  · rw [kassert, if_pos (decide_eq_true (by omega))]
  · rw [kassert, if_pos (decide_eq_true (by rw [h.used b hb, if_neg hbF]))]

/-- The run of `free` on a used block, once both searches have ended. -/
theorem free_eq {p : ℕ} (h : Shape s B F) (hb : b ∈ B) (hbF : b ∉ F)
    (hn : Alloc.skipUsed (unuse s b) u64 ((unuse s b).next b) = .ok n)
    (hp : findPrevFree (unuse s b) b n = .ok p) :
    free s (b + usedHeaderSize) = .ok
      (if p ≠ 0 then
        Alloc.joinNext (Alloc.joinNext (Alloc.relink (unuse s b) b n p) b n) p b
      else Alloc.joinNext (Alloc.relink (unuse s b) b n p) b n) := by
  obtain ⟨h₁, h₂, h₃⟩ := h.kassert_used hb hbF
  rw [Alloc.free, h₁, ok_bind, h₂, ok_bind, h.ptrBlock_eq hb]
  extract_lets
  rw [h₃, ok_bind, hn, ok_bind, hp, ok_bind]
  rfl

/-- `free` gives a used block back, unless an unused block lies above it and none below. -/
theorem free (h : Shape s B F) (hpos : 0 < s.base) (hco : Coalesced s F) (hb : b ∈ B)
    (hbF : b ∉ F) (hhole : s.free < b ∨ s.free = s.endAddr) :
    ∃ s', free s (b + usedHeaderSize) = .ok s' ∧ s'.base = s.base ∧
      ∃ B' F', Shape s' B' F' ∧ Coalesced s' F' ∧
        ∀ x, x ∈ B' ∧ x ∉ F' ↔ (x ∈ B ∧ x ∉ F) ∧ x ≠ b := by
  obtain ⟨n, hn, hgap, hnF⟩ := h.findNext hb
  obtain ⟨p, hp, hpF⟩ := h.findPrev hpos hb hbF hhole hgap hnF
  have hrun := h.free_eq hb hbF hn hp
  obtain ⟨h₂, hnext₂⟩ := h.relink hpos hb hbF hgap hnF hpF
  have hbn := hgap.1
  -- an unused block that ends at `b` is the one right below it
  have hbelow : ∀ c ∈ F, c + s.get c .next = b → Gap F c b := by
    rintro c hc rfl
    exact (h.blocks.next c (h.sub hc)).1.mono fun z hz => h.sub hz
  have hgap₂ : Gap (insert b F) b n := by
    refine ⟨hbn, fun z hz => ?_⟩
    rcases Finset.mem_insert.mp hz with rfl | hz
    · exact .inl le_rfl
    · exact hgap.2 z hz
  obtain ⟨B₃, F₃, h₃, hsame₃, hsub₃, hkeep₃, hadj₃⟩ := h₂.joinRound (Finset.mem_insert_self b F)
    hgap₂ (by rw [relink_endAddr, unuse_endAddr]; exact hnF.imp_left (Finset.mem_insert_of_mem ·))
    (by
      intro hn₂
      have hnF' := (Finset.mem_insert.mp hn₂).resolve_left hbn.ne'
      rw [hnext₂ n (h.sub hnF'), Finset.mem_insert, not_or]
      exact ⟨by omega, hco n hnF'⟩)
  have hused : ∀ x, x ∈ B₃ ∧ x ∉ F₃ ↔ (x ∈ B ∧ x ∉ F) ∧ x ≠ b := by
    intro x
    rw [hsame₃ x, Finset.mem_insert, not_or, and_comm (a := ¬ x = b), and_assoc]
  -- what is still adjacent after the first round is the block below `b` and `b`
  have hleft : ∀ c ∈ F₃, c + (Alloc.joinNext (Alloc.relink (unuse s b) b n p) b n).get c .next ∈ F₃ →
      c ∈ F ∧ Gap F c b := by
    intro c hc hadj
    obtain ⟨hcb, hadj⟩ := hadj₃ c hc hadj
    have hcF := (Finset.mem_insert.mp (hsub₃ hc)).resolve_left hcb
    rw [hnext₂ c (h.sub hcF)] at hadj
    rcases Finset.mem_insert.mp hadj with hadj | hadj
    · exact ⟨hcF, hbelow c hcF hadj⟩
    · exact absurd hadj (hco c hcF)
  rcases hpF with ⟨rfl, hmin⟩ | ⟨hpF, hpb⟩
  · rw [if_neg fun hc => hc rfl] at hrun
    refine ⟨_, hrun, by simp, B₃, F₃, h₃, ?_, hused⟩
    intro c hc hadj
    obtain ⟨hcF, hcb⟩ := hleft c hc hadj
    have := hmin c hcF
    have := hcb.1
    omega
  · have hp0 : p ≠ 0 := (h.pos_of_mem hpos (h.sub hpF)).ne'
    have hpb' := hpb.1
    rw [if_pos hp0] at hrun
    have hb₃ := hkeep₃ b (Finset.mem_insert_self b F) hbn.ne
    have hp₃ := hkeep₃ p (Finset.mem_insert_of_mem hpF) (by omega)
    have hgap₃ : Gap F₃ p b := by
      refine ⟨hpb', fun z hz => ?_⟩
      rcases Finset.mem_insert.mp (hsub₃ hz) with rfl | hz
      · exact .inr le_rfl
      · exact hpb.2 z hz
    obtain ⟨B₄, F₄, h₄, hsame₄, hsub₄, _, hadj₄⟩ := h₃.joinRound hp₃ hgap₃ (.inl hb₃)
      (fun _ hadj => (hadj₃ b hb₃ hadj).1 rfl)
    refine ⟨_, hrun, by simp, B₄, F₄, h₄, ?_, fun x => (hsame₄ x).trans (hused x)⟩
    intro c hc hadj
    obtain ⟨hcp, hadj⟩ := hadj₄ c hc hadj
    obtain ⟨hcF, hcb⟩ := hleft c (hsub₄ hc) hadj
    exact hcp (hcb.lower_unique hcF hpF hpb)

/-- Below the first unused block `n` the search for the previous one ends at `n` itself,
whose link back is zero. The freed block becomes the first of the list with a link back
that wraps around. -/
theorem free_below (h : Shape s B F) (hpos : 0 < s.base) (hb : b ∈ B) (hbF : b ∉ F)
    (hlt : b < s.free) (hne : s.free ≠ s.endAddr) :
    ∃ s', Alloc.free s (b + usedHeaderSize) = .ok s' ∧ s'.endAddr = s.endAddr ∧ s'.free = b ∧
      s'.get b .prevFree ≠ 0 := by
  have hu : u64 = 2 ^ 64 ∧ u32 = 2 ^ 32 ∧ unusedHeaderSize = 20 := ⟨rfl, rfl, rfl⟩
  have hfF := h.head.resolve_right hne
  obtain ⟨n, hn, hgap, hnF⟩ := h.findNext hb
  obtain rfl : n = s.free := by
    have h₁ := hgap.2 _ hfF
    have h₂ := h.frees.lt _ hfF
    have h₃ := h.lowest n (hnF.resolve_right (by omega))
    omega
  generalize hf : s.free = n at *
  have hnB := h.sub hfF
  have hn0 : n ≠ 0 := (h.pos_of_mem hpos hnB).ne'
  have hnlt := h.blocks.lt n hnB
  have hblt := h.blocks.lt b hb
  have hspace := h.space
  have hspan := h.span
  have hlow := h.low b hb
  have hlow' := h.low n hnB
  obtain ⟨hnext₁, _, hother₁⟩ := h.get_unuse hb
  have hp : findPrevFree (unuse s b) b n = .ok n := by
    have hzero : s.get n .prevFree = 0 := h.frees.first n hfF fun y hy => hf ▸ h.lowest y hy
    rw [findPrevFree, unuse_endAddr, if_pos hne, Arena.pfree, hother₁ n hnB hlt.ne', hzero,
      sub64_eq (Nat.zero_le n) (by omega), Nat.sub_zero]
  have hd : sub64 b n % u32 = u32 - (n - b) := by
    rw [sub64, hu.1, hu.2.1]
    omega
  have hget₂ : ∀ c ∈ B, ∀ j, (Alloc.relink (unuse s b) b n n).get c j = _ :=
    fun c hc => get_relink h.apart (mem_headers hb) (mem_headers hnB) (fun _ => mem_headers hnB)
      (mem_headers hc)
  have hback₂ : (Alloc.relink (unuse s b) b n n).get b .prevFree = u32 - (n - b) := by
    simp only [hget₂ b hb, hn0, ne_eq, not_false_eq_true, and_self, if_true, hd]
  have hfwd₂ : (Alloc.relink (unuse s b) b n n).get n .nextFree = u32 - (n - b) := by
    simp only [hget₂ n hnB, hn0, ne_eq, not_false_eq_true, and_self, if_true, hd]
  have hnext₂ : ∀ c ∈ B, (Alloc.relink (unuse s b) b n n).get c .next = s.get c .next := by
    intro c hc
    simp only [hget₂ c hc, hnext₁ c hc]
  have hjoin : (Alloc.joinNext (Alloc.relink (unuse s b) b n n) b n).get b .prevFree =
        u32 - (n - b) ∧
      (Alloc.joinNext (Alloc.relink (unuse s b) b n n) b n).get n .next = s.get n .next := by
    by_cases hcase : n ≠ (Alloc.relink (unuse s b) b n n).endAddr ∧
        n = (Alloc.relink (unuse s b) b n n).next b
    · -- the link forward of `n` now leads out of the region, to a header at `w`
      obtain ⟨w, hw⟩ : ∃ w, add64 n (u32 - (n - b)) = w := ⟨_, rfl⟩
      have hwB : ∀ x ∈ B, x + unusedHeaderSize ≤ w ∨ w + unusedHeaderSize ≤ x := by
        intro x hx
        have h₁ := h.next_le hx
        have h₂ := h.room x hx
        have h₃ := h.low x hx
        rw [← hw, add64, hu.1, hu.2.1]
        omega
      have hD : ∀ x ∈ insert w (B : Set ℕ), ∀ y ∈ insert w (B : Set ℕ), Apart x y := by
        rintro x (rfl | hx) y (rfl | hy)
        · exact .inl rfl
        · exact .inr (hwB y hy).symm
        · exact .inr (hwB x hx)
        · exact h.apart x (mem_headers hx) y (mem_headers hy)
      have hnn : n + s.get n .next ≠ (Alloc.relink (unuse s b) b n n).endAddr →
          n + s.get n .next ∈ insert w (B : Set ℕ) := by
        rw [relink_endAddr, unuse_endAddr]
        exact fun hend => .inr ((h.next_mem hnB).resolve_right hend)
      have hget : ∀ c ∈ B, ∀ j, (Alloc.joinNext (Alloc.relink (unuse s b) b n n) b n).get c j = _ :=
        fun c hc => get_joinNext hD (.inr hb) (.inr hnB) hnn (fun _ => .inl rfl) (.inr hc) hcase.1
          hcase.2.symm (by rw [Arena.next, hnext₂ n hnB, ← Arena.next, h.next_eq hnB])
          (by rw [Arena.nfree, hfwd₂, hw]) hlt.ne'
      have hbw : b ≠ w := by
        have := hwB b hb
        omega
      constructor
      · simp only [hget b hb, hbw, false_and, if_false, hback₂]
      · simp only [hget n hnB, hlt.ne', if_false, hnext₂ n hnB]
    · rw [Alloc.joinNext, if_neg hcase]
      exact ⟨hback₂, hnext₂ n hnB⟩
  have hlast : Alloc.joinNext (Alloc.joinNext (Alloc.relink (unuse s b) b n n) b n) n b =
      Alloc.joinNext (Alloc.relink (unuse s b) b n n) b n := by
    refine if_neg fun hc => ?_
    have hle := h.next_le hnB
    have := hc.2
    rw [Arena.next, hjoin.2, add64_eq (by omega)] at this
    omega
  refine ⟨_, h.free_eq hb hbF hn hp, ?_, ?_, ?_⟩
  · rw [if_pos hn0]
    simp
  · rw [if_pos hn0]
    simp [unuse_free, hf, hlt]
  · rw [if_pos hn0, hlast, hjoin.1]
    omega

end Shape

end JanusRT.Alloc
