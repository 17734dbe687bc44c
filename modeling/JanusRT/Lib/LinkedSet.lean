import Mathlib.Data.Finset.Max
import Mathlib.Tactic

/-!
# Sets of addresses linked by distances

A doubly linked list in address order that stores distances instead of pointers: `f x`
is the distance from the node `x` to its successor, the last successor being the
sentinel `e`, and `g x` is the distance back to the predecessor, zero at the first
node. The nodes are a finite set, so inserting and removing a node are the insertion
and the erasure of that set, and a list invariant is a fact about neighbours.
-/
namespace LinkedSet

/-- No member of `S` lies strictly between `x` and `y`. -/
def Gap (S : Finset ℕ) (x y : ℕ) : Prop := x < y ∧ ∀ z ∈ S, z ≤ x ∨ y ≤ z

/-- The two distance fields of every node are exact. -/
structure Linked (S : Finset ℕ) (e : ℕ) (f g : ℕ → ℕ) : Prop where
  lt : ∀ x ∈ S, x < e
  next : ∀ x ∈ S, Gap S x (x + f x) ∧ (x + f x ∈ S ∨ x + f x = e)
  prev : ∀ x ∈ S, ∀ y ∈ S, Gap S x y → x + g y = y
  first : ∀ x ∈ S, (∀ y ∈ S, x ≤ y) → g x = 0

variable {S : Finset ℕ} {e : ℕ} {f g f' g' : ℕ → ℕ} {x y n p : ℕ}

/-- A member with smaller members has one right below it. -/
theorem exists_gap_below (h : ∃ y ∈ S, y < x) : ∃ p ∈ S, Gap S p x := by
  obtain ⟨y, hy, hyx⟩ := h
  obtain ⟨p, hp, hmax⟩ := (S.filter (· < x)).exists_max_image id
    ⟨y, Finset.mem_filter.mpr ⟨hy, hyx⟩⟩
  rw [Finset.mem_filter] at hp
  refine ⟨p, hp.1, hp.2, ?_⟩
  intro z hz
  by_cases hzx : z < x
  · exact .inl (hmax z (Finset.mem_filter.mpr ⟨hz, hzx⟩))
  · exact .inr (Nat.le_of_not_lt hzx)

theorem Gap.mono {T : Finset ℕ} (h : Gap S x y) (hT : ∀ z ∈ T, z ∈ S) : Gap T x y :=
  ⟨h.1, fun z hz => h.2 z (hT z hz)⟩

theorem Gap.lower_unique (hp : p ∈ S) (hy : y ∈ S) (h : Gap S p x) (h' : Gap S y x) : p = y := by
  have hpy := h.2 y hy
  have hyp := h'.2 p hp
  have hpx := h.1
  have hyx := h'.1
  omega

namespace Linked

/-- The successor is the neighbour above. -/
theorem next_eq (h : Linked S e f g) (hx : x ∈ S) (hgap : Gap S x y) (hy : y ∈ S ∨ y = e) :
    x + f x = y := by
  obtain ⟨hg, hs⟩ := h.next x hx
  have hlt : y < x + f x → False := by
    intro hlt
    rcases hy with hy | rfl
    · have hyx := hg.2 y hy
      have := hgap.1
      omega
    · rcases hs with hs | hs
      · exact absurd (h.lt _ hs) (by omega)
      · omega
  have hgt : x + f x < y → False := by
    intro hgt
    rcases hs with hs | hs
    · have hxs := hgap.2 _ hs
      have := hg.1
      omega
    · rcases hy with hy | rfl
      · exact absurd (h.lt _ hy) (by omega)
      · omega
  exact Nat.le_antisymm (Nat.le_of_not_lt hlt) (Nat.le_of_not_lt hgt)

/-- The fields matter at the nodes only. -/
theorem congr (h : Linked S e f g) (hf : ∀ z ∈ S, f' z = f z) (hg : ∀ z ∈ S, g' z = g z) :
    Linked S e f' g' where
  lt := h.lt
  next x hx := by
    rw [hf x hx]
    exact h.next x hx
  prev x hx y hy hgap := by
    rw [hg y hy]
    exact h.prev x hx y hy hgap
  first x hx hmin := by
    rw [hg x hx]
    exact h.first x hx hmin

/-- The nodes determine the fields. -/
theorem unique (h : Linked S e f g) (h' : Linked S e f' g') (hx : x ∈ S) :
    f' x = f x ∧ g' x = g x := by
  constructor
  · obtain ⟨hgap, hs⟩ := h'.next x hx
    have := h.next_eq hx hgap hs
    omega
  · by_cases hlow : ∃ y ∈ S, y < x
    · obtain ⟨p, hp, hgap⟩ := exists_gap_below hlow
      have h₁ := h.prev p hp x hx hgap
      have h₂ := h'.prev p hp x hx hgap
      omega
    · have hmin : ∀ y ∈ S, x ≤ y := fun y hy => Nat.le_of_not_lt fun hlt => hlow ⟨y, hy, hlt⟩
      rw [h.first x hx hmin, h'.first x hx hmin]

/-- One node only. -/
theorem singleton (hx : x < e) (hf : x + f x = e) (hg : g x = 0) : Linked {x} e f g where
  lt y hy := by
    obtain rfl := Finset.mem_singleton.mp hy
    exact hx
  next y hy := by
    obtain rfl := Finset.mem_singleton.mp hy
    refine ⟨⟨by omega, fun z hz => .inl ?_⟩, .inr hf⟩
    exact (Finset.mem_singleton.mp hz).le
  prev y hy z hz hgap := by
    obtain rfl := Finset.mem_singleton.mp hy
    obtain rfl := Finset.mem_singleton.mp hz
    exact absurd hgap.1 (lt_irrefl _)
  first y hy _ := by
    obtain rfl := Finset.mem_singleton.mp hy
    exact hg

/-- A new node `x` below `n`, with the fields of its two neighbours set to it. -/
theorem insert (h : Linked S e f g) (hx : x ∉ S) (hgap : Gap S x n) (hn : n ∈ S ∨ n = e)
    (hfx : x + f' x = n) (hgn : n ∈ S → x + g' n = n)
    (hp : ∀ p ∈ S, Gap S p x → p + f' p = x ∧ p + g' x = x)
    (hfirst : (∀ y ∈ S, x ≤ y) → g' x = 0)
    (hf : ∀ z ∈ S, ¬ Gap S z x → f' z = f z) (hg : ∀ z ∈ S, z ≠ n → g' z = g z) :
    Linked (Insert.insert x S) e f' g' where
  lt z hz := by
    rcases Finset.mem_insert.mp hz with rfl | hz
    · rcases hn with hn | rfl
      · exact hgap.1.trans (h.lt n hn)
      · exact hgap.1
    · exact h.lt z hz
  next z hz := by
    rcases Finset.mem_insert.mp hz with rfl | hz
    · rw [hfx]
      refine ⟨⟨hgap.1, ?_⟩, hn.imp_left (Finset.mem_insert_of_mem ·)⟩
      intro w hw
      rcases Finset.mem_insert.mp hw with rfl | hw
      · exact .inl le_rfl
      · exact hgap.2 w hw
    by_cases hzx : Gap S z x
    · rw [(hp z hz hzx).1]
      refine ⟨⟨hzx.1, ?_⟩, .inl (Finset.mem_insert_self _ _)⟩
      intro w hw
      rcases Finset.mem_insert.mp hw with rfl | hw
      · exact .inr le_rfl
      · exact hzx.2 w hw
    · rw [hf z hz hzx]
      obtain ⟨hzg, hzs⟩ := h.next z hz
      refine ⟨⟨hzg.1, ?_⟩, hzs.imp_left (Finset.mem_insert_of_mem ·)⟩
      intro w hw
      rcases Finset.mem_insert.mp hw with rfl | hw
      · -- otherwise `w` would have been right above `z`
        by_contra hne
        rw [not_or, not_le, not_le] at hne
        refine hzx ⟨hne.1, fun v hv => ?_⟩
        have := hzg.2 v hv
        omega
      · exact hzg.2 w hw
  prev z hz w hw hzw := by
    have hold : Gap S z w := hzw.mono fun v hv => Finset.mem_insert_of_mem hv
    have hxzw := hzw.2 x (Finset.mem_insert_self _ _)
    rcases Finset.mem_insert.mp hz with rfl | hz'
    · rcases Finset.mem_insert.mp hw with rfl | hw'
      · exact absurd hzw.1 (lt_irrefl _)
      have hwn : w = n := by
        have hle := hgap.2 w hw'
        have hlt := hzw.1
        rcases hn with hn | rfl
        · have := hold.2 n hn
          have := hgap.1
          omega
        · have := h.lt w hw'
          omega
      subst hwn
      exact hgn hw'
    · rcases Finset.mem_insert.mp hw with rfl | hw'
      · exact (hp z hz' hold).2
      have hne : z ≠ x := fun he => hx (he ▸ hz')
      have hwn : w ≠ n := by
        rintro rfl
        have := hgap.2 z hz'
        have := hgap.1
        have := hzw.1
        omega
      rw [hg w hw' hwn]
      exact h.prev z hz' w hw' hold
  first z hz hmin := by
    rcases Finset.mem_insert.mp hz with rfl | hz
    · exact hfirst fun y hy => hmin y (Finset.mem_insert_of_mem hy)
    have hzx : z ≤ x := hmin x (Finset.mem_insert_self _ _)
    have hzn : z ≠ n := by
      rintro rfl
      have := hgap.1
      omega
    rw [hg z hz hzn]
    exact h.first z hz fun y hy => hmin y (Finset.mem_insert_of_mem hy)

/-- A node `x` leaves; the fields of its neighbours `p` and `n` reach over it. -/
theorem erase (h : Linked S e f g) (hx : x ∈ S) (hn : x + f x = n)
    (hp : ∀ p ∈ S, Gap S p x → p + f' p = n ∧ (n ∈ S → p + g' n = n))
    (hfirst : (∀ y ∈ S, x ≤ y) → n ∈ S → g' n = 0)
    (hf : ∀ z ∈ S, z ≠ x → ¬ Gap S z x → f' z = f z)
    (hg : ∀ z ∈ S, z ≠ x → z ≠ n → g' z = g z) :
    Linked (S.erase x) e f' g' := by
  obtain ⟨hgap, hs⟩ := h.next x hx
  rw [hn] at hgap hs
  -- a gap of the smaller set that has lost `x` is made of the two gaps around `x`
  have hsub : ∀ z ∈ S.erase x, z ∈ S := fun z hz => Finset.mem_of_mem_erase hz
  have hgrow : ∀ {a b : ℕ}, Gap (S.erase x) a b → (x ≤ a ∨ b ≤ x) → Gap S a b := by
    intro a b hab hxab
    refine ⟨hab.1, fun z hz => ?_⟩
    by_cases hzx : z = x
    · subst hzx
      exact hxab
    · exact hab.2 z (Finset.mem_erase.mpr ⟨hzx, hz⟩)
  refine ⟨fun z hz => h.lt z (hsub z hz), ?_, ?_, ?_⟩
  · intro z hz
    obtain ⟨hzx, hz'⟩ := Finset.mem_erase.mp hz
    by_cases hzg : Gap S z x
    · rw [(hp z hz' hzg).1]
      refine ⟨⟨hzg.1.trans hgap.1, fun w hw => ?_⟩, ?_⟩
      · have h₁ := hzg.2 w (hsub w hw)
        have h₂ := hgap.2 w (hsub w hw)
        have h₃ := (Finset.mem_erase.mp hw).1
        omega
      · refine hs.imp_left fun hns => Finset.mem_erase.mpr ⟨?_, hns⟩
        exact hgap.1.ne'
    · rw [hf z hz' hzx hzg]
      obtain ⟨hg₁, hs₁⟩ := h.next z hz'
      refine ⟨hg₁.mono hsub, hs₁.imp_left fun hm => Finset.mem_erase.mpr ⟨?_, hm⟩⟩
      intro he
      rw [he] at hg₁
      exact hzg hg₁
  · intro z hz w hw hzw
    obtain ⟨hzx, hz'⟩ := Finset.mem_erase.mp hz
    obtain ⟨hwx, hw'⟩ := Finset.mem_erase.mp hw
    by_cases hin : x ≤ z ∨ w ≤ x
    · have hold := hgrow hzw hin
      have hwn : w ≠ n := by
        rintro rfl
        exact hzx (hold.lower_unique hz' hx hgap)
      rw [hg w hw' hwx hwn]
      exact h.prev z hz' w hw' hold
    · rw [not_or, not_le, not_le] at hin
      have hzg : Gap S z x := by
        refine ⟨hin.1, fun v hv => ?_⟩
        by_cases hvx : v = x
        · exact .inr hvx.ge
        · have := hzw.2 v (Finset.mem_erase.mpr ⟨hvx, hv⟩)
          omega
      have hwn : w = n := by
        have h₁ := hgap.2 w hw'
        rcases hs with hs | rfl
        · have h₂ := hzw.2 n (Finset.mem_erase.mpr ⟨hgap.1.ne', hs⟩)
          have h₃ := hgap.1
          omega
        · have := h.lt w hw'
          omega
      subst hwn
      exact (hp z hz' hzg).2 hw'
  · intro z hz hmin
    obtain ⟨hzx, hz'⟩ := Finset.mem_erase.mp hz
    by_cases hlt : x < z
    · have hxmin : ∀ y ∈ S, x ≤ y := by
        intro y hy
        by_cases hyx : y = x
        · exact hyx.ge
        · exact hlt.le.trans (hmin y (Finset.mem_erase.mpr ⟨hyx, hy⟩))
      have hzn : z = n := by
        have h₁ := hgap.2 z hz'
        rcases hs with hs | rfl
        · have h₂ := hmin n (Finset.mem_erase.mpr ⟨hgap.1.ne', hs⟩)
          omega
        · have := h.lt z hz'
          omega
      subst hzn
      exact hfirst hxmin hz'
    · have hzn : z ≠ n := by
        rintro rfl
        exact hlt hgap.1
      rw [hg z hz' hzx hzn]
      refine h.first z hz' fun y hy => ?_
      by_cases hyx : y = x
      · omega
      · exact hmin y (Finset.mem_erase.mpr ⟨hyx, hy⟩)

/-- A node `b + d` cut off the stretch that belonged to `b`. -/
theorem cut {b d : ℕ} (h : Linked S e f g) (hb : b ∈ S) (hn : b + f b = n) (h0 : 0 < d)
    (hd : d < f b) (hfb : f' b = d) (hfd : f' (b + d) = f b - d) (hgd : g' (b + d) = d)
    (hgn : n ∈ S → g' n = g n - d) (hf : ∀ z ∈ S, z ≠ b → f' z = f z)
    (hg : ∀ z ∈ S, z ≠ n → g' z = g z) : Linked (Insert.insert (b + d) S) e f' g' := by
  obtain ⟨hgap, hs⟩ := h.next b hb
  rw [hn] at hgap hs
  have hbd : Gap S b (b + d) := ⟨by omega, fun z hz => by have := hgap.2 z hz; omega⟩
  have hdn : Gap S (b + d) n := ⟨by omega, fun z hz => by have := hgap.2 z hz; omega⟩
  refine h.insert ?_ hdn hs (by omega) ?_ ?_ ?_ ?_ hg
  · intro hmem
    have := hgap.2 _ hmem
    omega
  · intro hns
    have hback := h.prev b hb n hns hgap
    rw [hgn hns]
    omega
  · intro p hp hgp
    obtain rfl := hgp.lower_unique hp hb hbd
    exact ⟨by rw [hfb], by rw [hgd]⟩
  · intro hmin
    have := hmin b hb
    omega
  · intro z hz hzg
    apply hf z hz
    rintro rfl
    exact hzg hbd

/-- A node `n` right above `b` whose stretch is given to `b`. -/
theorem join {b nn : ℕ} (h : Linked S e f g) (hb : b ∈ S) (hn : n ∈ S) (hbn : b + f b = n)
    (hnn : n + f n = nn) (hfb : f' b = f b + f n) (hgn : nn ∈ S → g' nn = g nn + f b)
    (hf : ∀ z ∈ S, z ≠ b → f' z = f z) (hg : ∀ z ∈ S, z ≠ nn → g' z = g z) :
    Linked (S.erase n) e f' g' := by
  obtain ⟨hgap, _⟩ := h.next b hb
  rw [hbn] at hgap
  obtain ⟨hgap', _⟩ := h.next n hn
  rw [hnn] at hgap'
  refine h.erase hn hnn ?_ ?_ ?_ fun z hz _ hzn => hg z hz hzn
  · intro p hp hpn
    obtain rfl := hpn.lower_unique hp hb hgap
    refine ⟨by omega, fun hs => ?_⟩
    have hback := h.prev n hn nn hs hgap'
    rw [hgn hs]
    omega
  · intro hmin
    have := hmin b hb
    have := hgap.1
    omega
  · intro z hz _ hzg
    apply hf z hz
    rintro rfl
    exact hzg hgap

/-- The first node leaves and the next one becomes first. -/
theorem dropFirst (h : Linked S e f g) (hx : x ∈ S) (hmin : ∀ y ∈ S, x ≤ y) (hn : x + f x = n)
    (hgn : n ∈ S → g' n = 0) (hf : ∀ z ∈ S, f' z = f z) (hg : ∀ z ∈ S, z ≠ n → g' z = g z) :
    Linked (S.erase x) e f' g' := by
  refine h.erase hx hn ?_ (fun _ => hgn) (fun z hz _ _ => hf z hz) fun z hz _ hzn => hg z hz hzn
  intro p hp hpx
  have := hmin p hp
  have := hpx.1
  omega

end Linked

end LinkedSet
