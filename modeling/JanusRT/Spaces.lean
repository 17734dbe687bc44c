import JanusRT.IdealHeap

/-!
# Address spaces side by side

Any number of roots that share one allocator, with mapping calls on each of them in any order
and for any arguments. Which pages were taken for a root is recorded next to it: the walk that
releases the tables sees only descriptors, and must find these pages and no others.
-/
namespace JanusRT
open RadixTree Outcome

/-! ## Calls on several roots -/

/-- The memory, the roots that are in use, each with the pages taken for it, and the blocks
that are out for other purposes. -/
structure Spaces where
  mem : IdealMem
  roots : List (PtRoot × List ℕ)
  blocks : List ℕ

/-- A call. Roots and blocks are named by their position. -/
inductive SpaceCall
  | ptRootNew
  | mapPage (i va pa attrs : ℕ)
  | mapRangePages (i va pa len attrs : ℕ)
  | ptRootFree (i : ℕ)
  | alloc (len : ℕ)
  | free (i : ℕ)
  deriving DecidableEq, Repr

def spacesInit (table : ℕ → ℕ → ℕ) : Spaces := ⟨⟨[], table⟩, [], []⟩

section Calls
variable (place : List HeapCall → ℕ → ℕ → ℕ) (ignoresNull : Bool)

/-- A mapping call on one root. -/
def onRoot (s : Spaces) (i : ℕ) (f : (List ℕ → ℕ) → PageMem → PtRoot → Except Halt PageMem) :
    Except Halt Spaces :=
  match s.roots[i]? with
  | none => pure s
  | some (r, ps) => do
    let m ← f (idealPick place s.mem.hist) ⟨s.mem.table, []⟩ r
    pure { s with
      mem := ⟨pageCalls m.pages s.mem.hist, m.table⟩
      roots := s.roots.set i (r, m.pages ++ ps) }

def spaceCall (s : Spaces) : SpaceCall → Except Halt Spaces
  | .ptRootNew => do
    let r ← ptRootNew (idealPick place s.mem.hist) ⟨s.mem.table, []⟩
    pure { s with
      mem := ⟨pageCalls r.2.pages s.mem.hist, r.2.table⟩
      roots := s.roots ++ [(r.1, r.2.pages)] }
  | .mapPage i va pa attrs => onRoot place s i fun pick m r => mapPage pick m r va pa attrs
  | .mapRangePages i va pa len attrs =>
    onRoot place s i fun pick m r => mapRangePages pick m r va pa len attrs
  | .ptRootFree i =>
    match s.roots[i]? with
    | none => pure s
    | some (r, _) => do
      let m ← ptRootFree ignoresNull s.mem r
      pure { s with mem := m, roots := s.roots.eraseIdx i }
  | .alloc len => do
    let r ← idealAlloc place s.mem len
    pure { s with mem := r.2, blocks := if r.1 = 0 then s.blocks else s.blocks ++ [r.1] }
  | .free i =>
    match s.blocks[i]? with
    | none => pure s
    | some p => do
      let m ← idealFree ignoresNull s.mem p
      pure { s with mem := m, blocks := s.blocks.eraseIdx i }

def spacesRun (s : Spaces) (cs : List SpaceCall) : Except Halt Spaces :=
  cs.foldlM (spaceCall place ignoresNull) s

end Calls

/-- The translation of a root of the ideal memory. -/
def IdealMem.walk (m : IdealMem) (root va : ℕ) : Option (ℕ × ℕ) := JanusRT.walk ⟨m.table, []⟩ root va

/-! ## The invariant -/

/-- Everything that somebody owns. -/
def Spaces.owned (s : Spaces) : List ℕ := s.roots.flatMap Prod.snd ++ s.blocks

structure SpacesInv (s : Spaces) : Prop where
  rooted : ∀ x ∈ s.roots, Rooted s.mem.table x.1.l0 x.2
  nodup : s.owned.Nodup
  live : ∀ a ∈ s.owned, a ≠ 0 ∧ a ∈ livePtrs s.mem.hist

theorem Rooted.congr {table table' : ℕ → ℕ → ℕ} {root : ℕ} {ps : List ℕ} (h : Rooted table root ps)
    (hagree : ∀ a ∈ ps, table' a = table a) : Rooted table' root ps := by
  refine ⟨h.tree.congr hagree, ?_⟩
  intro a ha
  obtain ⟨p, hp, hw, hd⟩ := mem_nodes.mp (h.covered a ha)
  exact mem_nodes.mpr ⟨p, hp, hw, (h.tree.descend_congr hagree p (by omega)).trans hd⟩

/-- The list around one of its elements, for updates at its position. -/
theorem split_at {α : Type} {l : List α} {i : ℕ} {x : α} (h : l[i]? = some x) :
    ∃ l₁ l₂, l = l₁ ++ x :: l₂ ∧ (∀ y, l.set i y = l₁ ++ y :: l₂) ∧ l.eraseIdx i = l₁ ++ l₂ := by
  obtain ⟨hi, rfl⟩ := List.getElem?_eq_some_iff.mp h
  refine ⟨l.take i, l.drop (i + 1), ?_, ?_, ?_⟩
  · rw [List.getElem_cons_drop, List.take_append_drop]
  · intro y
    rw [List.set_eq_take_append_cons_drop, if_pos hi]
  · exact List.eraseIdx_eq_take_drop_succ l i

/-- What one root owns, apart from the rest. -/
theorem flatMap_perm (l₁ l₂ : List (PtRoot × List ℕ)) (x : PtRoot × List ℕ) (bs : List ℕ) :
    ((l₁ ++ x :: l₂).flatMap Prod.snd ++ bs).Perm
      (x.2 ++ ((l₁ ++ l₂).flatMap Prod.snd ++ bs)) := by
  simp only [List.flatMap_append, List.flatMap_cons, List.append_assoc]
  exact List.perm_append_comm_assoc _ _ _

/-- The list of roots around one of them, and what the rest owns. -/
theorem Spaces.split {s : Spaces} {i : ℕ} {x : PtRoot × List ℕ} (hr : s.roots[i]? = some x) :
    ∃ l₁ l₂, (∀ y, s.roots.set i y = l₁ ++ y :: l₂) ∧ s.roots.eraseIdx i = l₁ ++ l₂ ∧
      s.owned.Perm (x.2 ++ ((l₁ ++ l₂).flatMap Prod.snd ++ s.blocks)) ∧
      ∀ y ∈ l₁ ++ l₂, y ∈ s.roots := by
  obtain ⟨l₁, l₂, hs, hset, herase⟩ := split_at hr
  refine ⟨l₁, l₂, hset, herase, ?_, ?_⟩
  · rw [Spaces.owned, hs]
    exact flatMap_perm _ _ _ _
  · intro y hy
    rw [hs]
    simp only [List.mem_append, List.mem_cons] at hy ⊢
    exact hy.imp_right Or.inr

namespace SpacesInv
variable {place : List HeapCall → ℕ → ℕ → ℕ} {ignoresNull : Bool} {s : Spaces} {i : ℕ} {r : PtRoot}
  {ps : List ℕ}

theorem init (table : ℕ → ℕ → ℕ) : SpacesInv (spacesInit table) where
  rooted _ hx := absurd hx List.not_mem_nil
  nodup := List.nodup_nil
  live _ ha := absurd ha List.not_mem_nil

theorem mem_owned (h : s.roots[i]? = some (r, ps)) {a : ℕ} (ha : a ∈ ps) : a ∈ s.owned :=
  List.mem_append_left _ (List.mem_flatMap.mpr ⟨_, List.mem_of_getElem? h, ha⟩)

/-- The tables of a root before a mapping call on it. -/
theorem start (h : SpacesInv s) (hr : s.roots[i]? = some (r, ps)) :
    Extended s.mem.hist ps s.mem.table r.l0 ⟨s.mem.table, []⟩ := by
  obtain ⟨htree, hcovered⟩ := h.rooted _ (List.mem_of_getElem? hr)
  refine ⟨htree, ?_, by simp, ?_, hcovered, fun _ _ => rfl⟩
  · obtain ⟨l₁, l₂, -, -, howned, -⟩ := Spaces.split hr
    exact (List.nodup_append.mp (howned.nodup_iff.mp h.nodup)).1
  · intro a ha
    exact (h.live a (mem_owned hr ha)).2

/-- Fresh pages for one owner leave the others as they are. -/
theorem extend (h : SpacesInv s) {l₁ l₂ : List (PtRoot × List ℕ)} {m : PageMem}
    (hroots : s.owned.Perm (ps ++ ((l₁ ++ l₂).flatMap Prod.snd ++ s.blocks)))
    (hmem : ∀ x ∈ l₁ ++ l₂, x ∈ s.roots) (hm : Extended s.mem.hist ps s.mem.table r.l0 m) :
    SpacesInv { s with
      mem := ⟨pageCalls m.pages s.mem.hist, m.table⟩
      roots := l₁ ++ (r, m.pages ++ ps) :: l₂ } := by
  have hnd := hroots.nodup_iff.mp h.nodup
  have hperm := flatMap_perm l₁ l₂ (r, m.pages ++ ps) s.blocks
  have hlive : ∀ a ∈ ps ++ ((l₁ ++ l₂).flatMap Prod.snd ++ s.blocks),
      a ≠ 0 ∧ a ∈ livePtrs s.mem.hist := fun a ha => h.live a (hroots.mem_iff.mpr ha)
  refine ⟨?_, ?_, ?_⟩
  · intro x hx
    have hx' : x = (r, m.pages ++ ps) ∨ x ∈ l₁ ++ l₂ := by
      simpa [or_left_comm] using hx
    obtain rfl | hx := hx'
    · exact ⟨hm.tree, hm.covered⟩
    · apply (h.rooted x (hmem x hx)).congr
      intro a ha
      have hrest : a ∈ (l₁ ++ l₂).flatMap Prod.snd ++ s.blocks :=
        List.mem_append_left _ (List.mem_flatMap.mpr ⟨x, hx, ha⟩)
      apply hm.frame a
      rw [List.mem_append, not_or]
      refine ⟨?_, ?_⟩
      · intro hnew
        exact (hm.fresh a hnew).2 (hlive a (List.mem_append_right _ hrest)).2
      · intro hps
        exact (List.nodup_append.mp hnd).2.2 a hps a hrest rfl
  · rw [Spaces.owned, hperm.nodup_iff, List.append_assoc, List.nodup_append]
    refine ⟨(List.nodup_append.mp hm.nodup).1, hnd, ?_⟩
    rintro a ha _ hb rfl
    exact (hm.fresh a ha).2 (hlive a hb).2
  · intro a ha
    have ha' := hperm.mem_iff.mp ha
    rw [List.append_assoc, List.mem_append] at ha'
    obtain hnew | hold := ha'
    · exact ⟨(hm.fresh a hnew).1, mem_livePtrs_pageCalls (Or.inl hnew) (hm.fresh a hnew).1⟩
    · obtain ⟨hz, hin⟩ := hlive a hold
      exact ⟨hz, mem_livePtrs_pageCalls (Or.inr hin) hz⟩

theorem onRoot (h : SpacesInv s) (i : ℕ)
    {f : (List ℕ → ℕ) → PageMem → PtRoot → Except Halt PageMem}
    (hf : ∀ r ps, Extended s.mem.hist ps s.mem.table r.l0 ⟨s.mem.table, []⟩ →
      Holds Lawful (Extended s.mem.hist ps s.mem.table r.l0)
        (f (idealPick place s.mem.hist) ⟨s.mem.table, []⟩ r)) :
    Holds Lawful SpacesInv (onRoot place s i f) := by
  unfold JanusRT.onRoot
  cases hr : s.roots[i]? with
  | none => exact h
  | some x =>
    obtain ⟨r, ps⟩ := x
    apply (hf r ps (h.start hr)).bind
    intro m hm
    obtain ⟨l₁, l₂, hset, -, howned, hmem⟩ := Spaces.split hr
    rw [hset]
    exact h.extend howned hmem hm

theorem ptRootNew (hp : IdealAlloc place) (h : SpacesInv s) :
    Holds Lawful SpacesInv (spaceCall place ignoresNull s .ptRootNew) := by
  unfold spaceCall
  apply (ptRootNew_extended hp s.mem.table).bind
  rintro ⟨r, m⟩ hm
  have howned : s.owned.Perm ([] ++ ((s.roots ++ []).flatMap Prod.snd ++ s.blocks)) := by
    rw [List.append_nil]
    exact List.Perm.rfl
  have hnew := h.extend howned (by simp) hm
  rw [List.append_nil] at hnew
  exact hnew

/-- `pt_root_free` returns the pages of its root and nothing else. -/
theorem release (h : SpacesInv s) (ignoresNull : Bool) (hr : s.roots[i]? = some (r, ps)) :
    ∃ m freed, JanusRT.ptRootFree ignoresNull s.mem r = .ok m ∧ Freed s.mem m freed ∧
      freed.Perm ps := by
  have hnodup := (h.start hr).nodup
  have hperm := (h.rooted _ (List.mem_of_getElem? hr)).perm hnodup
  have hret : Returnable s.mem (tablePages s.mem.table 3 r.l0) := by
    refine ⟨hperm.nodup_iff.mpr hnodup, ?_⟩
    intro a ha
    exact h.live a (mem_owned hr (hperm.mem_iff.mp ha))
  have hspec : ∃ m, JanusRT.ptRootFree ignoresNull s.mem r = .ok m ∧
      Freed s.mem m (tablePages s.mem.table 3 r.l0) := ptRootFree_spec hret
  obtain ⟨m, hok, hfreed⟩ := hspec
  exact ⟨m, _, hok, hfreed, hperm⟩

/-- After the blocks `ps` were returned, the other owners still have what they had. -/
theorem shrink (h : SpacesInv s) {m : IdealMem} {freed bs : List ℕ}
    {roots : List (PtRoot × List ℕ)}
    (howned : s.owned.Perm (ps ++ (roots.flatMap Prod.snd ++ bs)))
    (hmem : ∀ x ∈ roots, x ∈ s.roots) (hm : Freed s.mem m freed) (hperm : freed.Perm ps) :
    SpacesInv ⟨m, roots, bs⟩ := by
  have hnd := howned.nodup_iff.mp h.nodup
  have hapart : ∀ a ∈ roots.flatMap Prod.snd ++ bs, a ∉ freed := by
    intro a ha hf
    exact (List.nodup_append.mp hnd).2.2 a (hperm.mem_iff.mp hf) a ha rfl
  refine ⟨?_, (List.nodup_append.mp hnd).2.1, ?_⟩
  · intro x hx
    apply (h.rooted x (hmem x hx)).congr
    intro a ha
    exact hm.frame a (hapart a (List.mem_append_left _ (List.mem_flatMap.mpr ⟨x, hx, ha⟩)))
  · intro a ha
    obtain ⟨hz, hin⟩ := h.live a (howned.mem_iff.mpr (List.mem_append_right _ ha))
    refine ⟨hz, ?_⟩
    rw [hm.hist, livePtrs_frees, List.mem_filter, decide_eq_true_eq]
    exact ⟨hin, hapart a ha⟩

theorem ptRootFree (h : SpacesInv s) (place : List HeapCall → ℕ → ℕ → ℕ) (ignoresNull : Bool)
    (i : ℕ) :
    ∃ s', spaceCall place ignoresNull s (.ptRootFree i) = .ok s' ∧ SpacesInv s' := by
  rw [JanusRT.spaceCall]
  cases hr : s.roots[i]? with
  | none => exact ⟨s, rfl, h⟩
  | some x =>
    obtain ⟨r, ps⟩ := x
    obtain ⟨m, freed, hok, hm, hperm⟩ := h.release ignoresNull hr
    obtain ⟨l₁, l₂, -, herase, howned, hmem⟩ := Spaces.split hr
    dsimp only
    rw [hok, herase]
    exact ⟨_, rfl, h.shrink howned hmem hm hperm⟩

theorem alloc (hp : IdealAlloc place) (h : SpacesInv s) (ignoresNull : Bool) (len : ℕ) :
    ∃ s', spaceCall place ignoresNull s (.alloc len) = .ok s' ∧ SpacesInv s' := by
  refine ⟨_, rfl, ?_⟩
  by_cases hz : place s.mem.hist len 1 = 0
  · refine ⟨h.rooted, ?_, ?_⟩
    · simpa [Spaces.owned, idealAlloc, hz] using h.nodup
    · simpa [Spaces.owned, idealAlloc, hz, livePtrs_alloc] using h.live
  · have hfresh : place s.mem.hist len 1 ∉ s.owned := fun ha => hp.not_mem hz (h.live _ ha).2
    have howned : (s.roots.flatMap Prod.snd ++ (s.blocks ++ [place s.mem.hist len 1])).Perm
        (place s.mem.hist len 1 :: s.owned) := by
      rw [← List.append_assoc]
      exact List.perm_append_singleton _ _
    refine ⟨h.rooted, ?_, ?_⟩
    · simp only [Spaces.owned, if_neg hz]
      rw [howned.nodup_iff, List.nodup_cons]
      exact ⟨hfresh, h.nodup⟩
    · intro a ha
      simp only [Spaces.owned, if_neg hz] at ha
      simp only [livePtrs_alloc, if_neg hz]
      obtain rfl | ha := List.mem_cons.mp (howned.mem_iff.mp ha)
      · exact ⟨hz, List.mem_cons_self⟩
      · exact ⟨(h.live a ha).1, List.mem_cons_of_mem _ (h.live a ha).2⟩

theorem free (h : SpacesInv s) (place : List HeapCall → ℕ → ℕ → ℕ) (ignoresNull : Bool) (i : ℕ) :
    ∃ s', spaceCall place ignoresNull s (.free i) = .ok s' ∧ SpacesInv s' := by
  rw [JanusRT.spaceCall]
  cases hb : s.blocks[i]? with
  | none => exact ⟨s, rfl, h⟩
  | some p =>
    obtain ⟨l₁, l₂, hs, -, herase⟩ := split_at hb
    obtain ⟨hz, hin⟩ := h.live p (List.mem_append_right _ (List.mem_of_getElem? hb))
    dsimp only
    rw [idealFree, if_neg hz, if_pos hin, herase]
    refine ⟨_, rfl, h.shrink ?_ (fun _ hx => hx) ?_ (List.Perm.refl [p])⟩
    · rw [Spaces.owned, hs, List.singleton_append, ← List.append_assoc, ← List.append_assoc]
      exact List.perm_middle
    · exact ⟨rfl, fun _ _ => rfl⟩

theorem spaceCall (hp : IdealAlloc place) (h : SpacesInv s) (c : SpaceCall) :
    Holds Lawful SpacesInv (spaceCall place ignoresNull s c) := by
  cases c with
  | ptRootNew => exact h.ptRootNew hp
  | mapPage i va pa attrs =>
    rw [JanusRT.spaceCall]
    apply h.onRoot i
    intro r ps hm
    exact (mapPage_extended hp hm va pa attrs).mono fun _ hm' => hm'.1
  | mapRangePages i va pa len attrs =>
    rw [JanusRT.spaceCall]
    apply h.onRoot i
    intro r ps hm
    exact mapRangePages_extended hp hm va pa len attrs
  | ptRootFree i =>
    obtain ⟨s', hok, hs'⟩ := h.ptRootFree place ignoresNull i
    rw [hok]
    exact hs'
  | alloc len =>
    obtain ⟨s', hok, hs'⟩ := h.alloc hp ignoresNull len
    rw [hok]
    exact hs'
  | free i =>
    obtain ⟨s', hok, hs'⟩ := h.free place ignoresNull i
    rw [hok]
    exact hs'

end SpacesInv

theorem spacesRun_inv {place : List HeapCall → ℕ → ℕ → ℕ} (hp : IdealAlloc place)
    (ignoresNull : Bool) (table : ℕ → ℕ → ℕ) (cs : List SpaceCall) :
    Holds Lawful SpacesInv (spacesRun place ignoresNull (spacesInit table) cs) :=
  Holds.foldlM (fun _ c hs => hs.spaceCall hp c) cs _ (SpacesInv.init table)

/-! ## Mapping a range -/

/-- What a mapping of `[va, va + len)` does to one root. -/
structure RangeMapped (m m' : IdealMem) (root va pa len attrs : ℕ) : Prop where
  mapped : ∀ x, va ≤ x → x < va + len → m'.walk root x = some (pa + (x - va), attrs)
  kept : ∀ x, x < 2 ^ 48 → (∀ y, va ≤ y → y < va + len → y / 4096 ≠ x / 4096) →
    m'.walk root x = m.walk root x
  tree : PathsApart nextTable m'.table 3 root

/-- From the rounded range of the loop to the range itself. -/
theorem rangeMapped_of_walks {m m' : IdealMem} {root va pa len attrs : ℕ} {own : List ℕ}
    (hlen : 1 ≤ len) (hpage : va % 4096 = pa % 4096) (hva : va + len ≤ 2 ^ 48 - 4096)
    (htree : Tree nextTable Inner 3 m'.table root own)
    (hwalk : ∀ x, x < 2 ^ 48 → m'.walk root x =
      if roundDown va ≤ x ∧ x < roundUp (va + len) then
        some (roundDown pa + (x - roundDown va), attrs)
      else m.walk root x) :
    RangeMapped m m' root va pa len attrs := by
  refine ⟨?_, ?_, htree.inj⟩
  · intro x hx hx'
    have hoff : roundDown pa + (x - roundDown va) = pa + (x - va) := by
      unfold roundDown
      omega
    rw [hwalk x (by omega), if_pos (by unfold roundUp roundDown; omega), hoff]
  · intro x hx hapart
    rw [hwalk x hx, if_neg]
    -- a page that meets the rounded range meets the range
    rintro ⟨hlo, hhi⟩
    unfold roundDown at hlo
    unfold roundUp at hhi
    obtain hin | hin := Nat.lt_or_ge x va
    · exact hapart va le_rfl (by omega) (by omega)
    · obtain hin' | hin' := Nat.lt_or_ge x (va + len)
      · exact hapart x hin hin' rfl
      · exact hapart (va + len - 1) (by omega) (by omega) (by omega)

/-- The number of pages a range meets. -/
def pageCount (va len : ℕ) : ℕ := (roundUp (va + len) - roundDown va) / 4096

/-- `map_range_pages` on any root that calls have built maps its range and keeps the rest,
unless one of the table pages it asks for is not there. -/
theorem mapRangePages_exact {place : List HeapCall → ℕ → ℕ → ℕ} (hp : IdealAlloc place)
    {ignoresNull : Bool} {table : ℕ → ℕ → ℕ} {cs : List SpaceCall} {s : Spaces}
    (hrun : spacesRun place ignoresNull (spacesInit table) cs = .ok s) {i : ℕ} {r : PtRoot}
    {ps : List ℕ} (hr : s.roots[i]? = some (r, ps)) {va pa len attrs : ℕ} (ha : GoodAttrs attrs)
    (hlen : 1 ≤ len) (hpage : va % 4096 = pa % 4096) (hva : va + len ≤ 2 ^ 48 - 4096)
    (hpa : pa + len ≤ 2 ^ 48 - 4096) :
    Holds (NoPage (idealPick place s.mem.hist) [] (3 * pageCount va len))
      (fun s' => RangeMapped s.mem s'.mem r.l0 va pa len attrs)
      (spaceCall place ignoresNull s (.mapRangePages i va pa len attrs)) := by
  have hs : SpacesInv s := (spacesRun_inv hp ignoresNull table cs).of_ok hrun
  have hva' : va + len ≤ 2 ^ 48 := by omega
  have hpa' : pa < 2 ^ 48 := by omega
  have hpend : roundDown pa + (roundUp (va + len) - roundDown va) ≤ 2 ^ 48 := by
    unfold roundUp roundDown
    omega
  have hcount : roundUp (va + len) = roundDown va + 4096 * pageCount va len := by
    unfold pageCount roundUp roundDown
    omega
  have hwalks := mapRangePages_walks hp (hs.start hr) ha hva' hpa' hpend
  have hallocs := mapRangePages_allocs (hp.pages s.mem.hist) ⟨s.mem.table, []⟩ r attrs hva' hpa'
    hcount
  rw [spaceCall, onRoot, hr]
  dsimp only
  cases hm : mapRangePages (idealPick place s.mem.hist) ⟨s.mem.table, []⟩ r va pa len attrs with
  | error e =>
    rw [hm] at hallocs
    exact hallocs
  | ok m =>
    rw [hm] at hwalks
    exact rangeMapped_of_walks hlen hpage hva hwalks.1.tree hwalks.2

/-- With the bump allocator a range is mapped while there is room for its tables. -/
theorem mapRangePages_bump (ignoresNull : Bool) {s : Spaces} {i : ℕ} {r : PtRoot} {ps : List ℕ}
    (hr : s.roots[i]? = some (r, ps)) {va pa len : ℕ} (attrs : ℕ) (hva : va + len ≤ 2 ^ 48)
    (hpa : pa < 2 ^ 48)
    (hroom : heapTop s.mem.hist + 8192 * (3 * pageCount va len + 1) < 2 ^ 48) :
    ∃ s' ps', spaceCall bumpPlace ignoresNull s (.mapRangePages i va pa len attrs) = .ok s' ∧
      s'.roots[i]? = some (r, ps') := by
  have hcount : roundUp (va + len) = roundDown va + 4096 * pageCount va len := by
    unfold pageCount roundUp roundDown
    omega
  have hallocs := mapRangePages_allocs (bumpPlace_ideal.pages s.mem.hist) ⟨s.mem.table, []⟩ r attrs
    hva hpa hcount
  rw [spaceCall, onRoot, hr]
  dsimp only
  cases hm : mapRangePages (idealPick bumpPlace s.mem.hist) ⟨s.mem.table, []⟩ r va pa len attrs with
  | error e =>
    rw [hm] at hallocs
    exact absurd hallocs (bumpPlace_pages hroom e)
  | ok m =>
    refine ⟨_, m.pages ++ ps, rfl, ?_⟩
    have hi := (List.getElem?_eq_some_iff.mp hr).1
    rw [List.getElem?_set_self hi]

/-- A first root from the bump allocator. -/
def firstRoot : Spaces :=
  ⟨⟨[.alloc pageSize pageSize 0x51801000],
    Function.update (fun _ _ => 0) 0x51801000 fun _ => 0⟩, [(⟨0x51801000, 0x51801000⟩, [0x51801000])], []⟩

theorem firstRoot_run (ignoresNull : Bool) :
    spacesRun bumpPlace ignoresNull (spacesInit fun _ _ => 0) [.ptRootNew] = .ok firstRoot := by
  have hpick : idealPick bumpPlace [] [] = 0x51801000 := by
    unfold idealPick bumpPlace
    decide
  have hpage : (0x51801000 &&& (pageSize - 1) : ℕ) = 0 := by decide
  simp [spacesRun, spacesInit, spaceCall, ptRootNew, ptAllocPageOrDie, hpick, hpage, firstRoot,
    pageCalls]

/-- Two pages that do not start at a page boundary. -/
theorem mapRangePages_exact_two :
    ∃ s', spaceCall bumpPlace true firstRoot
        (.mapRangePages 0 0x1004 0x50100004 5000 pteProcRwx) = .ok s' ∧
      s'.mem.walk 0x51801000 0x1010 = some (0x50100010, pteProcRwx) := by
  have hexact := mapRangePages_exact bumpPlace_ideal (firstRoot_run true)
    (show firstRoot.roots[0]? = some (⟨0x51801000, 0x51801000⟩, [0x51801000]) from rfl) goodAttrs_proc
    (show 1 ≤ 5000 by decide) (show 0x1004 % 4096 = 0x50100004 % 4096 by decide) (by decide)
    (by decide)
  have hroom : heapTop firstRoot.mem.hist + 8192 * (3 * pageCount 0x1004 5000 + 1) < 2 ^ 48 := by
    decide
  cases hcall : spaceCall bumpPlace true firstRoot
      (.mapRangePages 0 0x1004 0x50100004 5000 pteProcRwx) with
  | error e =>
    rw [hcall] at hexact
    exact absurd hexact (bumpPlace_pages hroom e)
  | ok s' =>
    rw [hcall] at hexact
    exact ⟨s', rfl, hexact.mapped 0x1010 (by decide) (by decide)⟩

/-! ## Releasing a root -/

/-- `pt_root_free` frees each page taken for its root once, and nothing else. -/
theorem ptRootFree_exact {place : List HeapCall → ℕ → ℕ → ℕ} (hp : IdealAlloc place)
    {ignoresNull : Bool} {table : ℕ → ℕ → ℕ} {cs : List SpaceCall} {s : Spaces}
    (hrun : spacesRun place ignoresNull (spacesInit table) cs = .ok s) {i : ℕ} {r : PtRoot}
    {ps : List ℕ} (hr : s.roots[i]? = some (r, ps)) :
    ∃ m freed, ptRootFree ignoresNull s.mem r = .ok m ∧ m.hist = frees freed s.mem.hist ∧
      freed.Perm ps ∧ freed.Nodup ∧
      (∀ j x, j ≠ i → s.roots[j]? = some x → ∀ a ∈ x.2, a ∉ freed) ∧
      ∀ a ∈ s.blocks, a ∉ freed := by
  have hs : SpacesInv s := (spacesRun_inv hp ignoresNull table cs).of_ok hrun
  obtain ⟨m, freed, hok, hm, hperm⟩ := hs.release ignoresNull hr
  obtain ⟨hroots, -, hblocks⟩ := List.nodup_append.mp hs.nodup
  have hpair := List.pairwise_iff_getElem.mp (List.nodup_flatMap.mp hroots).2
  obtain ⟨hi, hri⟩ := List.getElem?_eq_some_iff.mp hr
  refine ⟨m, freed, hok, hm.hist, hperm, hperm.nodup_iff.mpr (hs.start hr).nodup, ?_, ?_⟩
  · intro j x hj hx a ha hfreed
    obtain ⟨hj', rfl⟩ := List.getElem?_eq_some_iff.mp hx
    have hps := hperm.mem_iff.mp hfreed
    obtain hlt | hlt := Nat.lt_or_gt_of_ne hj
    · have hdis := hpair j i hj' hi hlt
      rw [hri] at hdis
      exact hdis ha hps
    · have hdis := hpair i j hi hj' hlt
      rw [hri] at hdis
      exact hdis hps ha
  · intro a ha hfreed
    have hin : a ∈ s.roots.flatMap Prod.snd :=
      List.mem_flatMap.mpr ⟨(r, ps), List.mem_of_getElem? hr, hperm.mem_iff.mp hfreed⟩
    exact hblocks a hin a ha rfl

/-- A root with a page mapped below it. -/
theorem ptRootFree_exact_one :
    ∃ s ps m freed, spacesRun bumpPlace true (spacesInit fun _ _ => 0)
        [.ptRootNew, .mapRangePages 0 0x1000 0x50100000 4096 pteProcRwx] = .ok s ∧
      s.roots[0]? = some (⟨0x51801000, 0x51801000⟩, ps) ∧
      ptRootFree true s.mem ⟨0x51801000, 0x51801000⟩ = .ok m ∧
      m.hist = frees freed s.mem.hist ∧ freed.Perm ps := by
  obtain ⟨s, ps, hcall, hroot⟩ := mapRangePages_bump true
    (show firstRoot.roots[0]? = some (⟨0x51801000, 0x51801000⟩, [0x51801000]) from rfl) pteProcRwx
    (show 0x1000 + 4096 ≤ 2 ^ 48 by decide) (show 0x50100000 < 2 ^ 48 by decide) (by decide)
  have hrun : spacesRun bumpPlace true (spacesInit fun _ _ => 0)
      [.ptRootNew, .mapRangePages 0 0x1000 0x50100000 4096 pteProcRwx] = .ok s := by
    have hfirst := firstRoot_run true
    rw [spacesRun] at hfirst
    rw [spacesRun, ← List.singleton_append, List.foldlM_append, hfirst, ok_bind]
    simp only [List.foldlM_cons, List.foldlM_nil, hcall]
    rfl
  obtain ⟨m, freed, hok, hhist, hperm, -⟩ := ptRootFree_exact bumpPlace_ideal hrun hroot
  exact ⟨s, ps, m, freed, hrun, hroot, hok, hhist, hperm⟩

end JanusRT
