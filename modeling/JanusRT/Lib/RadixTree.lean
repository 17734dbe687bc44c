import Mathlib.Tactic

/-!
# Lazily grown radix trees in a store

A store maps a node name and an index to an entry, and `child` reads an entry as a
link. A path of indices from the root names a node. Two updates build every tree:
linking a fresh empty node below an existing one, and writing an entry of a node at
full depth. Because no node is named by two paths, each of them changes the meaning
of the tree in one place only.
-/
namespace RadixTree

variable {A E V : Type} [DecidableEq A] {child : E → Option A} {val : E → Option V}
  {good : E → Prop} {cell : A → ℕ → E} {root : A} {depth : ℕ} {own : List A}

/-- The node at the end of a path. -/
def descend (child : E → Option A) (cell : A → ℕ → E) : A → List ℕ → Option A
  | a, [] => some a
  | a, i :: is => (child (cell a i)).bind fun b => descend child cell b is

/-- The value stored under a path and a last index. -/
def find (child : E → Option A) (val : E → Option V) (cell : A → ℕ → E) (root : A) (p : List ℕ)
    (i : ℕ) : Option V :=
  (descend child cell root p).bind fun a => val (cell a i)

/-- Every path up to the depth names a node of its own, taken from `own`, and the
entries above full depth are `good`. -/
structure Tree (child : E → Option A) (good : E → Prop) (depth : ℕ) (cell : A → ℕ → E) (root : A)
    (own : List A) : Prop where
  inj : ∀ p q a, p.length ≤ depth → q.length ≤ depth → descend child cell root p = some a →
    descend child cell root q = some a → p = q
  mem : ∀ p a, p.length ≤ depth → descend child cell root p = some a → a ∈ own
  inner : ∀ p a i, p.length < depth → descend child cell root p = some a → good (cell a i)

omit [DecidableEq A] in
theorem descend_concat (a : A) (p : List ℕ) (i : ℕ) :
    descend child cell a (p ++ [i]) =
      (descend child cell a p).bind fun b => child (cell b i) := by
  induction p generalizing a with
  | nil => simp [descend]
  | cons j p ih =>
    simp only [List.cons_append, descend, Option.bind_assoc, ih]

/-- The store after entry `i` of node `a` was overwritten. -/
def write (cell : A → ℕ → E) (a : A) (i : ℕ) (e : E) : A → ℕ → E :=
  Function.update cell a (Function.update (cell a) i e)

theorem write_same (a : A) (i : ℕ) (e : E) : write cell a i e a i = e := by simp [write]

theorem write_ne {a x : A} {i j : ℕ} (e : E) (h : x ≠ a ∨ j ≠ i) :
    write cell a i e x j = cell x j := by
  unfold write
  by_cases hx : x = a
  · subst x
    have hj : j ≠ i := h.resolve_left (fun hne => hne rfl)
    rw [Function.update_self, Function.update_of_ne hj]
  · rw [Function.update_of_ne hx]

/-! ## A tree of one empty node -/

omit [DecidableEq A] in
theorem descend_empty {e : E} (he : child e = none) (hrow : ∀ i, cell root i = e) (p : List ℕ) :
    descend child cell root p = if p = [] then some root else none := by
  cases p with
  | nil => rfl
  | cons i p => simp [descend, hrow, he]

omit [DecidableEq A] in
theorem Tree.empty {e : E} (he : child e = none) (hg : good e) (hrow : ∀ i, cell root i = e) :
    Tree child good depth cell root [root] where
  inj p q a _ _ hp hq := by
    rw [descend_empty he hrow] at hp hq
    split_ifs at hp hq with h h'
    rw [h, h']
  mem p a _ hp := by
    rw [descend_empty he hrow] at hp
    split_ifs at hp
    obtain rfl := Option.some.inj hp
    exact List.mem_singleton_self _
  inner p a i _ hp := by
    rw [descend_empty he hrow] at hp
    split_ifs at hp
    obtain rfl := Option.some.inj hp
    rw [hrow]
    exact hg

omit [DecidableEq A] in
theorem find_empty {e : E} (he : child e = none) (hv : val e = none) (hrow : ∀ i, cell root i = e)
    (p : List ℕ) (i : ℕ) : find child val cell root p i = none := by
  rw [find, descend_empty he hrow]
  split_ifs
  · simp [hrow, hv]
  · rfl

namespace Tree

omit [DecidableEq A] in
theorem mono {own' : List A} (h : Tree child good depth cell root own) (hsub : ∀ a ∈ own, a ∈ own') :
    Tree child good depth cell root own' where
  inj := h.inj
  mem p a hp hd := hsub a (h.mem p a hp hd)
  inner := h.inner

/-! ## Writing below a node of full depth -/

/-- A write to a node of full depth moves no node. -/
theorem descend_write (h : Tree child good depth cell root own) {p : List ℕ} {a : A}
    (hlen : p.length = depth) (hp : descend child cell root p = some a) (i : ℕ) (e : E)
    (q : List ℕ) (hq : q.length ≤ depth) :
    descend child (write cell a i e) root q = descend child cell root q := by
  induction q using List.reverseRecOn with
  | nil => rfl
  | append_singleton q j ih =>
    rw [List.length_append, List.length_singleton] at hq
    rw [descend_concat, descend_concat, ih (by omega)]
    cases hx : descend child cell root q with
    | none => rfl
    | some x =>
      have hne : x ≠ a := by
        rintro rfl
        have := congrArg List.length (h.inj q p x (by omega) hlen.le hx hp)
        omega
      simp only [Option.bind_some, write_ne e (Or.inl hne)]

theorem write_leaf (h : Tree child good depth cell root own) {p : List ℕ} {a : A}
    (hlen : p.length = depth) (hp : descend child cell root p = some a) (i : ℕ) (e : E) :
    Tree child good depth (write cell a i e) root own where
  inj q r x hq hr hdq hdr := by
    rw [h.descend_write hlen hp i e q hq] at hdq
    rw [h.descend_write hlen hp i e r hr] at hdr
    exact h.inj q r x hq hr hdq hdr
  mem q x hq hdq := by
    rw [h.descend_write hlen hp i e q hq] at hdq
    exact h.mem q x hq hdq
  inner q x j hq hdq := by
    rw [h.descend_write hlen hp i e q hq.le] at hdq
    have hne : x ≠ a := by
      rintro rfl
      have := congrArg List.length (h.inj q p x hq.le hlen.le hdq hp)
      omega
    rw [write_ne e (Or.inl hne)]
    exact h.inner q x j hq hdq

/-- It changes the value under its own path and index and no other. -/
theorem find_write (h : Tree child good depth cell root own) {p : List ℕ} {a : A}
    (hlen : p.length = depth) (hp : descend child cell root p = some a) (i : ℕ) (e : E)
    (q : List ℕ) (hq : q.length = depth) (j : ℕ) :
    find child val (write cell a i e) root q j =
      if q = p ∧ j = i then val e else find child val cell root q j := by
  rw [find, h.descend_write hlen hp i e q hq.le, find]
  split_ifs with he
  · rw [he.1, hp, he.2, Option.bind_some, write_same]
  · cases hx : descend child cell root q with
    | none => rfl
    | some x =>
      have hne : x ≠ a ∨ j ≠ i := by
        by_contra hboth
        simp only [not_or, not_not] at hboth
        rw [hboth.1] at hx
        exact he ⟨h.inj q p a hq.le hlen.le hx hp, hboth.2⟩
      rw [Option.bind_some, Option.bind_some, write_ne e hne]

/-! ## Linking a fresh node -/

/-- The store after the empty node `b` was linked as entry `i` of node `a`. -/
def link (cell : A → ℕ → E) (a : A) (i : ℕ) (b : A) (e₀ e : E) : A → ℕ → E :=
  write (Function.update cell b fun _ => e₀) a i e

theorem link_ne {a b x : A} {i j : ℕ} {e₀ e : E} (hb : x ≠ b) (h : x ≠ a ∨ j ≠ i) :
    link cell a i b e₀ e x j = cell x j := by
  rw [link, write_ne e h, Function.update_of_ne hb]

variable {e₀ e : E} {p : List ℕ} {a b : A} {i : ℕ}

/-- Linking adds exactly one path. -/
theorem descend_link (h : Tree child good depth cell root own) (he₀ : child e₀ = none)
    (he : child e = some b) (hlen : p.length < depth) (hp : descend child cell root p = some a)
    (hnone : child (cell a i) = none) (hfresh : b ∉ own) (q : List ℕ) (hq : q.length ≤ depth) :
    descend child (link cell a i b e₀ e) root q =
      if q = p ++ [i] then some b else descend child cell root q := by
  have hab : a ≠ b := fun hab => hfresh (hab ▸ h.mem p a hlen.le hp)
  induction q using List.reverseRecOn with
  | nil =>
    rw [if_neg (by simp)]
    rfl
  | append_singleton q j ih =>
    rw [List.length_append, List.length_singleton] at hq
    rw [descend_concat, descend_concat, ih (by omega)]
    by_cases hqp : q = p ++ [i]
    · -- below the new node everything is empty, before and after
      have hold : descend child cell root (p ++ [i]) = none := by
        rw [descend_concat, hp, Option.bind_some, hnone]
      have hrow : link cell a i b e₀ e b j = e₀ := by
        rw [link, write_ne e (Or.inl hab.symm), Function.update_self]
      have hlong : q ++ [j] ≠ p ++ [i] := by
        intro heq
        have := congrArg List.length heq
        rw [hqp] at this
        simp at this
      rw [if_pos hqp, if_neg hlong, hqp, hold, Option.bind_some, hrow, he₀]
      rfl
    · rw [if_neg hqp]
      cases hx : descend child cell root q with
      | none =>
        have hne : q ++ [j] ≠ p ++ [i] := by
          intro heq
          obtain ⟨rfl, _⟩ := List.append_inj' heq rfl
          rw [hp] at hx
          cases hx
        rw [if_neg hne]
        rfl
      | some x =>
        have hxb : x ≠ b := fun hxb => hfresh (hxb ▸ h.mem q x (by omega) hx)
        rw [Option.bind_some, Option.bind_some]
        by_cases hpi : q ++ [j] = p ++ [i]
        · obtain ⟨rfl, hji⟩ := List.append_inj' hpi rfl
          obtain rfl : a = x := Option.some.inj (hp.symm.trans hx)
          obtain rfl : j = i := by simpa using hji
          rw [if_pos rfl, link, write_same, he]
        · rw [if_neg hpi, link_ne hxb]
          by_contra hboth
          simp only [not_or, not_not] at hboth
          rw [hboth.1] at hx
          exact hpi (by rw [h.inj q p a (by omega) hlen.le hx hp, hboth.2])

theorem link_tree (h : Tree child good depth cell root own) (he₀ : child e₀ = none)
    (hg₀ : good e₀) (he : child e = some b) (hg : good e) (hlen : p.length < depth) (hp : descend child cell root p = some a)
    (hnone : child (cell a i) = none) (hfresh : b ∉ own) :
    Tree child good depth (link cell a i b e₀ e) root (b :: own) where
  inj q r x hq hr hdq hdr := by
    rw [h.descend_link he₀ he hlen hp hnone hfresh q hq] at hdq
    rw [h.descend_link he₀ he hlen hp hnone hfresh r hr] at hdr
    split_ifs at hdq hdr with hqp hrp hrp
    · rw [hqp, hrp]
    · obtain rfl := Option.some.inj hdq
      exact absurd (h.mem r b hr hdr) hfresh
    · obtain rfl := Option.some.inj hdr
      exact absurd (h.mem q b hq hdq) hfresh
    · exact h.inj q r x hq hr hdq hdr
  mem q x hq hdq := by
    rw [h.descend_link he₀ he hlen hp hnone hfresh q hq] at hdq
    split_ifs at hdq
    · obtain rfl := Option.some.inj hdq
      exact List.mem_cons_self
    · exact List.mem_cons_of_mem _ (h.mem q x hq hdq)
  inner q x j hq hdq := by
    have hab : a ≠ b := fun hab => hfresh (hab ▸ h.mem p a hlen.le hp)
    rw [h.descend_link he₀ he hlen hp hnone hfresh q hq.le] at hdq
    split_ifs at hdq
    · obtain rfl := Option.some.inj hdq
      rw [link, write_ne e (Or.inl hab.symm), Function.update_self]
      exact hg₀
    · have hxb : x ≠ b := fun hxb => hfresh (hxb ▸ h.mem q x hq.le hdq)
      by_cases hxa : x = a ∧ j = i
      · rw [hxa.1, hxa.2, link, write_same]
        exact hg
      · rw [link_ne hxb (not_and_or.mp hxa)]
        exact h.inner q x j hq hdq

/-- Linking an empty node changes no value. -/
theorem find_link (h : Tree child good depth cell root own) (he₀ : child e₀ = none)
    (hv : val e₀ = none) (he : child e = some b) (hlen : p.length < depth)
    (hp : descend child cell root p = some a) (hnone : child (cell a i) = none) (hfresh : b ∉ own)
    (q : List ℕ) (hq : q.length = depth) (j : ℕ) :
    find child val (link cell a i b e₀ e) root q j = find child val cell root q j := by
  have hab : a ≠ b := fun hab => hfresh (hab ▸ h.mem p a hlen.le hp)
  rw [find, h.descend_link he₀ he hlen hp hnone hfresh q hq.le, find]
  split_ifs with hqp
  · have hold : descend child cell root q = none := by
      rw [hqp, descend_concat, hp, Option.bind_some, hnone]
    have hrow : link cell a i b e₀ e b j = e₀ := by
      rw [link, write_ne e (Or.inl hab.symm), Function.update_self]
    rw [hold, Option.bind_some, hrow, hv]
    rfl
  · cases hx : descend child cell root q with
    | none => rfl
    | some x =>
      have hxb : x ≠ b := fun hxb => hfresh (hxb ▸ h.mem q x hq.le hx)
      have hxa : x ≠ a := by
        rintro rfl
        have := congrArg List.length (h.inj q p x hq.le hlen.le hx hp)
        omega
      rw [Option.bind_some, Option.bind_some, link_ne hxb (Or.inl hxa)]

/-! ## Frame -/

omit [DecidableEq A] in
/-- A store that agrees on the nodes of a tree holds the same tree. -/
theorem descend_congr (h : Tree child good depth cell root own) {cell' : A → ℕ → E}
    (hagree : ∀ a ∈ own, cell' a = cell a) (q : List ℕ) (hq : q.length ≤ depth + 1) :
    descend child cell' root q = descend child cell root q := by
  induction q using List.reverseRecOn with
  | nil => rfl
  | append_singleton q j ih =>
    rw [List.length_append, List.length_singleton] at hq
    rw [descend_concat, descend_concat, ih (by omega)]
    cases hx : descend child cell root q with
    | none => rfl
    | some x => simp only [Option.bind_some, hagree x (h.mem q x (by omega) hx)]

omit [DecidableEq A] in
theorem congr (h : Tree child good depth cell root own) {cell' : A → ℕ → E}
    (hagree : ∀ a ∈ own, cell' a = cell a) : Tree child good depth cell' root own where
  inj p q a hp hq hdp hdq := by
    rw [h.descend_congr hagree _ (by omega)] at hdp hdq
    exact h.inj p q a hp hq hdp hdq
  mem p a hp hd := by
    rw [h.descend_congr hagree _ (by omega)] at hd
    exact h.mem p a hp hd
  inner p a i hp hd := by
    rw [h.descend_congr hagree _ (by omega)] at hd
    rw [hagree a (h.mem p a hp.le hd)]
    exact h.inner p a i hp hd

omit [DecidableEq A] in
theorem find_congr (h : Tree child good depth cell root own) {cell' : A → ℕ → E}
    (hagree : ∀ a ∈ own, cell' a = cell a) (q : List ℕ) (hq : q.length ≤ depth) (j : ℕ) :
    find child val cell' root q j = find child val cell root q j := by
  rw [find, h.descend_congr hagree q (by omega), find]
  cases hx : descend child cell root q with
  | none => rfl
  | some x => simp only [Option.bind_some, hagree x (h.mem q x hq hx)]

end Tree

/-! ## The nodes of a tree -/

/-- The nodes down to the given depth, each after the nodes below it. Only the first
`width` entries of a node are looked at. -/
def nodes (child : E → Option A) (cell : A → ℕ → E) (width : ℕ) : ℕ → A → List A
  | 0, a => [a]
  | n + 1, a =>
    ((List.range width).flatMap fun i =>
      ((child (cell a i)).map (nodes child cell width n)).getD []) ++ [a]

/-- Each node is at the end of one path only. -/
def PathsApart (child : E → Option A) (cell : A → ℕ → E) (n : ℕ) (a : A) : Prop :=
  ∀ p q x, p.length ≤ n → q.length ≤ n → descend child cell a p = some x →
    descend child cell a q = some x → p = q

variable {width n : ℕ} {a b x : A}

omit [DecidableEq A] in
theorem mem_nodes : x ∈ nodes child cell width n a ↔
    ∃ p, p.length ≤ n ∧ (∀ i ∈ p, i < width) ∧ descend child cell a p = some x := by
  induction n generalizing a with
  | zero =>
    simp only [nodes, List.mem_singleton]
    constructor
    · rintro rfl
      exact ⟨[], le_rfl, by simp, rfl⟩
    · rintro ⟨p, hp, -, hd⟩
      obtain rfl := List.length_eq_zero_iff.mp (Nat.le_zero.mp hp)
      exact (Option.some.inj hd).symm
  | succ n ih =>
    simp only [nodes, List.mem_append, List.mem_flatMap, List.mem_range, List.mem_singleton]
    constructor
    · rintro (⟨i, hi, hx⟩ | rfl)
      · cases hc : child (cell a i) with
        | none =>
          rw [hc] at hx
          cases hx
        | some b =>
          rw [hc] at hx
          obtain ⟨p, hp, hw, hd⟩ := ih.mp hx
          refine ⟨i :: p, Nat.succ_le_succ hp, ?_, ?_⟩
          · intro j hj
            obtain rfl | hj := List.mem_cons.mp hj
            · exact hi
            · exact hw j hj
          · rw [descend, hc, Option.bind_some, hd]
      · exact ⟨[], Nat.zero_le _, by simp, rfl⟩
    · rintro ⟨p, hp, hw, hd⟩
      cases p with
      | nil => exact Or.inr (Option.some.inj hd).symm
      | cons i p =>
        left
        refine ⟨i, hw i List.mem_cons_self, ?_⟩
        rw [descend] at hd
        cases hc : child (cell a i) with
        | none =>
          rw [hc] at hd
          cases hd
        | some b =>
          rw [hc, Option.bind_some] at hd
          refine ih.mpr ⟨p, Nat.le_of_succ_le_succ hp, ?_, hd⟩
          intro j hj
          exact hw j (List.mem_cons_of_mem _ hj)

omit [DecidableEq A] in
theorem self_mem_nodes : a ∈ nodes child cell width n a :=
  mem_nodes.mpr ⟨[], Nat.zero_le _, by simp, rfl⟩

omit [DecidableEq A] in
theorem PathsApart.below (h : PathsApart child cell (n + 1) a) {i : ℕ}
    (hb : child (cell a i) = some b) : PathsApart child cell n b := by
  intro p q x hp hq hdp hdq
  have hcons : i :: p = i :: q := by
    refine h _ _ x (Nat.succ_le_succ hp) (Nat.succ_le_succ hq) ?_ ?_
    · rw [descend, hb, Option.bind_some, hdp]
    · rw [descend, hb, Option.bind_some, hdq]
  exact (List.cons.inj hcons).2

omit [DecidableEq A] in
theorem PathsApart.nodup_nodes (h : PathsApart child cell n a) :
    (nodes child cell width n a).Nodup := by
  induction n generalizing a with
  | zero => exact List.nodup_singleton a
  | succ n ih =>
    -- a node below entry `i` is at the end of a path that starts with `i`
    have hpath : ∀ i x, x ∈ ((child (cell a i)).map (nodes child cell width n)).getD [] →
        ∃ p, p.length ≤ n ∧ descend child cell a (i :: p) = some x := by
      intro i x hx
      cases hc : child (cell a i) with
      | none =>
        rw [hc] at hx
        cases hx
      | some b =>
        rw [hc] at hx
        obtain ⟨p, hp, -, hd⟩ := mem_nodes.mp hx
        exact ⟨p, hp, by rw [descend, hc, Option.bind_some, hd]⟩
    rw [nodes, List.nodup_append]
    refine ⟨List.nodup_flatMap.mpr ⟨?_, ?_⟩, List.nodup_singleton a, ?_⟩
    · intro i _
      cases hc : child (cell a i) with
      | none => exact List.nodup_nil
      | some b => exact ih (h.below hc)
    · apply List.nodup_range.pairwise_of_forall_ne
      intro i _ j _ hij
      apply List.disjoint_left.mpr
      intro x hi hj
      obtain ⟨p, hp, hdp⟩ := hpath i x hi
      obtain ⟨q, hq, hdq⟩ := hpath j x hj
      have := h (i :: p) (j :: q) x (Nat.succ_le_succ hp) (Nat.succ_le_succ hq) hdp hdq
      exact hij (List.cons.inj this).1
    · intro x hx y hy hxy
      obtain rfl := List.mem_singleton.mp hy
      subst hxy
      obtain ⟨i, -, hx⟩ := List.mem_flatMap.mp hx
      obtain ⟨p, hp, hd⟩ := hpath i x hx
      have := h (i :: p) [] x (Nat.succ_le_succ hp) (Nat.zero_le _) hd rfl
      cases this

omit [DecidableEq A] in
/-- A store that agrees on the nodes has the same nodes. -/
theorem nodes_congr {cell' : A → ℕ → E} (h : ∀ y ∈ nodes child cell width n a, cell' y = cell y) :
    nodes child cell' width n a = nodes child cell width n a := by
  induction n generalizing a with
  | zero => rfl
  | succ n ih =>
    have hrow : cell' a = cell a := h a self_mem_nodes
    rw [nodes, nodes, hrow]
    congr 1
    apply List.flatMap_congr
    intro i hi
    cases hc : child (cell a i) with
    | none => rfl
    | some b =>
      apply ih (a := b)
      intro y hy
      apply h y
      rw [nodes, List.mem_append, List.mem_flatMap]
      exact Or.inl ⟨i, hi, by rw [hc]; exact hy⟩

omit [DecidableEq A] in
/-- Another reading of the entries that agrees above full depth finds the same nodes. -/
theorem nodes_child_congr {child' : E → Option A}
    (h : ∀ p x i, p.length < n → descend child cell a p = some x →
      child' (cell x i) = child (cell x i)) :
    nodes child' cell width n a = nodes child cell width n a := by
  induction n generalizing a with
  | zero => rfl
  | succ n ih =>
    rw [nodes, nodes]
    congr 1
    apply List.flatMap_congr
    intro i _
    rw [h [] a i (Nat.succ_pos n) rfl]
    cases hc : child (cell a i) with
    | none => rfl
    | some b =>
      apply ih (a := b)
      intro p x j hp hd
      exact h (i :: p) x j (Nat.succ_lt_succ hp) (by rw [descend, hc, Option.bind_some, hd])

end RadixTree
