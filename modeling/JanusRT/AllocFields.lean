import JanusRT.Alloc

/-!
# What the allocator writes

Every header the allocator touches belongs to a set of addresses that lie at least one
unused header apart, with the region's end among them. On such a set a field write
changes that one field of that one header. From this each operation gets its list of
field equations, and nothing below has to look at bytes again.
-/
namespace JanusRT.Alloc

open ByteStore

/-- Two headers that are the same or do not overlap. -/
def Apart (a c : ℕ) : Prop := a = c ∨ a + unusedHeaderSize ≤ c ∨ c + unusedHeaderSize ≤ a

theorem Field.offset_le (k : Field) : k.offset + 4 ≤ unusedHeaderSize := by
  cases k <;> decide

theorem Field.offset_apart {j k : Field} (h : j ≠ k) :
    j.offset + 4 ≤ k.offset ∨ k.offset + 4 ≤ j.offset := by
  cases j <;> cases k <;> first | exact absurd rfl h | decide

namespace Arena
variable {s : Arena} {a b c n r v size : ℕ} {j k : Field}

theorem get_lt (s : Arena) (b : ℕ) (k : Field) : s.get b k < u32 := rd32_lt _ _

@[simp] theorem get_mod (s : Arena) (b : ℕ) (k : Field) : s.get b k % u32 = s.get b k :=
  Nat.mod_eq_of_lt (s.get_lt b k)

@[simp] theorem set_base (s : Arena) (b : ℕ) (k : Field) (v : ℕ) : (s.set b k v).base = s.base :=
  rfl

@[simp] theorem set_free (s : Arena) (b : ℕ) (k : Field) (v : ℕ) : (s.set b k v).free = s.free :=
  rfl

@[simp] theorem set_endAddr (s : Arena) (b : ℕ) (k : Field) (v : ℕ) :
    (s.set b k v).endAddr = s.endAddr := rfl

@[simp] theorem setBlock_base (s : Arena) (b : ℕ) (k : Field) (v : ℕ) :
    (s.setBlock b k v).base = s.base := by
  rw [setBlock, apply_ite Arena.base, set_base, ite_self]

@[simp] theorem setBlock_free (s : Arena) (b : ℕ) (k : Field) (v : ℕ) :
    (s.setBlock b k v).free = s.free := by
  rw [setBlock, apply_ite Arena.free, set_free, ite_self]

@[simp] theorem setBlock_endAddr (s : Arena) (b : ℕ) (k : Field) (v : ℕ) :
    (s.setBlock b k v).endAddr = s.endAddr := by
  rw [setBlock, apply_ite Arena.endAddr, set_endAddr, ite_self]

/-- Moving the list head touches no header. -/
@[simp] theorem get_withFree (s : Arena) (x : ℕ) : get { s with free := x } = s.get := rfl

theorem get_set (h : Apart a c) :
    (s.set a k v).get c j = if c = a ∧ j = k then v % u32 else s.get c j := by
  have hk := k.offset_le
  have hj := j.offset_le
  unfold get set
  split_ifs with hcase
  · obtain ⟨rfl, rfl⟩ := hcase
    exact rd32_wr32_same _ _ _
  · apply rd32_wr32_apart
    by_cases hca : c = a
    · subst hca
      have hoff := Field.offset_apart fun he : j = k => hcase ⟨rfl, he⟩
      omega
    · rcases h with h | h | h
      · exact absurd h.symm hca
      all_goals omega

theorem get_setBlock' (h : a ≠ s.endAddr → Apart a c) : (s.setBlock a k v).get c j =
    if c = a ∧ j = k ∧ a ≠ s.endAddr then v % u32 else s.get c j := by
  unfold setBlock
  split_ifs with hne hcase hcase
  · rw [get_set (h hne), if_pos ⟨hcase.1, hcase.2.1⟩]
  · rw [get_set (h hne), if_neg fun hc => hcase ⟨hc.1, hc.2, hne⟩]
  · exact absurd hcase.2.2 hne
  · rfl

theorem get_setBlock (h : Apart a c) : (s.setBlock a k v).get c j =
    if c = a ∧ j = k ∧ a ≠ s.endAddr then v % u32 else s.get c j :=
  get_setBlock' fun _ => h

/-- Two fields that do not overlap, in headers that may. -/
theorem get_set_far (h : a + k.offset + 4 ≤ c + j.offset ∨ c + j.offset + 4 ≤ a + k.offset) :
    (s.set a k v).get c j = s.get c j :=
  rd32_wr32_apart h

theorem get_set_same (s : Arena) (a v : ℕ) (k : Field) : (s.set a k v).get a k = v % u32 :=
  rd32_wr32_same _ _ _

theorem get_setBlock_far
    (h : a + k.offset + 4 ≤ c + j.offset ∨ c + j.offset + 4 ≤ a + k.offset) :
    (s.setBlock a k v).get c j = s.get c j := by
  unfold setBlock
  split_ifs
  · exact get_set_far h
  · rfl

end Arena

@[simp] theorem add32_mod (x y : ℕ) : add32 x y % u32 = add32 x y := Nat.mod_mod _ _

@[simp] theorem sub32_mod (x y : ℕ) : sub32 x y % u32 = sub32 x y := Nat.mod_mod _ _

@[simp] theorem u32_zero_mod : 0 % u32 = 0 := rfl

@[simp] theorem u32_one_mod : 1 % u32 = 1 := rfl

@[simp] theorem split_base (s : Arena) (b size : ℕ) : (split s b size).base = s.base := by
  simp [split]

@[simp] theorem split_free (s : Arena) (b size : ℕ) : (split s b size).free = s.free := by
  simp [split]

@[simp] theorem split_endAddr (s : Arena) (b size : ℕ) :
    (split s b size).endAddr = s.endAddr := by
  simp [split]

@[simp] theorem useBlock_base (s : Arena) (b : ℕ) : (useBlock s b).base = s.base := by
  simp [useBlock, apply_ite Arena.base]

@[simp] theorem useBlock_endAddr (s : Arena) (b : ℕ) : (useBlock s b).endAddr = s.endAddr := by
  simp [useBlock, apply_ite Arena.endAddr]

theorem useBlock_free (s : Arena) (b : ℕ) :
    (useBlock s b).free = if b = s.free then s.nfree b else s.free := by
  simp [useBlock, apply_ite Arena.free]

@[simp] theorem unuse_base (s : Arena) (b : ℕ) : (unuse s b).base = s.base := rfl

@[simp] theorem unuse_endAddr (s : Arena) (b : ℕ) : (unuse s b).endAddr = s.endAddr := rfl

theorem unuse_free (s : Arena) (b : ℕ) : (unuse s b).free = if b < s.free then b else s.free := rfl

@[simp] theorem relink_base (s : Arena) (b n p : ℕ) : (relink s b n p).base = s.base := by
  simp [relink, apply_ite Arena.base]

@[simp] theorem relink_free (s : Arena) (b n p : ℕ) : (relink s b n p).free = s.free := by
  simp [relink, apply_ite Arena.free]

@[simp] theorem relink_endAddr (s : Arena) (b n p : ℕ) :
    (relink s b n p).endAddr = s.endAddr := by
  simp [relink, apply_ite Arena.endAddr]

@[simp] theorem joinNext_base (s : Arena) (b n : ℕ) : (joinNext s b n).base = s.base := by
  simp [joinNext, apply_ite Arena.base]

@[simp] theorem joinNext_free (s : Arena) (b n : ℕ) : (joinNext s b n).free = s.free := by
  simp [joinNext, apply_ite Arena.free]

@[simp] theorem joinNext_endAddr (s : Arena) (b n : ℕ) : (joinNext s b n).endAddr = s.endAddr := by
  simp [joinNext, apply_ite Arena.endAddr]

section Writes
variable {s : Arena} {D : Set ℕ} (hD : ∀ x ∈ D, ∀ y ∈ D, Apart x y)

include hD

/-- The fields after `split`, which cuts `r` off `b`; `n` is the next block and `nf`
the next unused one. -/
theorem get_split {b r n nf size c : ℕ} (hsize : size < u32) (hb : b ∈ D) (hr : r ∈ D) (hn : n ∈ D)
    (hnf : nf ∈ D) (hc : c ∈ D) (hbr : b ≠ r) (her : add64 b size = r)
    (hen : add64 r (sub32 (s.get b .next) size) = n)
    (henf : add64 r (sub32 (s.get b .nextFree) size) = nf) (hnr : n ≠ r) (hnfr : nf ≠ r)
    (j : Field) :
    (split s b size).get c j = match j with
      | .prev => if c = n ∧ n ≠ s.endAddr then sub32 (s.get n .prev) size
          else if c = r then size else s.get c .prev
      | .next => if c = b then size
          else if c = r then sub32 (s.get b .next) size else s.get c .next
      | .used => if c = r then 0 else s.get c .used
      | .nextFree => if c = b then size
          else if c = r then sub32 (s.get b .nextFree) size else s.get c .nextFree
      | .prevFree => if c = nf ∧ nf ≠ s.endAddr then sub32 (s.get nf .prevFree) size
          else if c = r then size else s.get c .prevFree := by
  have hmod : size % u32 = size := Nat.mod_eq_of_lt hsize
  have hrb := hbr.symm
  unfold split
  simp only [hmod, her]
  cases j <;> simp [Arena.next, Arena.nfree, Arena.get_set, Arena.get_setBlock, hD, hb, hr, hn,
    hnf, hc, hmod, hen, henf, hbr, hrb, hnr, hnfr]

/-- The fields after `use_block` of the first unused block. -/
theorem get_useBlock_head {b nf c : ℕ} (hb : b ∈ D) (hnf : nf ∈ D) (hc : c ∈ D)
    (hhead : b = s.free) (henf : s.nfree b = nf) (j : Field) :
    (useBlock s b).get c j = match j with
      | .used => if c = b then 1 else s.get c .used
      | .prevFree => if c = nf then 0 else s.get c .prevFree
      | j => s.get c j := by
  unfold useBlock
  rw [if_pos hhead]
  cases j <;> simp [Arena.get_set, hD, hb, hnf, hc, henf]

/-- The fields after `use_block` of another unused block. -/
theorem get_useBlock {b pf nf c : ℕ} (hb : b ∈ D) (hpf : pf ∈ D) (hnf : nf ∈ D) (hc : c ∈ D)
    (hhead : b ≠ s.free) (hepf : s.pfree b = pf) (henf : s.nfree b = nf) (hbp : b ≠ pf)
    (j : Field) :
    (useBlock s b).get c j = match j with
      | .used => if c = b then 1 else s.get c .used
      | .nextFree => if c = pf then add32 (s.get pf .nextFree) (s.get b .nextFree)
          else s.get c .nextFree
      | .prevFree => if c = nf ∧ nf ≠ s.endAddr then
            add32 (s.get nf .prevFree) (s.get b .prevFree)
          else s.get c .prevFree
      | j => s.get c j := by
  have henf' : add64 b (s.get b .nextFree) = nf := henf
  unfold useBlock
  rw [if_neg hhead]
  simp only [hepf]
  cases j <;> simp [Arena.nfree, Arena.get_set, Arena.get_setBlock, hD, hb, hpf, hnf, hc, henf', hbp]

/-- The fields after the first writes of `free`. -/
theorem get_unuse {b c : ℕ} (hb : b ∈ D) (hc : c ∈ D) (j : Field) :
    (unuse s b).get c j = if c = b ∧ (j = .used ∨ j = .prevFree) then 0 else s.get c j := by
  change ((s.set b .prevFree 0).set b .used 0).get c j = _
  cases j <;> simp [Arena.get_set, hD, hb, hc]

/-- The fields after `free` has linked `b` between `p` and `n`. -/
theorem get_relink {b n p c : ℕ} (hb : b ∈ D) (hn : n ∈ D) (hp : p ≠ 0 → p ∈ D) (hc : c ∈ D)
    (j : Field) :
    (relink s b n p).get c j = match j with
      | .nextFree => if c = p ∧ p ≠ 0 then sub64 b p % u32
          else if c = b then sub64 n b % u32 else s.get c .nextFree
      | .prevFree => if c = b ∧ p ≠ 0 then sub64 b p % u32
          else if c = n ∧ n ≠ s.endAddr then sub64 n b % u32 else s.get c .prevFree
      | j => s.get c j := by
  unfold relink
  by_cases hp0 : p = 0
  · cases j <;> simp [Arena.get_set, Arena.get_setBlock, hD, hb, hn, hc, hp0]
  · have hpD := hp hp0
    cases j <;> simp [Arena.get_set, Arena.get_setBlock, hD, hb, hn, hc, hp0, hpD]

/-- The fields after a round of the coalescing loop that joins `n` to `b`. -/
theorem get_joinNext {b n nn nf c : ℕ} (hb : b ∈ D) (hn : n ∈ D) (hnn : nn ≠ s.endAddr → nn ∈ D)
    (hnf : nf ≠ s.endAddr → nf ∈ D) (hc : c ∈ D) (hne : n ≠ s.endAddr) (hbn : s.next b = n) (henn : s.next n = nn)
    (henf : s.nfree n = nf) (hnb : n ≠ b) (j : Field) :
    (joinNext s b n).get c j = match j with
      | .prev => if c = nn ∧ nn ≠ s.endAddr then add32 (s.get nn .prev) (s.get b .next)
          else s.get c .prev
      | .next => if c = b then add32 (s.get b .next) (s.get n .next) else s.get c .next
      | .nextFree => if c = b then add32 (s.get b .nextFree) (s.get n .nextFree)
          else s.get c .nextFree
      | .prevFree => if c = nf ∧ nf ≠ s.endAddr then
            add32 (s.get nf .prevFree) (s.get b .nextFree)
          else s.get c .prevFree
      | j => s.get c j := by
  have henn' : add64 n (s.get n .next) = nn := henn
  have hset : ∀ a, (a ≠ s.endAddr → a ∈ D) → ∀ (t : Arena), t.endAddr = s.endAddr → ∀ k v, ∀ c ∈ D,
      ∀ j, (t.setBlock a k v).get c j =
        if c = a ∧ j = k ∧ a ≠ t.endAddr then v % u32 else t.get c j :=
    fun a ha t ht k v c hc j => Arena.get_setBlock' fun hne => hD a (ha (ht ▸ hne)) c hc
  have hnn' := hset nn hnn
  have hnf' := hset nf hnf
  unfold joinNext
  rw [if_pos ⟨hne, hbn.symm⟩]
  simp only [henf]
  cases j <;> simp [Arena.next, Arena.get_set, hD, hb, hn, hnn', hnf', hc, henn', hnb]
  -- the link of `nn` is read after that of `nf` has been written, but only if `nn` is a block
  refine if_ctx_congr Iff.rfl (fun hcase => ?_) fun _ => rfl
  rw [hnf' s rfl _ _ nn (hnn hcase.2)]
  simp

end Writes

end JanusRT.Alloc
