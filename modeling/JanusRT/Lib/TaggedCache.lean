import Mathlib.Tactic

/-!
# A cache of translations that is never invalidated

Maps come and go, each under a tag. The cache remembers what a lookup in one of them found, with
the tag it was looked up under. Shared values answer under every tag and never change. Without
invalidation the cache stays right as long as no tag gets a second map.
-/
namespace TaggedCache

universe u v w

structure Entry (T : Type u) (K : Type v) (V : Type w) where
  tag : T
  key : K
  val : V
  deriving DecidableEq, Repr

variable {T : Type u} {K : Type v} {V : Type w} (isShared : V → Prop)

/-- The entry answers a lookup of `k` under `t`. -/
def Entry.Hits (e : Entry T K V) (t : T) (k : K) : Prop := e.key = k ∧ (isShared e.val ∨ e.tag = t)

instance [DecidableEq T] [DecidableEq K] [DecidablePred isShared] (e : Entry T K V) (t : T) (k : K) :
    Decidable (e.Hits isShared t k) := inferInstanceAs (Decidable (_ ∧ _))

/-- `shared` is what every map says for shared values, `used` holds of the tags that have ever
had a map, and `maps t f` when `f` is in force under `t`. -/
structure Coherent (shared : K → Option V) (used : T → Prop) (maps : T → (K → Option V) → Prop)
    (es : List (Entry T K V)) : Prop where
  shared : ∀ e ∈ es, isShared e.val → shared e.key = some e.val
  used : ∀ e ∈ es, ¬ isShared e.val → used e.tag
  current : ∀ e ∈ es, ¬ isShared e.val → ∀ f, maps e.tag f → f e.key = some e.val

variable {isShared} {shared : K → Option V} {used used' : T → Prop}
  {maps maps' : T → (K → Option V) → Prop} {es es' : List (Entry T K V)}

theorem Coherent.nil : Coherent isShared shared used maps [] where
  shared _ he := absurd he List.not_mem_nil
  used _ he := absurd he List.not_mem_nil
  current _ he := absurd he List.not_mem_nil

/-- Entries may go at any time. -/
theorem Coherent.evict (h : Coherent isShared shared used maps es) (hsub : ∀ e ∈ es', e ∈ es) :
    Coherent isShared shared used maps es' where
  shared e he := h.shared e (hsub e he)
  used e he := h.used e (hsub e he)
  current e he := h.current e (hsub e he)

/-- A lookup in the only map of a tag may be remembered. -/
theorem Coherent.fill (h : Coherent isShared shared used maps es) {t : T} {k : K} {v : V}
    (hshared : isShared v → shared k = some v) (hused : ¬ isShared v → used t)
    (hmaps : ¬ isShared v → ∀ f, maps t f → f k = some v) :
    Coherent isShared shared used maps (⟨t, k, v⟩ :: es) := by
  refine ⟨?_, ?_, ?_⟩
  · intro e he
    obtain rfl | he := List.mem_cons.mp he
    · exact hshared
    · exact h.shared e he
  · intro e he
    obtain rfl | he := List.mem_cons.mp he
    · exact hused
    · exact h.used e he
  · intro e he
    obtain rfl | he := List.mem_cons.mp he
    · exact hmaps
    · exact h.current e he

/-- Tags that have had a map may lose it, and others may get their first. -/
theorem Coherent.change (h : Coherent isShared shared used maps es)
    (hused : ∀ t, used t → used' t) (hmaps : ∀ t, used t → ∀ f, maps' t f → maps t f) :
    Coherent isShared shared used' maps' es where
  shared e he hs := h.shared e he hs
  used e he hs := hused _ (h.used e he hs)
  current e he hs f hf := h.current e he hs f (hmaps _ (h.used e he hs) f hf)

end TaggedCache
