import Mathlib.Tactic

/-!
# Outcomes of fallible programs

A program that may stop is a value of `Except ε α`. `Holds E P` says that it
returns a value with `P`, or stops for a reason in `E`. The rules below peel a
computation apart at its binds, so that every function needs one such statement
and its callers never look inside it. `foldlM` is a run of events; its rule is
the invariant principle for whole runs.
-/
namespace Outcome

universe u v

variable {ε : Type u} {α β σ : Type v} {E : ε → Prop}

@[simp] theorem ok_bind (a : α) (f : α → Except ε β) : (Except.ok a >>= f) = f a := rfl

/-- What returns has got through both parts. -/
theorem ok_of_bind {x : Except ε α} {f : α → Except ε β} {b : β} (h : (x >>= f) = .ok b) :
    ∃ a, x = .ok a ∧ f a = .ok b := by
  cases x with
  | ok a => exact ⟨a, rfl, h⟩
  | error e => cases h

/-- Partial correctness together with the set of allowed reasons to stop. -/
def Holds (E : ε → Prop) (P : α → Prop) : Except ε α → Prop
  | .ok a => P a
  | .error e => E e

@[simp] theorem holds_ok {P : α → Prop} {a : α} :
    Holds E P (Except.ok a : Except ε α) ↔ P a := Iff.rfl

@[simp] theorem holds_pure {P : α → Prop} {a : α} :
    Holds E P (pure a : Except ε α) ↔ P a := Iff.rfl

@[simp] theorem holds_error {P : α → Prop} {e : ε} :
    Holds E P (Except.error e : Except ε α) ↔ E e := Iff.rfl

@[simp] theorem holds_throw {P : α → Prop} {e : ε} :
    Holds E P (throw e : Except ε α) ↔ E e := Iff.rfl

theorem Holds.mono {P Q : α → Prop} {x : Except ε α} (h : Holds E P x)
    (hpq : ∀ a, P a → Q a) : Holds E Q x := by
  cases x with
  | ok a => exact hpq a h
  | error e => exact h

/-- The consequence rule for both ways to end. -/
theorem Holds.weaken {E' : ε → Prop} {P Q : α → Prop} {x : Except ε α} (h : Holds E P x)
    (he : ∀ e, E e → E' e) (hpq : ∀ a, P a → Q a) : Holds E' Q x := by
  cases x with
  | ok a => exact hpq a h
  | error e => exact he e h

/-- The consequence rule with the returned value at hand. -/
theorem Holds.of_value {P Q : α → Prop} {x : Except ε α} (h : Holds E P x)
    (hpq : ∀ a, x = .ok a → P a → Q a) : Holds E Q x := by
  cases x with
  | ok a => exact hpq a rfl h
  | error e => exact h

/-- Sequencing: the first part's postcondition is the second part's precondition. -/
theorem Holds.bind {P : α → Prop} {Q : β → Prop} {x : Except ε α} {f : α → Except ε β}
    (h : Holds E P x) (hf : ∀ a, P a → Holds E Q (f a)) : Holds E Q (x >>= f) := by
  cases x with
  | ok a => exact hf a h
  | error e => exact h

/-- What every returned value satisfies, without regard to the stops. -/
theorem Holds.of_ok {P : α → Prop} {x : Except ε α} (h : Holds E P x) {a : α}
    (hx : x = .ok a) : P a := by
  subst hx
  exact h

theorem Holds.and {P Q : α → Prop} {x : Except ε α} (h : Holds E P x)
    (h' : Holds E Q x) : Holds E (fun a => P a ∧ Q a) x := by
  cases x with
  | ok a => exact ⟨h, h'⟩
  | error e => exact h

/-- A property kept by every event is kept by every run of events. -/
theorem Holds.foldlM {α : Type*} {step : σ → α → Except ε σ} {P : σ → Prop}
    (hstep : ∀ s e, P s → Holds E P (step s e)) (es : List α) (s : σ) (hs : P s) :
    Holds E P (es.foldlM step s) := by
  induction es generalizing s with
  | nil => exact hs
  | cons e es ih =>
    rw [List.foldlM_cons]
    exact (hstep s e hs).bind ih

/-- Every event of a run meets `P` in the state it is taken in. -/
def Along {α : Type*} (step : σ → α → Except ε σ) (P : σ → α → Prop) : σ → List α → Prop
  | _, [] => True
  | s, e :: es => P s e ∧ ∀ s', step s e = .ok s' → Along step P s' es

instance Along.decidable {α : Type*} (step : σ → α → Except ε σ) (P : σ → α → Prop)
    [∀ s e, Decidable (P s e)] : ∀ s es, Decidable (Along step P s es)
  | _, [] => isTrue trivial
  | s, e :: es =>
    match h : step s e with
    | .ok s' =>
      have := Along.decidable step P s' es
      decidable_of_iff (P s e ∧ Along step P s' es) (by simp [Along, h])
    | .error _ => decidable_of_iff (P s e) (by simp [Along, h])

/-- An invariant that every event with `P` keeps holds after a run of such events, and
the run does not stop. -/
theorem Along.foldlM {α : Type*} {step : σ → α → Except ε σ} {P : σ → α → Prop} {I : σ → Prop}
    (hstep : ∀ s e, I s → P s e → ∃ s', step s e = .ok s' ∧ I s') {es : List α} {s : σ}
    (hP : Along step P s es) (hs : I s) : ∃ s', es.foldlM step s = .ok s' ∧ I s' := by
  induction es generalizing s with
  | nil => exact ⟨s, rfl, hs⟩
  | cons e es ih =>
    obtain ⟨s₁, h₁, hs₁⟩ := hstep s e hs hP.1
    rw [List.foldlM_cons, h₁, ok_bind]
    exact ih (hP.2 s₁ h₁) hs₁

/-- The same for runs that may stop. -/
theorem Along.holds {α : Type*} {step : σ → α → Except ε σ} {P : σ → α → Prop} {I : σ → Prop}
    (hstep : ∀ s e, I s → P s e → Holds E I (step s e)) {es : List α} {s : σ}
    (hP : Along step P s es) (hs : I s) : Holds E I (es.foldlM step s) := by
  induction es generalizing s with
  | nil => exact hs
  | cons e es ih =>
    rw [List.foldlM_cons]
    apply ((hstep s e hs hP.1).of_value fun s' h' hs' => And.intro h' hs').bind
    rintro s' ⟨h', hs'⟩
    exact ih (hP.2 s' h') hs'

theorem Along.append {α : Type*} {step : σ → α → Except ε σ} {P : σ → α → Prop} {es es' : List α}
    {s : σ} (hP : Along step P s (es ++ es')) :
    Along step P s es ∧ ∀ s', es.foldlM step s = .ok s' → Along step P s' es' := by
  induction es generalizing s with
  | nil =>
    refine ⟨trivial, ?_⟩
    intro s' hs'
    obtain rfl : s = s' := Except.ok.inj hs'
    exact hP
  | cons e es ih =>
    refine ⟨⟨hP.1, fun s₁ h₁ => (ih (hP.2 s₁ h₁)).1⟩, ?_⟩
    intro s' hs'
    obtain ⟨s₁, h₁, hrest⟩ := ok_of_bind (List.foldlM_cons.symm.trans hs')
    exact (ih (hP.2 s₁ h₁)).2 s' hrest

theorem Along.and {α : Type*} {step : σ → α → Except ε σ} {P Q : σ → α → Prop} {es : List α}
    {s : σ} (hP : Along step P s es) (hQ : Along step Q s es) :
    Along step (fun s e => P s e ∧ Q s e) s es := by
  induction es generalizing s with
  | nil => trivial
  | cons e es ih => exact ⟨⟨hP.1, hQ.1⟩, fun s' h' => ih (hP.2 s' h') (hQ.2 s' h')⟩

end Outcome
