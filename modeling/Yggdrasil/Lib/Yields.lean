import Mathlib.Logic.Basic

/-!
# Results of computations that may run out of fuel

Among the errors of a computation some are results in their own right, given by a
partial map `fin`, and the others only say that it was not followed to its end. `x`
approximates `y` when every result of `x` is one of `y`. Two computations are matched
when they have the same results, up to a relation of the final states.
-/

namespace EStateM

variable {ε σ τ α β : Type} {fin : ε → Option τ} {s s' : σ}

/-- From state `s`, `x` ends with result `r` in state `s'`. -/
def Yields (fin : ε → Option τ) (x : EStateM ε σ α) (s : σ) (r : Except τ α) (s' : σ) : Prop :=
  match r with
  | .ok a => x s = .ok a s'
  | .error t => ∃ e, x s = .error e s' ∧ fin e = some t

/-- Every result of `x` is a result of `y`. -/
def Approx (fin : ε → Option τ) (x y : EStateM ε σ α) : Prop :=
  ∀ s r s', Yields fin x s r s' → Yields fin y s r s'

/-- The results of a sequence. -/
theorem yields_bind {x : EStateM ε σ α} {f : α → EStateM ε σ β} {r : Except τ β} :
    Yields fin (x >>= f) s r s' ↔
      (∃ a s₁, x s = .ok a s₁ ∧ Yields fin (f a) s₁ r s') ∨
        ∃ t, r = .error t ∧ Yields fin x s (.error t) s' := by
  cases hx : x s with
  | ok a s₁ =>
    have hbind : (x >>= f) s = f a s₁ := by simp only [bind, EStateM.bind, hx]
    constructor
    · intro h
      left
      refine ⟨a, s₁, rfl, ?_⟩
      cases r with
      | ok b => exact hbind.symm.trans h
      | error t =>
        obtain ⟨e, he, ht⟩ := h
        exact ⟨e, hbind.symm.trans he, ht⟩
    · rintro (⟨_, _, heq, h⟩ | ⟨t, rfl, e, he, -⟩)
      · cases heq
        cases r with
        | ok b => exact hbind.trans h
        | error t =>
          obtain ⟨e, he, ht⟩ := h
          exact ⟨e, hbind.trans he, ht⟩
      · rw [hx] at he
        cases he
  | error e s₁ =>
    have hbind : (x >>= f) s = .error e s₁ := by simp only [bind, EStateM.bind, hx]
    constructor
    · intro h
      right
      cases r with
      | ok b => exact absurd (hbind.symm.trans h) (by simp)
      | error t =>
        obtain ⟨e', he, ht⟩ := h
        cases hbind.symm.trans he
        exact ⟨t, rfl, e, hx, ht⟩
    · rintro (⟨_, _, heq, _⟩ | ⟨t, rfl, e', he, ht⟩)
      · cases heq
      · rw [hx] at he
        cases he
        exact ⟨e, hbind, ht⟩

namespace Approx

/-- A computation has its own results. -/
theorem refl (x : EStateM ε σ α) : Approx fin x x := fun _ _ _ h => h

/-- Approximation is transitive. -/
theorem trans {x y z : EStateM ε σ α} (h : Approx fin x y) (h' : Approx fin y z) :
    Approx fin x z :=
  fun s r s' hx => h' s r s' (h s r s' hx)

/-- An error that is no result approximates everything. -/
theorem of_throw {e : ε} (he : fin e = none) (y : EStateM ε σ α) :
    Approx fin (throw e) y := by
  intro s r s' h
  cases r with
  | ok a => cases h
  | error t =>
    obtain ⟨e', he', ht⟩ := h
    cases he'
    rw [he] at ht
    cases ht

/-- Sequences approximate when their parts do. -/
theorem bind {x x' : EStateM ε σ α} {f f' : α → EStateM ε σ β} (hx : Approx fin x x')
    (hf : ∀ a, Approx fin (f a) (f' a)) : Approx fin (x >>= f) (x' >>= f') := by
  intro s r s' h
  rw [yields_bind] at h ⊢
  rcases h with ⟨a, s₁, ha, h⟩ | ⟨t, rfl, h⟩
  · exact .inl ⟨a, s₁, hx s (.ok a) s₁ ha, hf a _ _ _ h⟩
  · exact .inr ⟨t, rfl, hx _ _ _ h⟩

end Approx

/-- Two ends of computations with the same result, if they have one, and states
related by `S`. -/
inductive Match (fin : ε → Option τ) (S : σ → σ → Prop) :
    Result ε σ α → Result ε σ α → Prop
  | ok {a : α} {s s' : σ} : S s s' → Match fin S (.ok a s) (.ok a s')
  | fail {e e' : ε} {t : τ} {s s' : σ} : fin e = some t → fin e' = some t → S s s' →
      Match fin S (.error e s) (.error e' s')
  | stop {e e' : ε} {s s' : σ} : fin e = none → fin e' = none →
      Match fin S (.error e s) (.error e' s')

namespace Match

variable {S : σ → σ → Prop}

/-- An end matches itself. -/
theorem refl (hS : ∀ s, S s s) (r : Result ε σ α) : Match fin S r r := by
  cases r with
  | ok a s => exact .ok (hS s)
  | error e s =>
    cases he : fin e with
    | none => exact .stop he he
    | some t => exact .fail he he (hS s)

/-- Results of the left computation are results of the right one. -/
theorem yields {x y : EStateM ε σ α} {s₁ s₂ : σ} (h : Match fin S (x s₁) (y s₂))
    {r : Except τ α} (hx : Yields fin x s₁ r s') : ∃ s'', S s' s'' ∧ Yields fin y s₂ r s'' := by
  cases r with
  | ok a =>
    rw [show x s₁ = .ok a s' from hx] at h
    generalize hy : y s₂ = ry at h
    cases h with
    | ok hS => exact ⟨_, hS, hy⟩
  | error t =>
    obtain ⟨e, he, ht⟩ := hx
    rw [he] at h
    generalize hy : y s₂ = ry at h
    cases h with
    | fail he₁ he₂ hS =>
      cases ht.symm.trans he₁
      exact ⟨_, hS, _, hy, he₂⟩
    | stop he₁ _ =>
      rw [ht] at he₁
      cases he₁

/-- Matching is symmetric. -/
theorem symm {r r' : Result ε σ α} (hS : ∀ s s', S s s' → S s' s) (h : Match fin S r r') :
    Match fin S r' r := by
  cases h with
  | ok h => exact .ok (hS _ _ h)
  | fail h₁ h₂ h => exact .fail h₂ h₁ (hS _ _ h)
  | stop h₁ h₂ => exact .stop h₂ h₁

end Match

end EStateM
