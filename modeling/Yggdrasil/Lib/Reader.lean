import Mathlib.Logic.Basic

/-!
# Success of sequenced readers

Readers are state transformers over a failing monad. A sequence of readers
succeeds exactly when its parts do, one after the other. These lemmas expose the
intermediate results, so that a successful run of a reader written in `do`
notation can be taken apart without unfolding the monad.
-/

namespace StateT

variable {σ ε α β : Type}

/-- A sequence over `Except` succeeds when both parts succeed. -/
theorem bind_eq_ok {x : StateT σ (Except ε) α} {f : α → StateT σ (Except ε) β} {s : σ}
    {r : β × σ} :
    (x >>= f) s = .ok r ↔ ∃ a s', x s = .ok (a, s') ∧ f a s' = .ok r := by
  change (Except.bind (x s) fun p => f p.1 p.2) = .ok r ↔ _
  cases hx : x s with
  | error e => simp [Except.bind]
  | ok p =>
    constructor
    · intro h
      exact ⟨p.1, p.2, rfl, h⟩
    · rintro ⟨a, s', heq, h⟩
      cases heq
      exact h

/-- A sequence over `Option` succeeds when both parts succeed. -/
theorem bind_eq_some {x : StateT σ Option α} {f : α → StateT σ Option β} {s : σ} {r : β × σ} :
    (x >>= f) s = some r ↔ ∃ a s', x s = some (a, s') ∧ f a s' = some r := by
  change ((x s).bind fun p => f p.1 p.2) = some r ↔ _
  cases hx : x s with
  | none => simp
  | some p =>
    constructor
    · intro h
      exact ⟨p.1, p.2, rfl, h⟩
    · rintro ⟨a, s', heq, h⟩
      cases heq
      exact h

/-- A pure reader over `Except` succeeds in place. -/
theorem pure_eq_ok {a : α} {s : σ} {r : α × σ} :
    (pure a : StateT σ (Except ε) α) s = .ok r ↔ r = (a, s) := by
  change (Except.ok (a, s) : Except ε (α × σ)) = .ok r ↔ _
  rw [Except.ok.injEq, eq_comm]

/-- A pure reader over `Option` succeeds in place. -/
theorem pure_eq_some {a : α} {s : σ} {r : α × σ} :
    (pure a : StateT σ Option α) s = some r ↔ r = (a, s) := by
  change some (a, s) = some r ↔ _
  rw [Option.some.injEq, eq_comm]

/-- Throwing never succeeds. -/
theorem throw_eq_ok {e : ε} {s : σ} {r : α × σ} :
    (throw e : StateT σ (Except ε) α) s = .ok r ↔ False := by
  change (Except.error e : Except ε (α × σ)) = .ok r ↔ _
  simp

/-- Failing never succeeds. -/
theorem failure_eq_some {s : σ} {r : α × σ} :
    (failure : StateT σ Option α) s = some r ↔ False := by
  change (none : Option (α × σ)) = some r ↔ _
  simp

/-- Reading the state leaves it in place. -/
theorem get_eq_ok {s : σ} {r : σ × σ} :
    (get : StateT σ (Except ε) σ) s = .ok r ↔ r = (s, s) := by
  change (Except.ok (s, s) : Except ε (σ × σ)) = .ok r ↔ _
  rw [Except.ok.injEq, eq_comm]

end StateT
