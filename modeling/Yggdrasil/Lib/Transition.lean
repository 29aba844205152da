/-!
# Transition systems

States reachable by steps from initial states, the invariant rule, and runs of events.
-/

namespace Transition

variable {σ : Type} {init : σ → Prop} {step : σ → σ → Prop}

/-- States that finitely many steps from an initial state lead to. -/
inductive Reaches (init : σ → Prop) (step : σ → σ → Prop) : σ → Prop
  | init {s : σ} : init s → Reaches init step s
  | step {s s' : σ} : Reaches init step s → step s s' → Reaches init step s'

/-- What holds initially and is kept by every step holds in every reachable state. -/
theorem Reaches.invariant {P : σ → Prop} (hinit : ∀ s, init s → P s)
    (hstep : ∀ s s', P s → step s s' → P s') {s : σ} (h : Reaches init step s) : P s := by
  induction h with
  | init hs => exact hinit _ hs
  | step _ hs ih => exact hstep _ _ ih hs

/-- Events in a row, as long as they can happen. -/
def run {ε : Type} (next : σ → ε → Option σ) : List ε → σ → Option σ
  | [], s => some s
  | e :: es, s => (next s e).bind (run next es)

/-- Events in a row lead from reachable states to reachable states, if each is a step. -/
theorem Reaches.run {ε : Type} {next : σ → ε → Option σ} {s s' : σ} (h : Reaches init step s)
    (es : List ε) (hstep : ∀ s s', ∀ e ∈ es, next s e = some s' → step s s')
    (hrun : Transition.run next es s = some s') : Reaches init step s' := by
  induction es generalizing s with
  | nil =>
    cases hrun
    exact h
  | cons e es ih =>
    obtain ⟨hfirst, hrest⟩ : (∀ s s', next s e = some s' → step s s') ∧
        ∀ s s', ∀ e ∈ es, next s e = some s' → step s s' :=
      ⟨fun s s' => hstep s s' e List.mem_cons_self,
        fun s s' e he => hstep s s' e (List.mem_cons_of_mem _ he)⟩
    obtain ⟨s₁, hs₁, htail⟩ := Option.bind_eq_some_iff.mp hrun
    exact ih (h.step (hfirst s s₁ hs₁)) hrest htail

end Transition
