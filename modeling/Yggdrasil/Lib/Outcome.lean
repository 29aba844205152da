import Mathlib.Logic.Basic

/-!
# Outcomes of computations with state and errors

`Ends E Q x s` says how computation `x` may end from state `s`: with a result and
state in `Q`, or with an error and state in `E`. The rules follow the shape of the
computation, so that a property of a `do` block is assembled from its steps.
-/

namespace EStateM

variable {ε σ ρ α β : Type} {E E' : ε → σ → Prop} {s s' : σ}

/-- From state `s`, `x` ends in a result satisfying `Q` or an error satisfying `E`. -/
def Ends (E : ε → σ → Prop) (Q : α → σ → Prop) (x : EStateM ε σ α) (s : σ) : Prop :=
  match x s with
  | .ok a s' => Q a s'
  | .error e s' => E e s'

/-- What a result of the computation satisfies. -/
theorem Ends.ok {Q : α → σ → Prop} {x : EStateM ε σ α} {a : α} (h : Ends E Q x s)
    (hx : x s = .ok a s') : Q a s' := by
  simpa only [Ends, hx] using h

/-- What an error of the computation satisfies. -/
theorem Ends.error {Q : α → σ → Prop} {x : EStateM ε σ α} {e : ε} (h : Ends E Q x s)
    (hx : x s = .error e s') : E e s' := by
  simpa only [Ends, hx] using h

/-- A pure computation ends with its value. -/
theorem Ends.pure {Q : α → σ → Prop} {a : α} (h : Q a s) :
    Ends E Q (Pure.pure a : EStateM ε σ α) s := h

/-- A computation that throws ends with the error. -/
theorem Ends.throw {Q : α → σ → Prop} {e : ε} (h : E e s) :
    Ends E Q (MonadExcept.throw e : EStateM ε σ α) s := h

/-- A sequence of computations. -/
theorem Ends.bind {R : α → σ → Prop} {Q : β → σ → Prop} {x : EStateM ε σ α}
    {f : α → EStateM ε σ β} (hx : Ends E R x s)
    (hf : ∀ a s', R a s' → Ends E Q (f a) s') : Ends E Q (x >>= f) s := by
  change match EStateM.bind x f s with
    | .ok a s' => Q a s'
    | .error e s' => E e s'
  unfold EStateM.bind
  cases hxs : x s with
  | ok a s' => exact hf a s' (hx.ok hxs)
  | error e s' => exact hx.error hxs

/-- Weaken what is known of the end. -/
theorem Ends.mono {Q Q' : α → σ → Prop} {x : EStateM ε σ α} (hx : Ends E Q x s)
    (hE : ∀ e s', E e s' → E' e s') (hQ : ∀ a s', Q a s' → Q' a s') : Ends E' Q' x s := by
  unfold Ends at hx ⊢
  split at hx
  · exact hQ _ _ hx
  · exact hE _ _ hx

/-- A sequence of computations with an extra state, which is lost on errors. -/
theorem Ends.bindState {R : α × ρ → σ → Prop} {Q : β × ρ → σ → Prop}
    {x : StateT ρ (EStateM ε σ) α} {f : α → StateT ρ (EStateM ε σ) β} {r : ρ}
    (hx : Ends E R (x r) s) (hf : ∀ a r' s', R (a, r') s' → Ends E Q (f a r') s') :
    Ends E Q ((x >>= f) r) s :=
  hx.bind fun p s' => hf p.1 p.2 s'

end EStateM
