import Yggdrasil.Lib.Outcome
import Mathlib.Order.Basic

/-!
# Invariants over growing worlds

A world records facts about the state that are never taken back. `Keeps I B w Q x`
says that computation `x`, begun in a state satisfying the invariant `I` at world
`w`, ends in a state satisfying it at some later world, where its result satisfies
`Q`; its errors satisfy `B`. Facts that only grow with the world are kept for free
across a computation.
-/

namespace EStateM

variable {ε σ ρ α β W : Type} [Preorder W] {I : W → σ → Prop} {B : ε → Prop} {w : W}

/-- From a state in the invariant at `w`, `x` ends in the invariant at a later world. -/
def Keeps (I : W → σ → Prop) (B : ε → Prop) (w : W) (Q : W → α → Prop)
    (x : EStateM ε σ α) : Prop :=
  ∀ s, I w s → Ends (fun e s' => B e ∧ ∃ w', w ≤ w' ∧ I w' s')
    (fun a s' => ∃ w', w ≤ w' ∧ I w' s' ∧ Q w' a) x s

/-- A pure computation keeps the world and its invariant. -/
theorem Keeps.pure {Q : W → α → Prop} {a : α} (h : Q w a) :
    Keeps I B w Q (Pure.pure a : EStateM ε σ α) :=
  fun _ hs => ⟨w, le_refl w, hs, h⟩

/-- An error that is allowed may be thrown. -/
theorem Keeps.throw {Q : W → α → Prop} {e : ε} (h : B e) :
    Keeps I B w Q (MonadExcept.throw e : EStateM ε σ α) :=
  fun _ hs => ⟨h, w, le_refl w, hs⟩

/-- A sequence of computations. -/
theorem Keeps.bind {P : W → α → Prop} {Q : W → β → Prop} {x : EStateM ε σ α}
    {f : α → EStateM ε σ β} (hx : Keeps I B w P x)
    (hf : ∀ a w', w ≤ w' → P w' a → Keeps I B w' Q (f a)) : Keeps I B w Q (x >>= f) := by
  intro s hs
  refine (hx s hs).bind ?_
  rintro a s₁ ⟨w₁, hle, hs₁, ha⟩
  refine (hf a w₁ hle ha s₁ hs₁).mono ?_ ?_
  · rintro e s₂ ⟨hb, w₂, hle', hs₂⟩
    exact ⟨hb, w₂, hle.trans hle', hs₂⟩
  · rintro b s₂ ⟨w₂, hle', hs₂, hb⟩
    exact ⟨w₂, hle.trans hle', hs₂, hb⟩

/-- Weaken what is known of the result. -/
theorem Keeps.mono {Q Q' : W → α → Prop} {x : EStateM ε σ α} (hx : Keeps I B w Q x)
    (hQ : ∀ w' a, w ≤ w' → Q w' a → Q' w' a) : Keeps I B w Q' x := by
  intro s hs
  refine (hx s hs).mono (fun _ _ => id) ?_
  rintro a s' ⟨w', hle, hs', ha⟩
  exact ⟨w', hle, hs', hQ w' a hle ha⟩

/-- What is known of every result besides. -/
theorem Keeps.also {Q : W → α → Prop} {P : α → Prop} {x : EStateM ε σ α} (hx : Keeps I B w Q x)
    (h : ∀ s, Ends (fun _ _ => True) (fun a _ => P a) x s) :
    Keeps I B w (fun w' a => Q w' a ∧ P a) x := by
  intro s hs
  have hkeeps := hx s hs
  have hresult := h s
  unfold Ends at hkeeps hresult ⊢
  cases hrun : x s with
  | error e s' =>
    rw [hrun] at hkeeps
    exact hkeeps
  | ok a s' =>
    rw [hrun] at hkeeps hresult
    obtain ⟨w', hle, hs', ha⟩ := hkeeps
    exact ⟨w', hle, hs', ha, hresult⟩

/-- The computation keeps the invariant and a property `R` of an extra state. -/
def KeepsState (I : W → σ → Prop) (B : ε → Prop) (R : W → ρ → Prop) (w : W)
    (Q : W → α → Prop) (x : StateT ρ (EStateM ε σ) α) : Prop :=
  ∀ r, R w r → Keeps I B w (fun w' p => R w' p.2 ∧ Q w' p.1) (x r)

variable {R : W → ρ → Prop}

/-- A pure computation with an extra state. -/
theorem KeepsState.pure {Q : W → α → Prop} {a : α} (h : Q w a) :
    KeepsState I B R w Q (Pure.pure a) :=
  fun _ hr => Keeps.pure ⟨hr, h⟩

/-- A sequence of computations with an extra state. -/
theorem KeepsState.bind {P : W → α → Prop} {Q : W → β → Prop}
    {x : StateT ρ (EStateM ε σ) α} {f : α → StateT ρ (EStateM ε σ) β}
    (hx : KeepsState I B R w P x)
    (hf : ∀ a w', w ≤ w' → P w' a → KeepsState I B R w' Q (f a)) :
    KeepsState I B R w Q (x >>= f) := by
  intro r hr
  refine (hx r hr).bind ?_
  rintro ⟨a, r'⟩ w' hle ⟨hr', ha⟩
  exact hf a w' hle ha r' hr'

/-- A computation that does not touch the extra state, whose property is never
taken back. -/
theorem KeepsState.lift (hR : ∀ w w' r, w ≤ w' → R w r → R w' r) {Q : W → α → Prop}
    {x : EStateM ε σ α} (hx : Keeps I B w Q x) :
    KeepsState I B R w Q (StateT.lift x) := by
  intro r hr
  refine hx.bind ?_
  intro a w' hle ha
  exact Keeps.pure ⟨hR w w' r hle hr, ha⟩

end EStateM
