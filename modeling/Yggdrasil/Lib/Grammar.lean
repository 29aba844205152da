import Mathlib.Data.List.Infix
import Yggdrasil.Lib.Reader

/-!
# The words a reader accepts

A reader walks over a fixed string by position. It reads a relation `R` between
values and words when, from every position, it succeeds exactly with the values
related to a word that follows there and stops behind that word. Sequenced readers
read concatenated words, so that a decoder is specified by the grammar of its input.
-/

/-- Monads whose computations succeed with a value or fail. -/
class Failing (m : Type → Type) [Monad m] : Prop where
  /-- A success has one value. -/
  pure_inj : ∀ {α : Type} {a b : α}, (pure a : m α) = pure b ↔ a = b
  /-- A sequence succeeds when both parts do. -/
  bind_eq_pure : ∀ {α β : Type} {x : m α} {f : α → m β} {b : β},
    x >>= f = pure b ↔ ∃ a, x = pure a ∧ f a = pure b

instance : Failing Option where
  pure_inj := Option.some_inj
  bind_eq_pure := Option.bind_eq_some_iff

instance {ε : Type} : Failing (Except ε) where
  pure_inj := ⟨fun h => Except.ok.inj h, fun h => congrArg Except.ok h⟩
  bind_eq_pure {_ _ x f b} := by
    cases x with
    | error e =>
      constructor
      · intro h
        cases h
      · rintro ⟨a, h, -⟩
        cases h
    | ok a =>
      constructor
      · intro h
        exact ⟨a, rfl, h⟩
      · rintro ⟨a, h, hf⟩
        cases h
        exact hf

namespace StateT

variable {m : Type → Type} [Monad m] {α β γ : Type} {str : List γ}

/-- From every position of `str`, `x` reads a word `w` with `R a w` as the value `a`,
and nothing else. -/
def Reads (str : List γ) (x : StateT ℕ m α) (R : α → List γ → Prop) : Prop :=
  ∀ pos ≤ str.length, ∀ a next, x pos = Pure.pure (a, next) ↔
    ∃ w, R a w ∧ w <+: str.drop pos ∧ next = pos + w.length

namespace Reads

private theorem append_isPrefix_drop {u v : List γ} {pos : ℕ} :
    u ++ v <+: str.drop pos ↔ u <+: str.drop pos ∧ v <+: str.drop (pos + u.length) := by
  constructor
  · rintro ⟨rest, h⟩
    refine ⟨⟨v ++ rest, by rw [← h, List.append_assoc]⟩, rest, ?_⟩
    rw [← List.drop_drop, ← h, List.append_assoc, List.drop_left]
  · rintro ⟨⟨rest, h⟩, hv⟩
    rw [← List.drop_drop, ← h, List.drop_left] at hv
    rw [← h]
    exact (List.prefix_append_right_inj u).mpr hv

private theorem le_length_of_isPrefix_drop {u : List γ} {pos : ℕ} (hpos : pos ≤ str.length)
    (h : u <+: str.drop pos) : pos + u.length ≤ str.length := by
  have hlen := h.length_le
  rw [List.length_drop] at hlen
  omega

/-- An equivalent grammar. -/
theorem congr {x : StateT ℕ m α} {R R' : α → List γ → Prop} (h : Reads str x R)
    (hR : ∀ a w, R a w ↔ R' a w) : Reads str x R' := by
  intro pos hpos a next
  rw [h pos hpos a next]
  simp only [hR]

/-- Throwing reads nothing. -/
theorem throw {ε : Type} (e : ε) :
    Reads str (MonadExcept.throw e : StateT ℕ (Except ε) α) fun _ _ => False := by
  intro pos _ a next
  constructor
  · exact fun h => (throw_eq_ok.mp h).elim
  · rintro ⟨w, h, -⟩
    exact h.elim

/-- Failing reads nothing. -/
theorem failure : Reads str (Alternative.failure : StateT ℕ Option α) fun _ _ => False := by
  intro pos _ a next
  constructor
  · exact fun h => (failure_eq_some.mp h).elim
  · rintro ⟨w, h, -⟩
    exact h.elim

variable [Failing m]

/-- Reading nothing. -/
theorem pure (a : α) : Reads str (Pure.pure a : StateT ℕ m α) fun b w => b = a ∧ w = [] := by
  intro pos _ b next
  change Pure.pure (a, pos) = Pure.pure (b, next) ↔ _
  rw [Failing.pure_inj, Prod.mk.injEq]
  constructor
  · rintro ⟨rfl, rfl⟩
    exact ⟨[], ⟨rfl, rfl⟩, List.nil_prefix, rfl⟩
  · rintro ⟨w, ⟨rfl, rfl⟩, -, rfl⟩
    exact ⟨rfl, rfl⟩

/-- Reading one word after the other. -/
theorem bind {x : StateT ℕ m α} {f : α → StateT ℕ m β} {R : α → List γ → Prop}
    {S : α → β → List γ → Prop} (hx : Reads str x R) (hf : ∀ a, Reads str (f a) (S a)) :
    Reads str (x >>= f) fun b w => ∃ a u v, R a u ∧ S a b v ∧ w = u ++ v := by
  intro pos hpos b next
  change (x pos >>= fun p => f p.1 p.2) = Pure.pure (b, next) ↔ _
  rw [Failing.bind_eq_pure]
  constructor
  · rintro ⟨⟨a, mid⟩, ha, hb⟩
    obtain ⟨u, hu, hpre, rfl⟩ := (hx pos hpos a mid).mp ha
    obtain ⟨v, hv, hpre', rfl⟩ :=
      (hf a _ (le_length_of_isPrefix_drop hpos hpre) b next).mp hb
    refine ⟨u ++ v, ⟨a, u, v, hu, hv, rfl⟩, append_isPrefix_drop.mpr ⟨hpre, hpre'⟩, ?_⟩
    rw [List.length_append, Nat.add_assoc]
  · rintro ⟨-, ⟨a, u, v, hu, hv, rfl⟩, hpre, rfl⟩
    obtain ⟨hu', hv'⟩ := append_isPrefix_drop.mp hpre
    refine ⟨(a, pos + u.length), (hx pos hpos a _).mpr ⟨u, hu, hu', rfl⟩, ?_⟩
    refine (hf a _ (le_length_of_isPrefix_drop hpos hu') b _).mpr ⟨v, hv, hv', ?_⟩
    rw [List.length_append, Nat.add_assoc]

end Reads

end StateT
