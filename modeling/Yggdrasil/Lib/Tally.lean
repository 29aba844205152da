import Mathlib.Algebra.BigOperators.Fin
import Mathlib.Algebra.Order.BigOperators.Group.Finset
import Mathlib.Algebra.Ring.Nat

/-!
# Tallies

The sum of what finitely many places hold of some resource, and how it changes when
one place changes.
-/

namespace Tally

variable {ι κ : Type} [Fintype ι]

/-- What all places hold together. -/
def tally (f : κ → ℕ) (place : ι → κ) : ℕ := ∑ i, f (place i)

variable {f : κ → ℕ} {place : ι → κ}

/-- One place holds at most the tally. -/
theorem le_tally (f : κ → ℕ) (place : ι → κ) (i : ι) : f (place i) ≤ tally f place :=
  Finset.single_le_sum (f := fun i => f (place i)) (fun _ _ => Nat.zero_le _) (Finset.mem_univ i)

/-- A positive tally has a place that holds something. -/
theorem exists_pos (h : 0 < tally f place) : ∃ i, 0 < f (place i) := by
  by_contra hnone
  have hzero : tally f place = 0 := Finset.sum_eq_zero fun i _ => by
    have hi : ¬0 < f (place i) := fun hpos => hnone ⟨i, hpos⟩
    omega
  omega

/-- The tally is zero if no place holds anything. -/
theorem eq_zero (h : ∀ i, f (place i) = 0) : tally f place = 0 :=
  Finset.sum_eq_zero fun i _ => h i

variable [DecidableEq ι]

/-- Replacing one place changes the tally by the difference. -/
theorem tally_update (f : κ → ℕ) (place : ι → κ) (i : ι) (k : κ) :
    tally f (Function.update place i k) + f (place i) = tally f place + f k := by
  have hnew := Finset.add_sum_erase Finset.univ (fun j => f (Function.update place i k j))
    (Finset.mem_univ i)
  have hold := Finset.add_sum_erase Finset.univ (fun j => f (place j)) (Finset.mem_univ i)
  have hrest : ∑ j ∈ Finset.univ.erase i, f (Function.update place i k j) =
      ∑ j ∈ Finset.univ.erase i, f (place j) := by
    refine Finset.sum_congr rfl fun j hj => ?_
    rw [Function.update_of_ne (Finset.ne_of_mem_erase hj)]
  rw [Function.update_self] at hnew
  rw [tally, tally]
  omega

/-- Two places that hold something make a tally of at least two. -/
theorem two_le {i j : ι} (hij : i ≠ j) (hi : 0 < f (place i)) (hj : 0 < f (place j)) :
    2 ≤ tally f place := by
  have hsum := Finset.add_sum_erase Finset.univ (fun k => f (place k)) (Finset.mem_univ i)
  have hle : f (place j) ≤ ∑ k ∈ Finset.univ.erase i, f (place k) :=
    Finset.single_le_sum (f := fun k => f (place k)) (fun _ _ => Nat.zero_le _)
      (Finset.mem_erase.mpr ⟨Ne.symm hij, Finset.mem_univ j⟩)
  rw [tally]
  omega

end Tally
