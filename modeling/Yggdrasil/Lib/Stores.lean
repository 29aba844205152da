import Mathlib.Data.Nat.Notation
import Mathlib.Data.List.Basic

/-!
# Stores to memory

A memory gives every address a cell, and a store replaces consecutive cells. After
stores that do not overlap, every address holds what was stored there, or what it held
before if nothing was.
-/

namespace Stores

variable {β : Type}

/-- Store cells from an address on. -/
def write (a : ℕ) (bs : List β) (m : ℕ → β) : ℕ → β :=
  fun x => if a ≤ x then bs[x - a]?.getD (m x) else m x

/-- Store one after the other, each given by its first address and its cells. -/
def writes (ws : List (ℕ × List β)) (m : ℕ → β) : ℕ → β :=
  ws.foldl (fun m w => write w.1 w.2 m) m

/-- Two stores do not overlap. -/
def Apart (w w' : ℕ × List β) : Prop :=
  w.1 + w.2.length ≤ w'.1 ∨ w'.1 + w'.2.length ≤ w.1

/-- An address is outside of a store. -/
def Outside (x : ℕ) (w : ℕ × List β) : Prop := x < w.1 ∨ w.1 + w.2.length ≤ x

variable {a x i : ℕ} {b : β} {bs : List β} {m : ℕ → β} {ws : List (ℕ × List β)}

/-- A store is read back. -/
theorem write_of_mem (h : bs[i]? = some b) : write a bs m (a + i) = b := by
  rw [write, if_pos (Nat.le_add_right a i), Nat.add_sub_cancel_left, h, Option.getD_some]

/-- A store leaves other addresses alone. -/
theorem write_of_outside (h : Outside x (a, bs)) : write a bs m x = m x := by
  unfold write
  split
  · rename_i hle
    have hlen : bs.length ≤ x - a := by
      rcases h with h | h
      · exact absurd hle (Nat.not_le.mpr h)
      · exact Nat.le_sub_of_add_le' h
    rw [List.getElem?_eq_none hlen, Option.getD_none]
  · rfl

/-- Stores leave other addresses alone. -/
theorem writes_of_outside (h : ∀ w ∈ ws, Outside x w) : writes ws m x = m x := by
  induction ws generalizing m with
  | nil => rfl
  | cons w ws ih =>
    rw [writes, List.foldl_cons]
    refine (ih fun w' hw' => h w' (List.mem_cons_of_mem _ hw')).trans ?_
    exact write_of_outside (h w (List.mem_cons_self ..))

/-- Stores that do not overlap are all read back. -/
theorem writes_of_mem (hapart : ws.Pairwise Apart) (hw : (a, bs) ∈ ws) (h : bs[i]? = some b) :
    writes ws m (a + i) = b := by
  have hi : i < bs.length := (List.getElem?_eq_some_iff.mp h).1
  induction ws generalizing m with
  | nil => cases hw
  | cons w ws ih =>
    obtain ⟨hhead, htail⟩ := List.pairwise_cons.mp hapart
    rw [writes, List.foldl_cons]
    rcases List.mem_cons.mp hw with rfl | hw
    · refine (writes_of_outside fun w' hw' => ?_).trans (write_of_mem h)
      rcases hhead w' hw' with hle | hle
      · exact .inl (Nat.lt_of_lt_of_le (Nat.add_lt_add_left hi a) hle)
      · exact .inr (Nat.le_trans hle (Nat.le_add_right a i))
    · exact ih htail hw

/-- Stores in two rounds. -/
theorem writes_append (ws ws' : List (ℕ × List β)) :
    writes (ws ++ ws') m = writes ws' (writes ws m) := List.foldl_append

end Stores
