import Yggdrasil.Term.Word

/-!
# Rings and queue entries

A ring is seen here as the list of its entries: its two cursors are only moved under a
lock, or by the single producer and the single consumer.
-/

namespace Yggdrasil

/-- A submission queue entry. -/
structure Sqe where
  /-- The operation. -/
  op : UInt32
  /-- The completion tag. -/
  tag : Word
  /-- First argument. -/
  arg0 : Word
  /-- Second argument. -/
  arg1 : Word
  deriving DecidableEq, Repr

/-- The tag that suppresses the completion: -1. -/
def skipCqe : Word := -1

/-- A completion queue entry. -/
structure Cqe where
  /-- The tag of the submission. -/
  tag : Word
  /-- The result. -/
  result : Word
  /-- History: the byte of the serial ring that it carries. -/
  byte : Option UInt8
  deriving DecidableEq, Repr

/-- A ring of capacity `N`, by its entries, oldest first. -/
structure Ring (α : Type) (N : ℕ) where
  /-- The entries. -/
  entries : List α
  /-- There are at most `N`. -/
  length_le : entries.length ≤ N

namespace Ring

variable {α : Type} {N : ℕ}

/-- No entries. -/
def empty : Ring α N := ⟨[], Nat.zero_le N⟩

/-- `push`, which fails if the ring is full. -/
def push (r : Ring α N) (v : α) : Option (Ring α N) :=
  if h : r.entries.length = N then none
  else some ⟨r.entries ++ [v], by
      rw [List.length_append]
      exact Nat.lt_of_le_of_ne r.length_le h⟩

/-- `pop`, which fails if the ring is empty. -/
def pop (r : Ring α N) : Option (α × Ring α N) :=
  match r with
  | ⟨[], _⟩ => none
  | ⟨v :: vs, h⟩ => some (v, ⟨vs, Nat.le_of_succ_le h⟩)

/-- A push whose failure is ignored: the entry is lost if the ring is full. -/
def offer (r : Ring α N) (v : α) : Ring α N := (r.push v).getD r

/-- An entry that finds room is appended. -/
theorem push_eq_some_iff {r r' : Ring α N} {v : α} :
    r.push v = some r' ↔ r.entries.length < N ∧ r'.entries = r.entries ++ [v] := by
  have hle := r.length_le
  obtain ⟨entries', h'⟩ := r'
  unfold push
  split
  · simp only [reduceCtorEq, false_iff]
    omega
  · simp only [Option.some.injEq, mk.injEq]
    constructor
    · rintro rfl
      exact ⟨by omega, rfl⟩
    · rintro ⟨-, rfl⟩
      rfl

/-- A push fails on a full ring. -/
theorem push_eq_none_iff {r : Ring α N} {v : α} : r.push v = none ↔ r.entries.length = N := by
  unfold push
  split <;> simp_all

/-- An entry offered to a ring with room is appended. -/
theorem entries_offer_of_lt {r : Ring α N} (h : r.entries.length < N) (v : α) :
    (r.offer v).entries = r.entries ++ [v] := by
  have hne : ¬r.entries.length = N := by omega
  simp [offer, push, hne]

/-- Popping takes the first entry. -/
theorem pop_eq_some_iff {r r' : Ring α N} {v : α} :
    r.pop = some (v, r') ↔ r.entries = v :: r'.entries := by
  obtain ⟨entries, h⟩ := r
  cases entries with
  | nil => simp [pop]
  | cons w ws =>
    obtain ⟨entries', h'⟩ := r'
    simp [pop, eq_comm]

end Ring

end Yggdrasil
