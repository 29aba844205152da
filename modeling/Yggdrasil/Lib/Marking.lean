import Mathlib.Data.List.Forall2
import Mathlib.Data.List.GetD

/-!
# Marking until nothing changes

A list of marks is closed under a rule by passes over its indices: a pass looks at every index in
turn, sees the marks it has set before, and sets those the rule asks for. Passes are repeated
until one changes nothing. Marks are only ever set, so there are at most as many passes as
unmarked indices and one more; the result is closed under the rule, and has no mark without a
reason.
-/

namespace Marking

/-- Every mark of the first list is one of the second. -/
def Below : List Bool → List Bool → Prop := List.Forall₂ fun b b' => b = true → b' = true

namespace Below

variable {bits bits' bits'' : List Bool}

/-- Marks lie below themselves. -/
theorem refl (bits : List Bool) : Below bits bits := List.forall₂_same.mpr fun _ _ => id

/-- Marks below marks below others. -/
theorem trans (h : Below bits bits') (h' : Below bits' bits'') : Below bits bits'' := by
  induction h generalizing bits'' with
  | nil => exact h'
  | cons hb _ ih =>
    cases h' with
    | cons hb' hrest => exact .cons (hb' ∘ hb) (ih hrest)

/-- Marks below each other are the same. -/
theorem antisymm (h : Below bits bits') (h' : Below bits' bits) : bits = bits' := by
  induction h with
  | nil => rfl
  | cons hb _ ih =>
    cases h' with
    | cons hb' hrest => rw [Bool.eq_iff_iff.mpr ⟨hb, hb'⟩, ih hrest]

/-- What is marked stays marked. -/
theorem marked (h : Below bits bits') {i : ℕ} (hi : bits[i]? = some true) :
    bits'[i]? = some true := by
  induction h generalizing i with
  | nil => cases hi
  | cons hb _ ih =>
    cases i with
    | zero =>
      cases hi
      exact congrArg some (hb rfl)
    | succ i => exact ih hi

/-- More marks leave fewer indices unmarked. -/
theorem count_le (h : Below bits bits') : bits'.count false ≤ bits.count false := by
  induction h with
  | nil => exact Nat.le_refl _
  | @cons b b' l l' hb _ ih =>
    rw [List.count_cons, List.count_cons]
    cases b with
    | false => cases b' <;> simp <;> omega
    | true =>
      rw [hb rfl]
      simpa using ih

/-- Other marks leave strictly fewer indices unmarked. -/
theorem count_lt (h : Below bits bits') (hne : bits ≠ bits') :
    bits'.count false < bits.count false := by
  induction h with
  | nil => exact absurd rfl hne
  | @cons b b' l l' hb hrest ih =>
    have hle : l'.count false ≤ l.count false := count_le hrest
    rw [List.count_cons, List.count_cons]
    by_cases hbit : b = b'
    · subst hbit
      have hlt := ih fun hl => hne (by rw [hl])
      omega
    · cases b with
      | false =>
        obtain rfl : b' = true := by simpa using hbit
        simpa using Nat.lt_succ_of_le hle
      | true => exact absurd (hb rfl).symm hbit

/-- Setting a mark keeps the others. -/
theorem set (bits : List Bool) (i : ℕ) : Below bits (bits.set i true) := by
  induction bits generalizing i with
  | nil => exact .nil
  | cons b bits ih =>
    cases i with
    | zero => exact .cons (fun _ => rfl) (refl bits)
    | succ i => exact .cons id (ih i)

end Below

variable (hit : List Bool → ℕ → Bool)

/-- Mark an index if the rule asks for it. -/
def mark (bits : List Bool) (i : ℕ) : List Bool :=
  if !(bits.getD i true) && hit bits i then bits.set i true else bits

/-- One pass over the indices. -/
def pass (bits : List Bool) : List Bool := (List.range bits.length).foldl (mark hit) bits

/-- Every index the rule asks for is marked. -/
def Closed (bits : List Bool) : Prop :=
  ∀ i < bits.length, hit bits i = true → bits[i]? = some true

/-- Passes until one changes nothing: the loop started with `bits` ends with `out`. -/
inductive Ends : List Bool → List Bool → Prop
  | done {bits : List Bool} : pass hit bits = bits → Ends bits bits
  | again {bits out : List Bool} : pass hit bits ≠ bits → Ends (pass hit bits) out →
      Ends bits out

/-- At most so many passes. -/
def fixpoint : ℕ → List Bool → List Bool
  | 0, bits => bits
  | rounds + 1, bits => if pass hit bits = bits then bits else fixpoint rounds (pass hit bits)

variable {hit} {bits out : List Bool}

private theorem below_mark (bits : List Bool) (i : ℕ) : Below bits (mark hit bits i) := by
  unfold mark
  split
  · exact .set bits i
  · exact .refl bits

private theorem below_foldl (l : List ℕ) (bits : List Bool) :
    Below bits (l.foldl (mark hit) bits) := by
  induction l generalizing bits with
  | nil => exact .refl bits
  | cons i l ih => exact (below_mark bits i).trans (ih _)

private theorem mark_eq_of_foldl {l : List ℕ} (h : l.foldl (mark hit) bits = bits) :
    ∀ i ∈ l, mark hit bits i = bits := by
  induction l with
  | nil => simp
  | cons i l ih =>
    have hback : Below (mark hit bits i) bits := by
      have hrest : Below (mark hit bits i) (l.foldl (mark hit) (mark hit bits i)) :=
        below_foldl l _
      rwa [← List.foldl_cons, h] at hrest
    have hi : mark hit bits i = bits := hback.antisymm (below_mark bits i)
    rw [List.foldl_cons, hi] at h
    exact List.forall_mem_cons.mpr ⟨hi, ih h⟩

/-- A pass that changes nothing has found the marks closed. -/
theorem closed_of_pass (h : pass hit bits = bits) : Closed hit bits := by
  intro i hi hhit
  have hmark := mark_eq_of_foldl h i (List.mem_range.mpr hi)
  rw [mark, hhit, Bool.and_true, List.getD_eq_getElem _ _ hi] at hmark
  rw [List.getElem?_eq_getElem hi]
  cases hbit : bits[i] with
  | true => rfl
  | false =>
    rw [hbit] at hmark
    have hset := congrArg (fun l => l[i]?) hmark
    simp [hi, hbit] at hset

/-- A pass that changes something leaves fewer indices unmarked. -/
private theorem count_pass (h : pass hit bits ≠ bits) :
    (pass hit bits).count false < bits.count false :=
  (below_foldl _ bits).count_lt fun heq => h heq.symm

/-- One pass more than there are unmarked indices is enough. -/
theorem ends_fixpoint {rounds : ℕ} (h : bits.count false < rounds) :
    Ends hit bits (fixpoint hit rounds bits) := by
  induction rounds generalizing bits with
  | zero => omega
  | succ rounds ih =>
    rw [fixpoint]
    split
    · rename_i hsame
      exact .done hsame
    · rename_i hne
      have hless := count_pass hne
      exact .again hne (ih (by omega))

/-- The loop only sets marks. -/
theorem Ends.grows (h : Ends hit bits out) : Below bits out := by
  induction h with
  | done _ => exact .refl _
  | again _ _ ih => exact (below_foldl _ _).trans ih

/-- The result is closed under the rule. -/
theorem Ends.closed (h : Ends hit bits out) : Closed hit out := by
  induction h with
  | done hsame => exact closed_of_pass hsame
  | again _ _ ih => exact ih

private theorem length_foldl (l : List ℕ) (bits : List Bool) :
    (l.foldl (mark hit) bits).length = bits.length :=
  (List.Forall₂.length_eq (below_foldl l bits)).symm

/-- What holds of the marked indices, and of those the rule asks for when it holds of the marked
ones, holds of all marked in the end. -/
theorem Ends.invariant {P : ℕ → Prop} {n : ℕ} (h : Ends hit bits out)
    (hhit : ∀ bits : List Bool, bits.length = n → (∀ i, bits[i]? = some true → P i) →
      ∀ i, hit bits i = true → P i)
    (hlen : bits.length = n) (hbits : ∀ i, bits[i]? = some true → P i) :
    ∀ i, out[i]? = some true → P i := by
  have hmark : ∀ (bits : List Bool) (i : ℕ), bits.length = n →
      (∀ j, bits[j]? = some true → P j) → ∀ j, (mark hit bits i)[j]? = some true → P j := by
    intro bits i hlen hold j hj
    unfold mark at hj
    split at hj
    · rename_i hset
      by_cases hij : i = j
      · subst hij
        exact hhit bits hlen hold i (Bool.and_eq_true_iff.mp hset).2
      · exact hold j (by rwa [List.getElem?_set_ne hij] at hj)
    · exact hold j hj
  have hfold : ∀ (l : List ℕ) (bits : List Bool), bits.length = n →
      (∀ j, bits[j]? = some true → P j) →
      ∀ j, (l.foldl (mark hit) bits)[j]? = some true → P j := by
    intro l
    induction l with
    | nil => exact fun _ _ hold => hold
    | cons i l ih =>
      exact fun bits hlen hold => ih _ ((length_foldl [i] bits).trans hlen)
        (hmark bits i hlen hold)
  induction h with
  | done _ => exact hbits
  | again _ _ ih => exact ih ((length_foldl _ _).trans hlen) (hfold _ _ hlen hbits)

end Marking
