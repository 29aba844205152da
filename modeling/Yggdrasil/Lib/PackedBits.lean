import Mathlib.Data.BitVec

/-!
# Bits packed into words

A list of 64-bit words as a set of indices: index `i` is bit `i % 64` of word `i / 64`.
-/

namespace PackedBits

/-- The mask of an index in its word. -/
def mask (i : ℕ) : BitVec 64 := 1 <<< (i % 64)

/-- Whether the bit of an index is set; indices past the end are clear. -/
def test (bits : List (BitVec 64)) (i : ℕ) : Bool := (bits.getD (i / 64) 0).getLsbD (i % 64)

/-- An index of the list lies in one of its words. -/
theorem index_lt {bits : List (BitVec 64)} {n i : ℕ} (hbits : (n + 63) / 64 ≤ bits.length)
    (hi : i < n) : i / 64 < bits.length := by
  omega

private theorem mask_eq (i : ℕ) : mask i = BitVec.twoPow 64 (i % 64) := by
  rw [mask, BitVec.twoPow]
  rfl

private theorem getLsbD_mask (i j : ℕ) :
    (mask i).getLsbD (j % 64) = decide (i % 64 = j % 64) := by
  rw [mask_eq, BitVec.getLsbD_twoPow, decide_eq_true (Nat.mod_lt i (by decide)), Bool.true_and]

/-- The bit is set when the word has something in common with the mask. -/
theorem and_mask_ne_zero {bits : List (BitVec 64)} {i : ℕ} {w : BitVec 64}
    (hw : bits[i / 64]? = some w) : (w &&& mask i ≠ 0) ↔ test bits i = true := by
  have htest : test bits i = w.getLsbD (i % 64) := by
    rw [test, List.getD_eq_getElem?_getD, hw, Option.getD_some]
  rw [htest, mask_eq, BitVec.and_twoPow]
  by_cases hbit : w.getLsbD (i % 64) = true
  · rw [if_pos hbit]
    refine iff_of_true (fun hzero => ?_) hbit
    have := congrArg (fun v => v.getLsbD (i % 64)) hzero
    simp [Nat.mod_lt] at this
  · rw [if_neg hbit]
    exact iff_of_false (fun h => h rfl) hbit

private theorem test_set {bits : List (BitVec 64)} {i : ℕ} (hi : i / 64 < bits.length)
    (w : BitVec 64) (j : ℕ) :
    test (bits.set (i / 64) w) j =
      if j / 64 = i / 64 then w.getLsbD (j % 64) else test bits j := by
  simp only [test, List.getD_eq_getElem?_getD, List.getElem?_set]
  by_cases hj : j / 64 = i / 64
  · rw [if_pos hj.symm, if_pos hi, if_pos hj, Option.getD_some]
  · rw [if_neg fun h => hj h.symm, if_neg hj]

private theorem test_combine {bits : List (BitVec 64)} {i : ℕ} {w w' : BitVec 64}
    {f : Bool → Bool → Bool} (hw : bits[i / 64]? = some w)
    (hw' : ∀ k < 64, w'.getLsbD k = f (w.getLsbD k) ((mask i).getLsbD k))
    (hf : ∀ b, f b false = b) (j : ℕ) :
    test (bits.set (i / 64) w') j = f (test bits j) (decide (j = i)) := by
  obtain ⟨hi, -⟩ := List.getElem?_eq_some_iff.mp hw
  rw [test_set hi]
  by_cases hj : j / 64 = i / 64
  · have htest : test bits j = w.getLsbD (j % 64) := by
      rw [test, List.getD_eq_getElem?_getD, hj, hw, Option.getD_some]
    rw [if_pos hj, hw' _ (Nat.mod_lt j (by decide)), getLsbD_mask, htest]
    congr 2
    exact propext ⟨fun h => by omega, fun h => h ▸ rfl⟩
  · have hne : j ≠ i := fun h => hj (h ▸ rfl)
    rw [if_neg hj, decide_eq_false hne, hf]

/-- Or-ing the mask into the word adds the index. -/
theorem test_insert {bits : List (BitVec 64)} {i : ℕ} {w : BitVec 64}
    (hw : bits[i / 64]? = some w) (j : ℕ) :
    test (bits.set (i / 64) (w ||| mask i)) j = (test bits j || decide (j = i)) :=
  test_combine hw (fun _ _ => BitVec.getLsbD_or) Bool.or_false j

/-- And-ing the word with the complement of the mask removes the index. -/
theorem test_erase {bits : List (BitVec 64)} {i : ℕ} {w : BitVec 64}
    (hw : bits[i / 64]? = some w) (j : ℕ) :
    test (bits.set (i / 64) (w &&& ~~~mask i)) j = (test bits j && !decide (j = i)) := by
  refine test_combine (f := fun b m => b && !m) hw (fun k hk => ?_) Bool.and_true j
  rw [BitVec.getLsbD_and, BitVec.getLsbD_not, decide_eq_true hk, Bool.true_and]

end PackedBits
