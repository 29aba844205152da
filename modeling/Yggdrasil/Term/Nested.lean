import Yggdrasil.Term.Valid

/-!
# Nested pairs that share everything

A binary below pairs of which each holds its predecessor twice: few words of memory, and a
number of paths that doubles with every pair.
-/

namespace Yggdrasil

/-- Addresses of nested pairs: a binary, and pairs of which each holds its
predecessor twice. -/
def nestedAddr : ℕ → ℕ
  | 0 => 512
  | k + 1 => 4605 + 3 * k

/-- A binary of 4093 words below nested pairs that share everything. -/
def nestedMem : Mem := fun c =>
  if c = 512 then Heap.headerWord 32736 kindBinary
  else if c < 4605 then 0
  else if (c - 4605) % 3 = 0 then Heap.headerWord 2 kindTuple
  else (Term.ofAddr (nestedAddr ((c - 4605) / 3))).word

/-- The binary and the first `n` pairs. -/
def nestedPairs (n : ℕ) : Set ℕ := {a | ∃ k ≤ n, a = nestedAddr k}

private theorem nestedMem_header (k : ℕ) :
    nestedMem (nestedAddr (k + 1)) = Heap.headerWord 2 kindTuple := by
  have h0 : nestedAddr (k + 1) ≠ 512 := by simp only [nestedAddr]; omega
  have h1 : ¬nestedAddr (k + 1) < 4605 := by simp only [nestedAddr]; omega
  have h2 : (nestedAddr (k + 1) - 4605) % 3 = 0 := by simp only [nestedAddr]; omega
  simp only [nestedMem, h0, h1, h2, if_true, if_false]

private theorem nestedMem_field (k : ℕ) {j : ℕ} (hpos : 1 ≤ j) (hj : j < 3) :
    nestedMem (nestedAddr (k + 1) + j) = (Term.ofAddr (nestedAddr k)).word := by
  have h0 : nestedAddr (k + 1) + j ≠ 512 := by simp only [nestedAddr]; omega
  have h1 : ¬nestedAddr (k + 1) + j < 4605 := by simp only [nestedAddr]; omega
  have h2 : (nestedAddr (k + 1) + j - 4605) % 3 ≠ 0 := by simp only [nestedAddr]; omega
  have h3 : (nestedAddr (k + 1) + j - 4605) / 3 = k := by simp only [nestedAddr]; omega
  simp only [nestedMem, h0, h1, h2, h3, if_false]

private theorem nestedMem_isRef (k : ℕ) {j : ℕ} :
    IsRef (nestedMem (nestedAddr (k + 1))) j ↔ 1 ≤ j ∧ j < 3 := by
  rw [nestedMem_header]
  exact Iff.rfl

/-- The pairs are at the addresses of the terms for them. -/
theorem nested_addr {k : ℕ} (hk : k ≤ 64) :
    (Term.ofAddr (nestedAddr k)).addr = nestedAddr k := by
  refine Term.addr_ofAddr ?_
  cases k with
  | zero => decide
  | succ k =>
    simp only [nestedAddr]
    omega

/-- The size of the binary. -/
theorem nested_size_zero : sizeAt nestedMem (nestedAddr 0) = 4093 := by decide

private theorem nested_size_succ (k : ℕ) : sizeAt nestedMem (nestedAddr (k + 1)) = 3 := by
  rw [sizeAt, nestedMem_header]
  decide

private theorem nested_child (k : ℕ) {i : ℕ} (hk : k < 64) (hi : i < 2) :
    (Term.ofAddr (nestedAddr (k + 1))).child nestedMem i = Term.ofAddr (nestedAddr k) := by
  rw [Term.child, nested_addr hk, nestedMem_header,
    show refStart (Heap.headerWord 2 kindTuple) = 1 by decide,
    nestedMem_field k (by omega) (by omega)]

/-- The terms for the pairs are valid. -/
theorem nested_valid {n k : ℕ} (hn : n ≤ 64) (hk : k ≤ n) :
    (Term.ofAddr (nestedAddr k)).Valid (nestedPairs n) := by
  constructor
  · have hboxed := Term.isBoxed_ofAddr (nestedAddr k)
    intro htag
    rw [Term.isBoxed, htag] at hboxed
    exact absurd hboxed (by decide)
  · intro _
    exact ⟨k, hk, nested_addr (hk.trans hn)⟩

private theorem nested_noRef (j : ℕ) : ¬IsRef (nestedMem (nestedAddr 0)) j := by
  rintro ⟨hlo, hhi⟩
  rw [show refStart (nestedMem (nestedAddr 0)) = 1 by decide] at hlo hhi
  rw [show refCount (nestedMem (nestedAddr 0)) = 0 by decide] at hhi
  omega

private theorem nested_noKey (k j : ℕ) : ¬IsKey (nestedMem (nestedAddr k)) j := by
  rintro ⟨hmap, -⟩
  cases k with
  | zero => exact absurd hmap (by decide)
  | succ k =>
    rw [nestedMem_header] at hmap
    exact absurd hmap (by decide)

private theorem nested_disjoint {i k : ℕ} (h : i < k) :
    nestedAddr i + sizeAt nestedMem (nestedAddr i) ≤ nestedAddr k := by
  cases k with
  | zero => omega
  | succ k =>
    cases i with
    | zero =>
      rw [nested_size_zero]
      simp only [nestedAddr]
      omega
    | succ i =>
      rw [nested_size_succ]
      simp only [nestedAddr]
      omega

/-- Where an object ends. -/
theorem nested_end (k : ℕ) :
    nestedAddr k + sizeAt nestedMem (nestedAddr k) = 4605 + 3 * k := by
  cases k with
  | zero => rw [nested_size_zero]; rfl
  | succ k =>
    rw [nested_size_succ]
    simp only [nestedAddr]
    omega

/-- The binary and the pairs form a space. -/
theorem nested_space {n : ℕ} (hn : n ≤ 64) : TermSpace nestedMem (nestedPairs n) where
  ok := by
    rintro _ ⟨k, hk, rfl⟩
    have hend := nested_end k
    cases k with
    | zero => exact ⟨by decide, fun j hj => absurd hj (nested_noRef j),
        fun j hj => absurd hj (nested_noKey 0 j), by omega⟩
    | succ k =>
      refine ⟨?_, fun j hj => ?_, fun j hj => absurd hj (nested_noKey _ j), by omega⟩
      · rw [nestedMem_header]
        decide
      · obtain ⟨hlo, hhi⟩ := (nestedMem_isRef k).mp hj
        rw [nestedMem_field k hlo hhi]
        exact (nested_valid hn (by omega : k ≤ n)).2
  disjoint := by
    rintro _ ⟨i, hi, rfl⟩ _ ⟨k, hk, rfl⟩ hne
    rcases Nat.lt_trichotomy i k with h | rfl | h
    · exact .inl (nested_disjoint h)
    · exact absurd rfl hne
    · exact .inr (nested_disjoint h)
  tags := by
    rintro _ ⟨k, hk, rfl⟩ j (hj | hj)
    · cases k with
      | zero => exact absurd hj (nested_noRef j)
      | succ k =>
        obtain ⟨hlo, hhi⟩ := (nestedMem_isRef k).mp hj
        rw [nestedMem_field k hlo hhi]
        exact (nested_valid hn (by omega : k ≤ n)).1
    · exact absurd hj (nested_noKey k j)

/-- The depth of a pair, and its size. -/
theorem nested_tree {k : ℕ} (hk : k ≤ 64) :
    DepthLt nestedMem (k + 1) (Term.ofAddr (nestedAddr k)) ∧
      treeWords nestedMem (k + 1) (Term.ofAddr (nestedAddr k)) + 3 = 2 ^ k * 4096 := by
  induction k with
  | zero =>
    have hrefs : refCount (nestedMem (Term.ofAddr (nestedAddr 0)).addr) = 0 := by
      rw [nested_addr hk]
      decide
    constructor
    · intro _ i hi
      omega
    · rw [treeWords, if_pos (Term.isBoxed_ofAddr _), hrefs, nested_addr hk, nested_size_zero]
      rfl
  | succ k ih =>
    obtain ⟨hdepth, hwords⟩ := ih (by omega)
    have hrefs : refCount (nestedMem (Term.ofAddr (nestedAddr (k + 1))).addr) = 2 := by
      rw [nested_addr hk, nestedMem_header]
      decide
    constructor
    · intro _ i hi
      rw [nested_child k (by omega) (by omega)]
      exact hdepth
    · rw [treeWords, if_pos (Term.isBoxed_ofAddr _), hrefs, nested_addr hk, nested_size_succ,
        Finset.sum_range_succ, Finset.sum_range_one, nested_child k (by omega) (by omega),
        nested_child k (by omega) (by omega)]
      omega

/-- A pair refers to its predecessor. -/
theorem nested_refersTo {k : ℕ} (hk : k < 64) :
    RefersTo nestedMem (nestedAddr (k + 1)) (nestedAddr k) := by
  have hfield := nestedMem_field k (Nat.le_refl 1) (by decide)
  refine ⟨1, (nestedMem_isRef k).mpr (by decide), ?_, ?_⟩
  · rw [hfield]
    exact Term.isBoxed_ofAddr _
  · rw [hfield]
    exact nested_addr (by omega)

end Yggdrasil
