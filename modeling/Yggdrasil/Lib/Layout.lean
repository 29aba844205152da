import Mathlib.Algebra.BigOperators.Group.List.Basic
import Mathlib.Algebra.Order.BigOperators.Group.Finset
import Mathlib.Algebra.Ring.Nat
import Mathlib.Order.Interval.Finset.Nat

/-!
# Consecutive blocks

Items of various sizes laid out one after the other. Each item has an offset, the
blocks of distinct items do not overlap, and together they fill the area. Adding an
item at the end does not move the others. Blocks placed anywhere in given regions
take no more space than the regions have.
-/

namespace Layout

variable {α : Type} (size : α → ℕ)

/-- The space all items take. -/
def total (items : List α) : ℕ := (items.map size).sum

/-- Two lists of items take the space of both. -/
@[simp] theorem total_append (items more : List α) :
    total size (items ++ more) = total size items + total size more := by
  simp [total]

/-- The space of one item. -/
@[simp] theorem total_singleton (a : α) : total size [a] = size a := by
  simp [total]

variable [DecidableEq α]

/-- Where the block of an item starts. -/
def offset : List α → α → ℕ
  | [], _ => 0
  | b :: items, a => if b = a then 0 else size b + offset items a

variable {size} {items : List α} {a b : α}

/-- Items placed later do not move earlier ones. -/
theorem offset_append (ha : a ∈ items) (more : List α) :
    offset size (items ++ more) a = offset size items a := by
  induction items with
  | nil => cases ha
  | cons b items ih =>
    by_cases hb : b = a
    · simp [offset, hb]
    · have htail : a ∈ items := (List.mem_cons.mp ha).resolve_left (Ne.symm hb)
      simp [offset, hb, ih htail]

/-- A new item is placed after all others. -/
theorem offset_append_of_notMem (ha : a ∉ items) (more : List α) :
    offset size (items ++ a :: more) a = total size items := by
  induction items with
  | nil => simp [offset, total]
  | cons b items ih =>
    have hb : b ≠ a := fun h => ha (h ▸ List.mem_cons_self ..)
    have htail : a ∉ items := fun h => ha (List.mem_cons_of_mem _ h)
    simp [offset, hb, ih htail, total]

/-- Every block lies inside the area. -/
theorem offset_add_size_le (ha : a ∈ items) :
    offset size items a + size a ≤ total size items := by
  induction items with
  | nil => cases ha
  | cons b items ih =>
    by_cases hb : b = a
    · simp [offset, hb, total]
    · have htail := ih ((List.mem_cons.mp ha).resolve_left (Ne.symm hb))
      simp only [offset, hb, if_false, total, List.map_cons, List.sum_cons] at htail ⊢
      omega

/-- Blocks of distinct items do not overlap. -/
theorem offset_disjoint (ha : a ∈ items) (hb : b ∈ items) (hab : a ≠ b) :
    offset size items a + size a ≤ offset size items b ∨
      offset size items b + size b ≤ offset size items a := by
  induction items with
  | nil => cases ha
  | cons c items ih =>
    by_cases hca : c = a
    · subst hca
      left
      simp [offset, hab]
    · by_cases hcb : c = b
      · subst hcb
        right
        simp [offset, hca]
      · have ha' := (List.mem_cons.mp ha).resolve_left (Ne.symm hca)
        have hb' := (List.mem_cons.mp hb).resolve_left (Ne.symm hcb)
        have := ih ha' hb'
        simp only [offset, hca, hcb, if_false]
        omega

/-- A list without repetition takes at most the space of a set that contains it. -/
theorem total_le_sum {s : Finset α} (hnodup : items.Nodup) (hsub : ∀ a ∈ items, a ∈ s) :
    total size items ≤ ∑ a ∈ s, size a := by
  have htotal : total size items = ∑ a ∈ items.toFinset, size a := by
    rw [total, List.sum_toFinset size hnodup]
  rw [htotal]
  exact Finset.sum_le_sum_of_subset fun a ha => hsub a (List.mem_toFinset.mp ha)

/-- A list without repetition takes the space of the set of its items. -/
theorem total_eq_sum {s : Finset α} (hnodup : items.Nodup) (hmem : ∀ a, a ∈ items ↔ a ∈ s) :
    total size items = ∑ a ∈ s, size a := by
  have hset : items.toFinset = s := by
    ext a
    rw [List.mem_toFinset, hmem]
  rw [total, ← hset, List.sum_toFinset size hnodup]

/-- The cells of regions, each given by its first cell and its length. -/
def cells : List (ℕ × ℕ) → Finset ℕ
  | [] => ∅
  | r :: rs => Finset.Ico r.1 (r.1 + r.2) ∪ cells rs

private theorem mem_cells {rs : List (ℕ × ℕ)} {c : ℕ} :
    c ∈ cells rs ↔ ∃ r ∈ rs, r.1 ≤ c ∧ c < r.1 + r.2 := by
  induction rs with
  | nil => simp [cells]
  | cons r rs ih => simp [cells, ih]

private theorem card_cells_le (rs : List (ℕ × ℕ)) : (cells rs).card ≤ (rs.map Prod.snd).sum := by
  induction rs with
  | nil => simp [cells]
  | cons r rs ih =>
    have hunion := Finset.card_union_le (Finset.Ico r.1 (r.1 + r.2)) (cells rs)
    rw [Nat.card_Ico] at hunion
    rw [cells, List.map_cons, List.sum_cons]
    omega

/-- Disjoint blocks inside regions take no more cells than the regions have. -/
theorem sum_size_le {size : ℕ → ℕ} {live : Finset ℕ} {rs : List (ℕ × ℕ)}
    (hdisj : ∀ a ∈ live, ∀ b ∈ live, a ≠ b → a + size a ≤ b ∨ b + size b ≤ a)
    (hin : ∀ a ∈ live, ∃ r ∈ rs, r.1 ≤ a ∧ a + size a ≤ r.1 + r.2) :
    ∑ a ∈ live, size a ≤ (rs.map Prod.snd).sum := by
  have hpair : (live : Set ℕ).PairwiseDisjoint fun a => Finset.Ico a (a + size a) := by
    intro a ha b hb hab
    have hapart := hdisj a ha b hb hab
    refine Finset.disjoint_left.mpr fun c hca hcb => ?_
    rw [Finset.mem_Ico] at hca hcb
    omega
  have hcard : (live.biUnion fun a => Finset.Ico a (a + size a)).card = ∑ a ∈ live, size a := by
    rw [Finset.card_biUnion hpair]
    simp
  have hsub : (live.biUnion fun a => Finset.Ico a (a + size a)) ⊆ cells rs := by
    intro c hc
    obtain ⟨a, ha, hca⟩ := Finset.mem_biUnion.mp hc
    obtain ⟨r, hr, hle, hend⟩ := hin a ha
    rw [Finset.mem_Ico] at hca
    exact mem_cells.mpr ⟨r, hr, by omega, by omega⟩
  rw [← hcard]
  exact (Finset.card_le_card hsub).trans (card_cells_le rs)

end Layout
