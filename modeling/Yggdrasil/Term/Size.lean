import Yggdrasil.Term.Object
import Mathlib.Algebra.Order.BigOperators.Group.Finset

/-!
# Sizes of terms

`term_size_words` adds up the words a deep copy of a term would take. It counts an
object once for every path to it, in `usize` arithmetic, so the sum wraps around.
-/

namespace Yggdrasil

/-- The sum over `i..i+n` of fallible word counts. -/
def sumBelow (f : ℕ → Except Halt Word) : ℕ → ℕ → Except Halt Word
  | _, 0 => .ok 0
  | i, n + 1 => do
    let w ← f i
    let rest ← sumBelow f (i + 1) n
    return w + rest

/-- Words needed to deep-copy a term, modulo the word size. The fuel bounds the
length of paths in the term. -/
def termSizeWords (mem : Mem) : ℕ → Term → Except Halt Word
  | 0, _ => .error .limit
  | n + 1, t =>
    match t.kind mem with
    | none => .error .panic
    | some .tuple => do
      let w ← sumBelow (fun i => termSizeWords mem n (t.tupleElem mem i)) 0 (t.tupleArity mem)
      return BitVec.ofNat 64 (1 + t.tupleArity mem) + w
    | some .binary => .ok (BitVec.ofNat 64 (1 + (t.headerLen mem + 7) / 8))
    | some .map => do
      let w ← sumBelow (fun i => termSizeWords mem n (t.mapVal mem i)) 0 (t.mapArity mem)
      return BitVec.ofNat 64 (1 + 2 * t.mapArity mem) + w
    | some .cons => do
      let h ← termSizeWords mem n (t.head mem)
      let l ← termSizeWords mem n (t.tail mem)
      return 3 + h + l
    | some _ => .ok 0

/-- The `i`-th reference of the object a term points at. -/
def Term.child (mem : Mem) (t : Term) (i : ℕ) : Term :=
  ⟨mem (t.addr + (refStart (mem t.addr) + i))⟩

/-- Words of all objects on all paths of length below `n` from a term. -/
def treeWords (mem : Mem) : ℕ → Term → ℕ
  | 0, _ => 0
  | n + 1, t =>
    if t.isBoxed then
      sizeAt mem t.addr +
        ∑ i ∈ Finset.range (refCount (mem t.addr)), treeWords mem n (t.child mem i)
    else 0

/-- All paths from a term are shorter than `n`. -/
def DepthLt (mem : Mem) : ℕ → Term → Prop
  | 0, _ => False
  | n + 1, t => t.isBoxed = true → ∀ i < refCount (mem t.addr), DepthLt mem n (t.child mem i)

/-- A word that is an immediate term or points into `space`. -/
def Term.Valid (space : Set ℕ) (t : Term) : Prop := t.tag ≠ kindFwd ∧ t.RefersTo space

/-- A space whose objects hold only valid terms. -/
structure TermSpace (mem : Mem) (space : Set ℕ) : Prop extends Space mem space where
  /-- No reference or key has the reserved tag. -/
  tags : ∀ a ∈ space, ∀ j, IsRef (mem a) j ∨ IsKey (mem a) j →
    Term.tag ⟨mem (a + j)⟩ ≠ kindFwd

/-- The kind of a boxed object. -/
def Box.kind : Box → Kind
  | .tuple => .tuple
  | .cons => .cons
  | .binary => .binary
  | .map => .map

/-- The kind of a pointer is read from the header it points at. -/
theorem Term.kind_boxed (mem : Mem) {t : Term} (h : t.isBoxed = true) :
    t.kind mem = (boxKind (t.header mem)).map Box.kind := by
  have htag : t.tag = tagBoxed := by simpa [Term.isBoxed] using h
  have hne : ∀ w : Word, w ≠ tagBoxed → t.tag ≠ w := fun w hw heq => hw (heq ▸ htag)
  unfold Term.kind boxKind
  rw [if_neg (hne _ (by decide)), if_neg (hne _ (by decide)), if_neg (hne _ (by decide)),
    if_neg (hne _ (by decide)), if_neg (hne _ (by decide)), if_neg (hne _ (by decide)),
    if_pos htag]
  split_ifs <;> rfl

/-- The kind of an immediate is not a box kind. -/
theorem Term.kind_immediate (mem : Mem) {t : Term} (h : t.isBoxed = false)
    (htag : t.tag ≠ kindFwd) :
    ∃ k, t.kind mem = some k ∧ k ≠ .tuple ∧ k ≠ .cons ∧ k ≠ .binary ∧ k ≠ .map := by
  have hbox : t.tag ≠ tagBoxed := by simpa [Term.isBoxed] using h
  have hlt : t.tag.toNat < 8 := by
    rw [Term.toNat_tag]
    omega
  have hcases : t.tag = tagInt ∨ t.tag = tagAtom ∨ t.tag = tagPid ∨ t.tag = tagRef ∨
      t.tag = tagSpecial ∨ t.tag = tagPort := by
    have hnat : t.tag.toNat ≠ 0 ∧ t.tag.toNat ≠ 7 :=
      ⟨fun h0 => hbox (BitVec.eq_of_toNat_eq h0), fun h7 => htag (BitVec.eq_of_toNat_eq h7)⟩
    have hall : t.tag.toNat = 1 ∨ t.tag.toNat = 2 ∨ t.tag.toNat = 3 ∨ t.tag.toNat = 4 ∨
        t.tag.toNat = 5 ∨ t.tag.toNat = 6 := by omega
    rcases hall with h | h | h | h | h | h
    · exact .inl (BitVec.eq_of_toNat_eq h)
    · exact .inr (.inl (BitVec.eq_of_toNat_eq h))
    · exact .inr (.inr (.inl (BitVec.eq_of_toNat_eq h)))
    · exact .inr (.inr (.inr (.inl (BitVec.eq_of_toNat_eq h))))
    · exact .inr (.inr (.inr (.inr (.inl (BitVec.eq_of_toNat_eq h)))))
    · exact .inr (.inr (.inr (.inr (.inr (BitVec.eq_of_toNat_eq h)))))
  rcases hcases with h | h | h | h | h | h
  · exact ⟨.int, by simp [Term.kind, h], by decide⟩
  · exact ⟨.atom, by simp [Term.kind, h, tagInt, tagAtom], by decide⟩
  · exact ⟨.pid, by simp [Term.kind, h, tagInt, tagAtom, tagPid], by decide⟩
  · exact ⟨.ref, by simp [Term.kind, h, tagInt, tagAtom, tagPid, tagRef], by decide⟩
  · exact ⟨.nil, by simp [Term.kind, h, tagInt, tagAtom, tagPid, tagRef, tagSpecial], by decide⟩
  · exact ⟨.port, by simp [Term.kind, h, tagInt, tagAtom, tagPid, tagRef, tagSpecial, tagPort],
      by decide⟩

private theorem sumBelow_ok {f : ℕ → Except Halt Word} {v : ℕ → ℕ} {k n : ℕ}
    (h : ∀ i < n, f (k + i) = .ok (BitVec.ofNat 64 (v (k + i)))) :
    sumBelow f k n = .ok (BitVec.ofNat 64 (∑ i ∈ Finset.range n, v (k + i))) := by
  induction n generalizing k with
  | zero => rfl
  | succ n ih =>
    have hhead : f k = .ok (BitVec.ofNat 64 (v k)) := by simpa using h 0 (by omega)
    have htail := @ih (k + 1) fun i hi => by
      simpa [Nat.add_assoc, Nat.add_comm 1 i] using h (i + 1) (by omega)
    have hsum : ∑ i ∈ Finset.range (n + 1), v (k + i) =
        v k + ∑ i ∈ Finset.range n, v (k + 1 + i) := by
      rw [Finset.sum_range_succ', Nat.add_comm]
      simp [Nat.add_assoc, Nat.add_comm 1]
    rw [sumBelow, hhead, htail, hsum, BitVec.ofNat_add]
    rfl

private theorem sumBelow_inv {f : ℕ → Except Halt Word} {k n : ℕ} {w : Word}
    (h : sumBelow f k n = .ok w) : ∀ i < n, ∃ w', f (k + i) = .ok w' := by
  induction n generalizing k w with
  | zero => simp
  | succ n ih =>
    intro i hi
    rw [sumBelow] at h
    cases hhead : f k with
    | error e =>
      rw [hhead] at h
      cases h
    | ok w₀ =>
      cases htail : sumBelow f (k + 1) n with
      | error e =>
        rw [hhead, htail] at h
        cases h
      | ok w₁ =>
        cases i with
        | zero => exact ⟨w₀, hhead⟩
        | succ i =>
          obtain ⟨w', hw'⟩ := ih htail i (by omega)
          exact ⟨w', by simpa [Nat.add_assoc, Nat.add_comm 1 i] using hw'⟩

private theorem termSizeWords_immediate {mem : Mem} {t : Term} (h : t.isBoxed = false)
    (htag : t.tag ≠ kindFwd) (n : ℕ) : termSizeWords mem (n + 1) t = .ok 0 := by
  obtain ⟨k, hk, h₁, h₂, h₃, h₄⟩ := Term.kind_immediate mem h htag
  rw [termSizeWords, hk]
  cases k <;> first | rfl | contradiction

private theorem termSizeWords_boxed {mem : Mem} {t : Term} (h : t.isBoxed = true)
    (hkind : (objWords (mem t.addr)).isSome = true) (n : ℕ) :
    termSizeWords mem (n + 1) t =
      (sumBelow (fun i => termSizeWords mem n (t.child mem i)) 0 (refCount (mem t.addr))).map
        fun w => BitVec.ofNat 64 (sizeAt mem t.addr) + w := by
  have hk := Term.kind_boxed mem h
  rw [Term.header] at hk
  rw [termSizeWords, hk]
  obtain ⟨box, hbox⟩ : ∃ box, boxKind (mem t.addr) = some box := by
    rcases hbox : boxKind (mem t.addr) with _ | box
    · simp [objWords, hbox] at hkind
    · exact ⟨box, rfl⟩
  have hsize : sizeAt mem t.addr = (objWords (mem t.addr)).getD 0 := rfl
  cases box <;>
    simp only [hbox, Option.map_some, Box.kind, hsize, objWords, Option.getD_some]
  case tuple =>
    have hcount : refCount (mem t.addr) = t.tupleArity mem := by simp [refCount, hbox]; rfl
    have hchild : (fun i => termSizeWords mem n (t.child mem i)) =
        fun i => termSizeWords mem n (t.tupleElem mem i) := by
      funext i
      simp [Term.child, Term.tupleElem, refStart, hbox, Nat.add_assoc]
    rw [hcount, hchild]
    rfl
  case cons =>
    have hcount : refCount (mem t.addr) = 2 := by simp [refCount, hbox]
    have hhead : t.child mem 0 = t.head mem := by simp [Term.child, Term.head, refStart, hbox]
    have htail : t.child mem 1 = t.tail mem := by simp [Term.child, Term.tail, refStart, hbox]
    simp only [hcount, sumBelow, Nat.zero_add, hhead, htail]
    cases termSizeWords mem n (t.head mem) with
    | error e => rfl
    | ok h =>
      cases termSizeWords mem n (t.tail mem) with
      | error e => rfl
      | ok l =>
        change Except.ok (3 + h + l) = Except.ok (BitVec.ofNat 64 3 + (h + (l + 0#64)))
        rw [BitVec.add_zero, BitVec.add_assoc]
        rfl
  case binary =>
    have hcount : refCount (mem t.addr) = 0 := by simp [refCount, hbox]
    rw [hcount]
    change Except.ok _ = Except.ok (_ + 0#64)
    rw [BitVec.add_zero]
    rfl
  case map =>
    have hcount : refCount (mem t.addr) = t.mapArity mem := by simp [refCount, hbox]; rfl
    have hchild : (fun i => termSizeWords mem n (t.child mem i)) =
        fun i => termSizeWords mem n (t.mapVal mem i) := by
      funext i
      simp [Term.child, Term.mapVal, Term.mapArity, Term.headerLen, Term.header, refStart, hbox,
        headerArity, Nat.add_assoc]
    rw [hcount, hchild]
    rfl

section

variable {mem : Mem} {space : Set ℕ}

/-- Terms read from a valid object are valid. -/
theorem TermSpace.valid_child (hspace : TermSpace mem space) {t : Term} (ht : t.Valid space)
    (hboxed : t.isBoxed = true) {i : ℕ} (hi : i < refCount (mem t.addr)) :
    (t.child mem i).Valid space := by
  have ha := ht.2 hboxed
  have href : IsRef (mem t.addr) (refStart (mem t.addr) + i) := ⟨by omega, by omega⟩
  exact ⟨hspace.tags _ ha _ (.inl href), (hspace.ok _ ha).refs _ href⟩

/-- The size of a term of finite depth is its tree size, wrapped. -/
theorem termSizeWords_ok (hspace : TermSpace mem space) {n : ℕ} {t : Term}
    (ht : t.Valid space) (hdepth : DepthLt mem n t) :
    termSizeWords mem n t = .ok (BitVec.ofNat 64 (treeWords mem n t)) := by
  induction n generalizing t with
  | zero => exact hdepth.elim
  | succ n ih =>
    by_cases hboxed : t.isBoxed = true
    · have hkind := (hspace.ok _ (ht.2 hboxed)).kind
      have hchildren : ∀ i < refCount (mem t.addr), termSizeWords mem n (t.child mem (0 + i)) =
          .ok (BitVec.ofNat 64 (treeWords mem n (t.child mem (0 + i)))) := fun i hi => by
        rw [Nat.zero_add]
        exact ih (hspace.valid_child ht hboxed hi) (hdepth hboxed i hi)
      have hsum := sumBelow_ok (f := fun i => termSizeWords mem n (t.child mem i))
        (v := fun i => treeWords mem n (t.child mem i)) hchildren
      rw [termSizeWords_boxed hboxed hkind, hsum, treeWords, if_pos hboxed, BitVec.ofNat_add]
      simp only [Nat.zero_add]
      rfl
    · have hboxed' : t.isBoxed = false := by simpa using hboxed
      rw [termSizeWords_immediate hboxed' ht.1, treeWords, if_neg hboxed]
      rfl

/-- Only terms of finite depth have a size. -/
theorem depthLt_of_termSizeWords (hspace : TermSpace mem space) {n : ℕ} {t : Term} {w : Word}
    (ht : t.Valid space) (h : termSizeWords mem n t = .ok w) : DepthLt mem n t := by
  induction n generalizing t w with
  | zero => cases h
  | succ n ih =>
    intro hboxed i hi
    rw [termSizeWords_boxed hboxed (hspace.ok _ (ht.2 hboxed)).kind] at h
    cases hsum : sumBelow (fun i => termSizeWords mem n (t.child mem i)) 0
        (refCount (mem t.addr)) with
    | error e =>
      rw [hsum] at h
      cases h
    | ok w₀ =>
      obtain ⟨w', hw'⟩ := sumBelow_inv hsum i hi
      rw [Nat.zero_add] at hw'
      exact ih (hspace.valid_child ht hboxed hi) hw'

/-- A bound on the length of paths is positive. -/
theorem DepthLt.exists_succ {n : ℕ} {t : Term} (h : DepthLt mem n t) : ∃ k, n = k + 1 := by
  cases n with
  | zero => exact h.elim
  | succ n => exact ⟨n, rfl⟩

/-- Greater depth bounds are weaker. -/
theorem DepthLt.mono {n k : ℕ} {t : Term} (h : DepthLt mem n t) (hle : n ≤ k) :
    DepthLt mem k t := by
  induction n generalizing k t with
  | zero => exact h.elim
  | succ n ih =>
    obtain ⟨k, rfl⟩ : ∃ k', k = k' + 1 := ⟨k - 1, by omega⟩
    exact fun hboxed i hi => ih (h hboxed i hi) (by omega)

/-- The tree size does not depend on the depth bound. -/
theorem treeWords_eq_of_le {n k : ℕ} {t : Term} (h : DepthLt mem n t) (hle : n ≤ k) :
    treeWords mem k t = treeWords mem n t := by
  induction n generalizing k t with
  | zero => exact h.elim
  | succ n ih =>
    obtain ⟨k, rfl⟩ : ∃ k', k = k' + 1 := ⟨k - 1, by omega⟩
    by_cases hboxed : t.isBoxed = true
    · rw [treeWords, treeWords, if_pos hboxed, if_pos hboxed]
      congr 1
      refine Finset.sum_congr rfl fun i hi => ?_
      exact ih (h hboxed i (Finset.mem_range.mp hi)) (by omega)
    · rw [treeWords, treeWords, if_neg hboxed, if_neg hboxed]

/-- A sum over a union is at most the sum of the sums. -/
theorem sum_union_le (f : ℕ → ℕ) (s t : Finset ℕ) :
    ∑ a ∈ s ∪ t, f a ≤ ∑ a ∈ s, f a + ∑ a ∈ t, f a := by
  rw [← Finset.sum_union_inter]
  exact Nat.le_add_right ..

private theorem sum_biUnion_le (f : ℕ → ℕ) (s : Finset ℕ) (t : ℕ → Finset ℕ) :
    ∑ a ∈ s.biUnion t, f a ≤ ∑ i ∈ s, ∑ a ∈ t i, f a := by
  induction s using Finset.induction_on with
  | empty => simp
  | insert i s hi ih =>
    rw [Finset.biUnion_insert, Finset.sum_insert hi]
    exact (sum_union_le f _ _).trans (Nat.add_le_add_left ih _)

/-- The distinct objects reachable from a term take at most its tree size. -/
theorem exists_cover {n : ℕ} {t : Term} (h : DepthLt mem n t) :
    ∃ cover : Finset ℕ, (∀ a, t.isBoxed = true → Relation.ReflTransGen (RefersTo mem) t.addr a →
      a ∈ cover) ∧ ∑ a ∈ cover, sizeAt mem a ≤ treeWords mem n t := by
  induction n generalizing t with
  | zero => exact h.elim
  | succ n ih =>
    by_cases hboxed : t.isBoxed = true
    · choose! cover hcover hle using fun i (hi : i < refCount (mem t.addr)) => ih (h hboxed i hi)
      refine ⟨{t.addr} ∪ (Finset.range (refCount (mem t.addr))).biUnion cover, ?_, ?_⟩
      · intro a _ hpath
        rcases Relation.ReflTransGen.cases_head hpath with rfl | ⟨b, hb, hrest⟩
        · simp
        · obtain ⟨j, hj, hbj, rfl⟩ := hb
          obtain ⟨i, rfl⟩ : ∃ i, j = refStart (mem t.addr) + i := ⟨_, (Nat.add_sub_of_le hj.1).symm⟩
          have hi : i < refCount (mem t.addr) := by
            have := hj.2
            omega
          have hmem := hcover i hi a hbj hrest
          simp only [Finset.mem_union, Finset.mem_biUnion, Finset.mem_range]
          exact .inr ⟨i, hi, hmem⟩
      · rw [treeWords, if_pos hboxed]
        refine (sum_union_le _ _ _).trans ?_
        rw [Finset.sum_singleton]
        refine Nat.add_le_add_left ((sum_biUnion_le _ _ _).trans ?_) _
        exact Finset.sum_le_sum fun i hi => hle i (Finset.mem_range.mp hi)
    · exact ⟨∅, fun a hb => absurd hb hboxed, by simp⟩

end

end Yggdrasil
