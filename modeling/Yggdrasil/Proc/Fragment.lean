import Yggdrasil.Term.CopySpec
import Yggdrasil.Term.Nested

/-!
# Message fragments

A message travels in a fragment: a backing store of its own, sized by `term_size_words` for a
copy of the term. The count wraps around at the word size and the copy does not, so the two
agree exactly for terms of fewer than 2^64 words, counted along all paths.
-/

namespace Yggdrasil

open Evac

/-- A message in its own backing store. -/
structure Fragment where
  /-- Word index of the backing store. -/
  base : ℕ
  /-- Its words. -/
  words : ℕ
  /-- The message. -/
  root : Term
  deriving DecidableEq, Repr

namespace Fragment

/-- Memory with `words` words from `base` on set to zero. -/
def zeroed (mem : Mem) (base words : ℕ) : Mem := fun c =>
  if base ≤ c ∧ c < base + words then 0 else mem c

/-- `Fragment::copy_from`, with the backing store at `base`. The `expect` turns a copy that
does not fit into a panic. -/
def copyFrom (fuel base : ℕ) (t : Term) (mem : Mem) : Except Halt (Fragment × Mem) := do
  let w ← termSizeWords mem fuel t
  let words := max w.toNat 1
  match copyTerm fuel t ⟨zeroed mem base words, Heap.new base (words * 8)⟩ with
  | .ok root st => .ok (⟨base, words, root⟩, st.mem)
  | .error .fuel _ => .error .limit
  | .error _ _ => .error .panic

/-- A backing store of `words` words was allocated at `base`: it is clear of the objects of
`space` and lies in the address space. -/
def Backed (mem : Mem) (space : Set ℕ) (base words : ℕ) : Prop :=
  (∀ a ∈ space, a + sizeAt mem a ≤ base ∨ base + words ≤ a) ∧ base + words ≤ 2 ^ 61

end Fragment

section

variable {st : Store} {mem : Mem} {space : Set ℕ} {n : ℕ} {t : Term}

/-- `copy_term` is an exact deep copy of `t`: it succeeds when `term_size_words` words are
free, takes as many, and a copy that fails has written free words only. -/
structure CopyExact (st : Store) (n : ℕ) (t : Term) (w : Word) : Prop where
  /-- It succeeds exactly when there is room. -/
  succeeds : (∃ t' st', copyTerm n t st = .ok t' st') ↔ w.toNat ≤ st.heap.cap - st.heap.top
  /-- What it returns is a copy made of that many new words. -/
  copied : ∀ t' st', copyTerm n t st = .ok t' st' → Copied st w.toNat t t' st'
  /-- It fails for lack of room only, and then nothing was written but free words. -/
  fails : ∀ e st', copyTerm n t st = .error e st' →
    e = .heapFull ∧ st.Stuck (next st.heap) st'

private theorem Store.Needs.ok {α : Type} {lo w : ℕ} {P : α → Store → Prop}
    {r : EStateM.Result EvacError Store α} (h : st.Needs lo w P r) {a : α} {st' : Store}
    (hr : r = .ok a st') : st.heap.top + w ≤ st.heap.cap ∧ P a st' := by
  rcases h with ⟨hfits, a₀, st₀, hr₀, hP⟩ | ⟨-, st₀, hr₀, -⟩
  · rw [hr₀] at hr
    cases hr
    exact ⟨hfits, hP⟩
  · rw [hr₀] at hr
    cases hr

private theorem Store.Needs.error {α : Type} {lo w : ℕ} {P : α → Store → Prop}
    {r : EStateM.Result EvacError Store α} (h : st.Needs lo w P r) {e : EvacError}
    {st' : Store} (hr : r = .error e st') :
    st.heap.cap < st.heap.top + w ∧ e = .heapFull ∧ st.Stuck lo st' := by
  rcases h with ⟨-, a₀, st₀, hr₀, -⟩ | ⟨hfull, st₀, hr₀, hstuck⟩
  · rw [hr₀] at hr
    cases hr
  · rw [hr₀] at hr
    cases hr
    exact ⟨hfull, rfl, hstuck⟩

private theorem copyTerm_succeeds_iff (h : st.Apart (next st.heap) space) (ht : t.Valid space)
    (hdepth : DepthLt st.mem n t) : (∃ t' st', copyTerm n t st = .ok t' st') ↔
      st.heap.top + treeWords st.mem n t ≤ st.heap.cap := by
  have hneeds := copyTerm_copier space n st t h ht hdepth
  constructor
  · rintro ⟨t', st', hrun⟩
    exact (hneeds.ok hrun).1
  · intro hroom
    rcases hneeds with ⟨-, t', st', hrun, -⟩ | ⟨hfull, -⟩
    · exact ⟨t', st', hrun⟩
    · omega

/-- The copy is exact unless the count has wrapped to a number of words that is free. -/
private theorem copyExact_iff (h : st.Apart (next st.heap) space) (ht : t.Valid space)
    (hdepth : DepthLt st.mem n t) :
    CopyExact st n t (BitVec.ofNat 64 (treeWords st.mem n t)) ↔ treeWords st.mem n t < 2 ^ 64 ∨
      st.heap.cap - st.heap.top < treeWords st.mem n t % 2 ^ 64 := by
  have hneeds := copyTerm_copier space n st t h ht hdepth
  have hiff := copyTerm_succeeds_iff h ht hdepth
  have htop := h.top_le
  have hbound := h.bound
  have hnat : (BitVec.ofNat 64 (treeWords st.mem n t)).toNat = treeWords st.mem n t % 2 ^ 64 :=
    BitVec.toNat_ofNat ..
  constructor
  · intro hexact
    have hroom := hexact.succeeds
    rw [hiff, hnat] at hroom
    omega
  · intro hcond
    refine ⟨?_, fun t' st' hrun => ?_, fun e st' hrun => (hneeds.error hrun).2⟩
    · rw [hiff, hnat]
      omega
    · obtain ⟨hroom, hcopied⟩ := hneeds.ok hrun
      have hsmall : treeWords st.mem n t % 2 ^ 64 = treeWords st.mem n t :=
        Nat.mod_eq_of_lt (by omega)
      rw [hnat, hsmall]
      exact hcopied

private theorem Fragment.apart (hspace : TermSpace mem space) {base words : ℕ}
    (hback : Fragment.Backed mem space base words) :
    Agree mem (Fragment.zeroed mem base words) space ∧
      Store.Apart ⟨Fragment.zeroed mem base words, Heap.new base (words * 8)⟩
        (next (Heap.new base (words * 8))) space := by
  have hag : Agree mem (Fragment.zeroed mem base words) space := by
    intro a ha j hj
    have hclear := hback.1 a ha
    exact if_neg (by omega)
  have hcap : (Heap.new base (words * 8)).cap = words := Nat.mul_div_cancel words (by decide)
  have hnext : next (Heap.new base (words * 8)) = base := rfl
  refine ⟨hag, hspace.congr hag, fun a ha => ?_, Nat.le_refl _, Nat.zero_le _, ?_⟩
  · dsimp only
    rw [sizeAt, hag.header hspace ha, hcap, hnext]
    exact hback.1 a ha
  · dsimp only
    rw [hcap]
    exact hback.2

/-- The fragment has room for the copy exactly when the count has not wrapped. -/
private theorem Fragment.copyFrom_iff (hspace : TermSpace mem space) (ht : t.Valid space)
    (hdepth : DepthLt mem n t) {base : ℕ}
    (hback : Fragment.Backed mem space base (max (treeWords mem n t % 2 ^ 64) 1)) :
    (treeWords mem n t < 2 ^ 64 ∧ ∃ r, Fragment.copyFrom n base t mem = .ok r) ∨
      (2 ^ 64 ≤ treeWords mem n t ∧ Fragment.copyFrom n base t mem = .error .panic) := by
  have hnat : (BitVec.ofNat 64 (treeWords mem n t)).toNat = treeWords mem n t % 2 ^ 64 :=
    BitVec.toNat_ofNat ..
  obtain ⟨hag, hapart⟩ := Fragment.apart hspace hback
  have hneeds := copyTerm_copier space n _ t hapart ht ((hag.depthLt hspace ht).2 hdepth)
  rw [hag.treeWords hspace ht] at hneeds
  have hcap : (Heap.new base (max (treeWords mem n t % 2 ^ 64) 1 * 8)).cap =
      max (treeWords mem n t % 2 ^ 64) 1 := Nat.mul_div_cancel _ (by decide)
  have hzero : (Heap.new base (max (treeWords mem n t % 2 ^ 64) 1 * 8)).top = 0 := rfl
  have hsize := termSizeWords_ok hspace ht hdepth
  rcases hneeds with ⟨hroom, t', st', hrun, -⟩ | ⟨hfull, st', hrun, -⟩
  · dsimp only at hroom
    rw [hcap, hzero] at hroom
    refine .inl ⟨by omega, (⟨base, max (treeWords mem n t % 2 ^ 64) 1, t'⟩, st'.mem), ?_⟩
    rw [Fragment.copyFrom, hsize]
    simp only [bind, Except.bind, hnat, hrun]
  · dsimp only at hfull
    rw [hcap, hzero] at hfull
    refine .inr ⟨by omega, ?_⟩
    rw [Fragment.copyFrom, hsize]
    simp only [bind, Except.bind, hnat, hrun]

/-- For a well-formed term of finite depth and a destination apart from it: `copy_term` is an
exact deep copy exactly when the words of all paths are fewer than 2^64, or their count wraps to
more words than are free. A fragment is built exactly in the first case, and otherwise the
`expect` panics. -/
theorem copyTerm_exact_iff (h : st.Apart (next st.heap) space) (ht : t.Valid space)
    (hdepth : DepthLt st.mem n t) :
    ∃ w, termSizeWords st.mem n t = .ok w ∧
      (CopyExact st n t w ↔ treeWords st.mem n t < 2 ^ 64 ∨
        st.heap.cap - st.heap.top < treeWords st.mem n t % 2 ^ 64) ∧
      ∀ base, Fragment.Backed st.mem space base (max w.toNat 1) →
        ((∃ r, Fragment.copyFrom n base t st.mem = .ok r) ↔ treeWords st.mem n t < 2 ^ 64) ∧
        (2 ^ 64 ≤ treeWords st.mem n t → Fragment.copyFrom n base t st.mem = .error .panic) := by
  refine ⟨_, termSizeWords_ok h.objects ht hdepth, copyExact_iff h ht hdepth,
    fun base hback => ?_⟩
  rw [BitVec.toNat_ofNat] at hback
  rcases Fragment.copyFrom_iff h.objects ht hdepth hback with ⟨hlt, hok⟩ | ⟨hge, hpanic⟩
  · exact ⟨⟨fun _ => hlt, fun _ => hok⟩, fun hge => absurd hlt (Nat.not_lt.2 hge)⟩
  · refine ⟨⟨?_, fun hlt => absurd hlt (Nat.not_lt.2 hge)⟩, fun _ => hpanic⟩
    rintro ⟨r, hr⟩
    rw [hpanic] at hr
    cases hr

end

/-! ### A count that wraps -/

/-- Nested pairs below a tuple with three more elements. -/
def sharedMem : Mem :=
  writeWords nestedMem 100 [Heap.headerWord 4 kindTuple, (Term.ofAddr (nestedAddr 52)).word,
    (Term.int 0).word, (Term.int 0).word, (Term.int 0).word]

/-- The tuple and what it refers to. -/
def sharedSpace : Set ℕ := insert 100 (nestedPairs 52)

/-- The tuple. -/
def sharedRoot : Term := Term.ofAddr 100

/-- A heap with two free words, away from the tuple. -/
def sharedStore : Store := ⟨sharedMem, ⟨10000, 2, 0⟩⟩

private theorem sharedMem_of_ge {c : ℕ} (h : 105 ≤ c) : sharedMem c = nestedMem c := by
  rw [sharedMem, writeWords_apply, if_pos (by omega), List.getElem?_eq_none, Option.getD_none]
  simp only [List.length_cons, List.length_nil]
  omega

private theorem sharedMem_cell {j : ℕ} {w : Word}
    (h : [Heap.headerWord 4 kindTuple, (Term.ofAddr (nestedAddr 52)).word, (Term.int 0).word,
      (Term.int 0).word, (Term.int 0).word][j]? = some w) : sharedMem (100 + j) = w := by
  rw [sharedMem, writeWords_apply, if_pos (Nat.le_add_right 100 j), Nat.add_sub_cancel_left, h,
    Option.getD_some]

private theorem sharedMem_header : sharedMem 100 = Heap.headerWord 4 kindTuple :=
  sharedMem_cell (j := 0) rfl

private theorem shared_size : sizeAt sharedMem 100 = 5 := by
  rw [sizeAt, sharedMem_header]
  decide

private theorem shared_pairs : Agree nestedMem sharedMem (nestedPairs 52) ∧
    Region sharedMem 100 5000 (nestedPairs 52) := by
  have hpairs : Region nestedMem 105 5000 (nestedPairs 52) := by
    refine ⟨nested_space (by decide), ?_⟩
    rintro _ ⟨k, hk, rfl⟩
    have hend := nested_end k
    refine ⟨?_, by omega⟩
    cases k with
    | zero => decide
    | succ k =>
      simp only [nestedAddr]
      omega
  obtain ⟨hag, hregion⟩ := hpairs.congr (m := sharedMem) fun c hlo _ => sharedMem_of_ge hlo
  exact ⟨hag, hregion.mono (by decide) (Nat.le_refl _)⟩

private theorem shared_addr : sharedRoot.addr = 100 := Term.addr_ofAddr (by decide)

private theorem shared_part {i : ℕ} (hi : i < 4) :
    sharedRoot.child sharedMem i = if i = 0 then Term.ofAddr (nestedAddr 52) else Term.int 0 := by
  rw [Term.child, shared_addr, sharedMem_header,
    show refStart (Heap.headerWord 4 kindTuple) = 1 by decide]
  obtain rfl | rfl | rfl | rfl : i = 0 ∨ i = 1 ∨ i = 2 ∨ i = 3 := by omega
  · rw [sharedMem_cell (j := 1 + 0) rfl]
    rfl
  · rw [sharedMem_cell (j := 1 + 1) rfl]
    rfl
  · rw [sharedMem_cell (j := 1 + 2) rfl]
    rfl
  · rw [sharedMem_cell (j := 1 + 3) rfl]
    rfl

private theorem int_not_boxed : (Term.int 0).isBoxed = false := by decide

private theorem shared_part_valid {i : ℕ} (hi : i < 4) :
    (sharedRoot.child sharedMem i).Valid (nestedPairs 52) := by
  rw [shared_part hi]
  split
  · exact nested_valid (by decide) (Nat.le_refl 52)
  · exact Term.valid_int 0

private theorem shared_region : Region sharedMem 100 5000 sharedSpace := by
  refine shared_pairs.2.insert ?_ (fun j hj => ?_) (fun j hj => ?_) (Nat.le_refl _) ?_ (by decide)
    fun a ha => .inl ?_
  · rw [sharedMem_header]
    decide
  · rw [sharedMem_header] at hj
    have hlo : 1 ≤ j := hj.1
    have hhi : j < 1 + 4 := hj.2
    have hvalid := shared_part_valid (i := j - 1) (by omega)
    rw [Term.child, shared_addr, sharedMem_header,
      show refStart (Heap.headerWord 4 kindTuple) = 1 by decide, Nat.add_sub_cancel' hlo] at hvalid
    exact hvalid
  · rw [sharedMem_header] at hj
    exact absurd hj.1 (by decide)
  · rw [shared_size]
    decide
  · obtain ⟨k, -, rfl⟩ := ha
    rw [shared_size]
    cases k with
    | zero => decide
    | succ k =>
      simp only [nestedAddr]
      omega

private theorem shared_valid : sharedRoot.Valid sharedSpace :=
  Term.valid_ofAddr (Set.mem_insert _ _) (by decide)

/-- The size of a tuple with one part and three integers. -/
private theorem four_words {mem : Mem} {root first : Term} {n : ℕ} (hbox : root.isBoxed = true)
    (hsize : sizeAt mem root.addr = 5) (hcount : refCount (mem root.addr) = 4)
    (hpart : ∀ i < 4, root.child mem i = if i = 0 then first else Term.int 0) :
    treeWords mem (n + 2) root = 5 + treeWords mem (n + 1) first := by
  have hrest : treeWords mem (n + 1) (Term.int 0) = 0 := by
    rw [treeWords, int_not_boxed]
    rfl
  have hzero : ∀ i < 4, i ≠ 0 → treeWords mem (n + 1) (root.child mem i) = 0 := by
    intro i hi hne
    rw [hpart i hi, if_neg hne, hrest]
  rw [treeWords, if_pos hbox, hcount, hsize, Finset.sum_range_succ, Finset.sum_range_succ,
    Finset.sum_range_succ, Finset.sum_range_one, hzero 1 (by decide) (by decide),
    hzero 2 (by decide) (by decide), hzero 3 (by decide) (by decide), hpart 0 (by decide),
    if_pos rfl]
  rfl

private theorem four_depth {mem : Mem} {root first : Term} {n : ℕ}
    (hcount : refCount (mem root.addr) = 4)
    (hpart : ∀ i < 4, root.child mem i = if i = 0 then first else Term.int 0)
    (hfirst : DepthLt mem (n + 1) first) : DepthLt mem (n + 2) root := by
  intro _ i hi
  rw [hcount] at hi
  rw [hpart i hi]
  split
  · exact hfirst
  · intro hboxed
    rw [int_not_boxed] at hboxed
    cases hboxed

private theorem shared_pair {k : ℕ} (hk : k ≤ 52) :
    (Term.ofAddr (nestedAddr k)).Valid sharedSpace ∧
    DepthLt sharedMem (k + 1) (Term.ofAddr (nestedAddr k)) ∧
      treeWords sharedMem (k + 1) (Term.ofAddr (nestedAddr k)) + 3 = 2 ^ k * 4096 := by
  have hspace := nested_space (n := 52) (by decide)
  have hvalid := nested_valid (by decide) hk
  have htree := nested_tree (k := k) (by omega)
  refine ⟨hvalid.mono (Set.subset_insert _ _), (shared_pairs.1.depthLt hspace hvalid).2 htree.1, ?_⟩
  rw [shared_pairs.1.treeWords hspace hvalid]
  exact htree.2

private theorem shared_count : refCount (sharedMem sharedRoot.addr) = 4 := by
  rw [shared_addr, sharedMem_header]
  decide

private theorem shared_depth : DepthLt sharedMem (52 + 2) sharedRoot :=
  four_depth shared_count (fun _ hi => shared_part hi) (shared_pair (Nat.le_refl 52)).2.1

private theorem shared_words : treeWords sharedMem (52 + 2) sharedRoot = 2 ^ 64 + 2 := by
  have hsize : sizeAt sharedMem sharedRoot.addr = 5 := by rw [shared_addr, shared_size]
  have hboxed : sharedRoot.isBoxed = true := Term.isBoxed_ofAddr 100
  have hfirst := (shared_pair (Nat.le_refl 52)).2.2
  rw [four_words hboxed hsize shared_count fun _ hi => shared_part hi]
  generalize treeWords sharedMem (52 + 1) (Term.ofAddr (nestedAddr 52)) = w at hfirst ⊢
  omega

private theorem shared_apart : sharedStore.Apart (next sharedStore.heap) sharedSpace := by
  refine ⟨shared_region.objects, fun a ha => .inl ?_, Nat.le_refl _, by decide, by decide⟩
  have hend := (shared_region.within a ha).2
  exact hend.trans (by decide)

private theorem shared_backed {words : ℕ} (h : words ≤ 5000) :
    Fragment.Backed sharedMem sharedSpace 10000 words :=
  ⟨fun a ha => .inl ((shared_region.within a ha).2.trans (by decide)), by omega⟩

/-- The binary at the bottom of the nest is copied exactly, and so is its fragment. -/
theorem binary_copy_exact : ∃ w, termSizeWords sharedMem 1 (Term.ofAddr (nestedAddr 0)) = .ok w ∧
    CopyExact sharedStore 1 (Term.ofAddr (nestedAddr 0)) w ∧
    ∃ r, Fragment.copyFrom 1 10000 (Term.ofAddr (nestedAddr 0)) sharedMem = .ok r := by
  obtain ⟨hvalid, hdepth, hwords⟩ := shared_pair (Nat.zero_le 52)
  have hsmall : treeWords sharedMem (0 + 1) (Term.ofAddr (nestedAddr 0)) < 4096 := by omega
  obtain ⟨w, hsize, hexact, hfragment⟩ := copyTerm_exact_iff shared_apart hvalid hdepth
  have hlt : w.toNat < 4096 := by
    have hw := termSizeWords_ok shared_apart.objects hvalid hdepth
    rw [hsize] at hw
    cases hw
    rw [BitVec.toNat_ofNat]
    exact (Nat.mod_le _ _).trans_lt hsmall
  have hfits := hsmall.trans (by decide : 4096 < 2 ^ 64)
  exact ⟨w, hsize, hexact.2 (.inl hfits),
    (hfragment 10000 (shared_backed (by omega))).1.2 hfits⟩

/-- What happens to a term whose count wraps to two words. -/
private theorem wrapped_fails {st : Store} {space : Set ℕ} {t : Term} {n base : ℕ}
    (h : st.Apart (next st.heap) space) (ht : t.Valid space) (hdepth : DepthLt st.mem n t)
    (hwords : treeWords st.mem n t = 2 ^ 64 + 2) (hcap : st.heap.cap = 2)
    (hback : Fragment.Backed st.mem space base 2) :
    termSizeWords st.mem n t = .ok 2 ∧
      (∃ st', copyTerm n t st = .error .heapFull st') ∧
      Fragment.copyFrom n base t st.mem = .error .panic := by
  have hsize := termSizeWords_ok h.objects ht hdepth
  have hneeds := copyTerm_copier space n st t h ht hdepth
  have hfragment := @Fragment.copyFrom_iff _ _ _ _ h.objects ht hdepth base
  rw [hwords] at hsize hneeds hfragment
  refine ⟨hsize, ?_, ?_⟩
  · rcases hneeds with ⟨hroom, -⟩ | ⟨-, st', hrun, -⟩
    · omega
    · exact ⟨st', hrun⟩
  · rcases hfragment hback with ⟨hlt, -⟩ | ⟨-, hpanic⟩
    · omega
    · exact hpanic

/-- A well-formed tuple whose count wraps to two words: a heap with two free words has no room
for it, and neither has the fragment. -/
theorem shared_copy_fails :
    sharedStore.Apart (next sharedStore.heap) sharedSpace ∧ sharedRoot.Valid sharedSpace ∧
      DepthLt sharedMem (52 + 2) sharedRoot ∧
      termSizeWords sharedMem (52 + 2) sharedRoot = .ok 2 ∧
      (∃ st', copyTerm (52 + 2) sharedRoot sharedStore = .error .heapFull st') ∧
      Fragment.copyFrom (52 + 2) 10000 sharedRoot sharedMem = .error .panic := by
  have hback : Fragment.Backed sharedMem sharedSpace 10000 2 := shared_backed (by decide)
  obtain ⟨hsize, hcopy, hfragment⟩ :=
    wrapped_fails shared_apart shared_valid shared_depth shared_words rfl hback
  exact ⟨shared_apart, shared_valid, shared_depth, hsize, hcopy, hfragment⟩

end Yggdrasil
