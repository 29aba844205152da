import Yggdrasil.Proc.Heap
import Yggdrasil.Term.Size
import Yggdrasil.Term.EvacuateSpec

/-!
# Compaction at trampolines

When a process has no frames left, the arguments of the pending tail call are its
whole live set. If its heap is under pressure, they are evacuated to a fresh span
sized from an estimate of the live words, and the old spans are freed.
-/

namespace Yggdrasil

/-- How a compaction fails to return: a kernel panic, or a walk longer than followed. -/
inductive CompactError where
  | panic
  | limit
  deriving DecidableEq, Repr

/-- What a compaction leaves behind. -/
structure Compaction where
  /-- The process heap. -/
  heap : ProcHeap
  /-- Memory. -/
  mem : Mem
  /-- The arguments. -/
  roots : List Term
  /-- The spans given back to the frame allocator. -/
  freed : List Span

/-- The sizes of terms added up, in `usize` arithmetic. -/
def sumSizes (mem : Mem) (fuel : ℕ) : List Term → Except Halt Word
  | [] => .ok 0
  | t :: ts => do
    let w ← termSizeWords mem fuel t
    let rest ← sumSizes mem fuel ts
    return w + rest

/-- The estimate of live words: the sizes of all roots, their number and some slack. -/
def liveWords (mem : Mem) (fuel : ℕ) (ts : List Term) : Except Halt Word := do
  let sizes ← sumSizes mem fuel ts
  return sizes + BitVec.ofNat 64 ts.length + 32

/-- `maybe_compact`: nothing happens without pressure or when the frame allocation
is refused. -/
def maybeCompact (alloc : ℕ → Option ℕ) (fuel : ℕ) (p : ProcHeap) (mem : Mem) (ts : List Term) :
    Except CompactError Compaction :=
  if ¬p.Pressured then .ok ⟨p, mem, ts, []⟩
  else
    match liveWords mem fuel ts with
    | .error .limit => .error .limit
    | .error .panic => .error .panic
    | .ok live =>
      match p.beginCompact alloc live with
      | none => .ok ⟨p, mem, ts, []⟩
      | some (p', old) =>
        match evacuate fuel ts ⟨mem, p'.cur⟩ with
        | .ok ts' st => .ok ⟨{ p' with cur := st.heap }, st.mem, ts', old⟩
        | .error .fuel _ => .error .limit
        | .error _ _ => .error .panic

section

variable {mem : Mem} {space : Set ℕ} {ts : List Term}

/-- The estimate without wrapping: every path counts. -/
def estimate (mem : Mem) (n : ℕ) (ts : List Term) : ℕ :=
  (ts.map (treeWords mem n)).sum + ts.length + 32

private theorem sumSizes_ok (hspace : TermSpace mem space) (hts : ∀ t ∈ ts, t.Valid space)
    {n : ℕ} (hdepth : ∀ t ∈ ts, DepthLt mem n t) :
    sumSizes mem n ts = .ok (BitVec.ofNat 64 (ts.map (treeWords mem n)).sum) := by
  induction ts with
  | nil => rfl
  | cons t ts ih =>
    have hhead := termSizeWords_ok hspace (hts t (by simp)) (hdepth t (by simp))
    have htail := ih (fun x hx => hts x (by simp [hx])) fun x hx => hdepth x (by simp [hx])
    rw [sumSizes, hhead, htail, List.map_cons, List.sum_cons, BitVec.ofNat_add]
    rfl

private theorem depth_of_sumSizes (hspace : TermSpace mem space)
    (hts : ∀ t ∈ ts, t.Valid space) {n : ℕ} {w : Word} (h : sumSizes mem n ts = .ok w) :
    ∀ t ∈ ts, DepthLt mem n t := by
  induction ts generalizing w with
  | nil => simp
  | cons t ts ih =>
    rw [sumSizes] at h
    cases hhead : termSizeWords mem n t with
    | error e =>
      rw [hhead] at h
      cases h
    | ok w₀ =>
      cases htail : sumSizes mem n ts with
      | error e =>
        rw [hhead, htail] at h
        cases h
      | ok w₁ =>
        intro x hx
        rcases List.mem_cons.mp hx with rfl | hx
        · exact depthLt_of_termSizeWords hspace (hts x (by simp)) hhead
        · exact ih (fun y hy => hts y (by simp [hy])) htail x hx

/-- The estimate of arguments of finite depth is computed, wrapped. -/
theorem liveWords_ok (hspace : TermSpace mem space) (hts : ∀ t ∈ ts, t.Valid space)
    {n : ℕ} (hdepth : ∀ t ∈ ts, DepthLt mem n t) :
    liveWords mem n ts = .ok (BitVec.ofNat 64 (estimate mem n ts)) := by
  rw [liveWords, sumSizes_ok hspace hts hdepth, estimate, BitVec.ofNat_add, BitVec.ofNat_add]
  rfl

/-- A computed estimate is one of arguments of finite depth. -/
theorem depth_of_liveWords (hspace : TermSpace mem space)
    (hts : ∀ t ∈ ts, t.Valid space) {n : ℕ} {w : Word} (h : liveWords mem n ts = .ok w) :
    ∀ t ∈ ts, DepthLt mem n t := by
  rw [liveWords] at h
  cases hsum : sumSizes mem n ts with
  | error e =>
    rw [hsum] at h
    cases h
  | ok w₀ => exact depth_of_sumSizes hspace hts hsum

/-- The estimate does not depend on the depth bound. -/
theorem estimate_eq_of_le {n k : ℕ} (h : ∀ t ∈ ts, DepthLt mem n t) (hle : n ≤ k) :
    estimate mem k ts = estimate mem n ts := by
  have hmap : ts.map (treeWords mem k) = ts.map (treeWords mem n) :=
    List.map_congr_left fun t ht => treeWords_eq_of_le (h t ht) hle
  rw [estimate, estimate, hmap]

/-- The distinct objects reachable from the roots take at most the estimate. -/
theorem live_le_estimate {live : Finset ℕ} (hlive : ∀ a, a ∈ live ↔ Reachable mem ts a) {n : ℕ}
    (h : ∀ t ∈ ts, DepthLt mem n t) : ∑ a ∈ live, sizeAt mem a ≤ estimate mem n ts := by
  have hcover : ∃ cover : Finset ℕ, (∀ a, Reachable mem ts a → a ∈ cover) ∧
      ∑ a ∈ cover, sizeAt mem a ≤ (ts.map (treeWords mem n)).sum := by
    clear hlive
    induction ts with
    | nil => exact ⟨∅, fun a ⟨t, ht, _⟩ => absurd ht (by simp), by simp⟩
    | cons t ts ih =>
      obtain ⟨c₁, hc₁, hle₁⟩ := exists_cover (h t (by simp))
      obtain ⟨c₂, hc₂, hle₂⟩ := ih fun x hx => h x (by simp [hx])
      refine ⟨c₁ ∪ c₂, ?_, ?_⟩
      · rintro a ⟨x, hx, hboxed, hpath⟩
        rcases List.mem_cons.mp hx with rfl | hx
        · exact Finset.mem_union_left _ (hc₁ a hboxed hpath)
        · exact Finset.mem_union_right _ (hc₂ a ⟨x, hx, hboxed, hpath⟩)
      · rw [List.map_cons, List.sum_cons]
        exact (sum_union_le _ _ _).trans (Nat.add_le_add hle₁ hle₂)
  obtain ⟨cover, hsub, hle⟩ := hcover
  have hmono : ∑ a ∈ live, sizeAt mem a ≤ ∑ a ∈ cover, sizeAt mem a :=
    Finset.sum_le_sum_of_subset fun a ha => hsub a ((hlive a).mp ha)
  rw [estimate]
  omega

end

end Yggdrasil
