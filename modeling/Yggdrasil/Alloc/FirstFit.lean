import Yggdrasil.Alloc.Frames

/-!
# First fit for contiguous frames

The search for contiguous frames advances by two kinds of jumps: to the next frame whose
physical address is aligned, and past a used frame inside the run that was tried. Neither
jump passes over a run that fits, so the search finds the lowest one.
-/

namespace Yggdrasil

namespace FrameBitmap

/-- The operations of the allocator, in any order. What is given back are tracked frames. -/
inductive Op : FrameBitmap → FrameBitmap → Prop
  /-- `mark_free_range` or `mark_used_range`. -/
  | mark {b b' : FrameBitmap} {m : Mark} : m.run b = .ok b' → Op b b'
  /-- `alloc`, whatever its answer. -/
  | alloc {b b' : FrameBitmap} {r : Option ℕ} : b.alloc = .ok (r, b') → Op b b'
  /-- `alloc_contig`, whatever its answer. -/
  | contig {b b' : FrameBitmap} {n align : ℕ} {r : Option ℕ} :
    b.allocContig n align = .ok (r, b') → Op b b'
  /-- `free_frames`. -/
  | free {b b' : FrameBitmap} {i n : ℕ} : i + n ≤ b.nframes →
    b.freeFrames (b.addrOf i) n = .ok b' → Op b b'

/-- A bitmap that `new` returns. -/
def IsNew (b : FrameBitmap) : Prop := ∃ base nframes storage, new base nframes storage = .ok b

/-- The bitmaps that operations on a new one lead to. -/
abbrev Reachable (b : FrameBitmap) : Prop := Transition.Reaches IsNew Op b

variable {b b' : FrameBitmap}

private theorem IsNew.ok (h : b.IsNew) : b.Ok := by
  obtain ⟨base, nframes, storage, hnew⟩ := h
  by_cases hargs : storage.length < storageWords nframes ∨ base % frameSize ≠ 0
  · rw [new, if_pos hargs] at hnew
    cases hnew
  · obtain ⟨b₀, hb₀, hok, -⟩ := @new_spec base nframes storage (by omega) (by omega)
    cases hb₀.symm.trans hnew
    exact hok

/-- A mark that succeeds is at the address of a frame. -/
private theorem indexOf_args {addr i : ℕ} (h : b.indexOf addr = .ok i) :
    addr % frameSize = 0 ∧ b.base ≤ addr := by
  unfold indexOf at h
  split at h
  · cases h
  · next hargs => omega

private theorem mark_args {m : Mark} (h : m.run b = .ok b') :
    m.addr % frameSize = 0 ∧ b.base ≤ m.addr := by
  cases hindex : b.indexOf m.addr with
  | ok i => exact indexOf_args hindex
  | error e =>
    cases m with
    | free addr len =>
      change b.indexOf addr = _ at hindex
      simp only [Mark.run, markFreeRange, hindex] at h
      cases h
    | used addr len =>
      change b.indexOf addr = _ at hindex
      simp only [Mark.run, markUsedRange, hindex] at h
      cases h

private theorem Ok.op (h : b.Ok) (hop : Op b b') : b'.Ok := by
  cases hop with
  | mark hrun =>
    obtain ⟨haligned, hbase⟩ := mark_args hrun
    obtain ⟨b₁, hok, hb₁⟩ := Mark.run_spec h haligned hbase
    cases hok.symm.trans hrun
    exact hb₁.ok
  | alloc halloc =>
    rcases h.alloc_spec with ⟨-, hnone⟩ | ⟨j, b₁, hsome, -, hb₁⟩
    · cases hnone.symm.trans halloc
      exact h
    · cases hsome.symm.trans halloc
      exact hb₁.ok
  | contig halloc =>
    obtain ⟨hn, halign⟩ := allocContig_args halloc
    rcases h.allocContig_first hn halign with ⟨hnone, -⟩ | ⟨j, b₁, hsome, -, hb₁⟩
    · cases hnone.symm.trans halloc
      exact h
    · cases hsome.symm.trans halloc
      exact hb₁.ok
  | free hrange hfree =>
    obtain ⟨b₁, hok, hb₁⟩ := h.freeFrames_spec hrange (h.disjoint_of_freeFrames hrange hfree)
    cases hok.symm.trans hfree
    exact hb₁.ok

/-- Every bitmap that operations lead to is in order. -/
theorem Reachable.ok (h : b.Reachable) : b.Ok :=
  Transition.Reaches.invariant (P := Ok) (fun _ hnew => hnew.ok) (fun _ _ hok hop => hok.op hop) h

end FrameBitmap

/-- In every reachable state the search for `n` frames ends with the lowest run that fits,
whose frames and no others become used; or no run fits and nothing changes. -/
theorem allocContig_first_fit {b : FrameBitmap} (hb : b.Reachable) {n align : ℕ} (hn : 0 < n)
    (halign : ∃ k, align = 2 ^ k) :
    (∃ i b', b.allocContig n align = .ok (some (b.addrOf i), b') ∧
        IsLeast {i | b.Fits n align i} i ∧
        b.Becomes b' (b.freeSet \ Finset.Ico i (i + n))) ∨
      (b.allocContig n align = .ok (none, b) ∧ ∀ i, ¬ b.Fits n align i) := by
  obtain ⟨k, rfl⟩ := halign
  have hlog : 2 ^ k = 2 ^ (2 ^ k).log2 := by rw [Nat.log2_two_pow]
  exact (hb.ok.allocContig_first hn hlog).symm

/-- Two frames among six, of which the first is used. -/
theorem six_frames_first_fit :
    ∃ b, (FrameBitmap.new 8192 6 [0] >>= Mark.runAll [.free 12288 20480]) = .ok b ∧
      ((∃ i b', b.allocContig 2 2 = .ok (some (b.addrOf i), b') ∧
          IsLeast {i | b.Fits 2 2 i} i ∧ b.Becomes b' (b.freeSet \ Finset.Ico i (i + 2))) ∨
        (b.allocContig 2 2 = .ok (none, b) ∧ ∀ i, ¬ b.Fits 2 2 i)) := by
  refine ⟨_, rfl, allocContig_first_fit ?_ (by decide) ⟨1, rfl⟩⟩
  refine .step (.init ⟨8192, 6, [0], rfl⟩) (.mark (m := .free 12288 20480) ?_)
  rfl

end Yggdrasil
