import Yggdrasil.Alloc.Bitmap
import Yggdrasil.Lib.Transition
import Mathlib.Data.Finset.Pairwise

/-!
# The bitmap as a set of free frames

At boot ranges of frames are marked free and used; afterwards frames are allocated and
given back. The bitmap keeps track of exactly the free frames, whatever the order of the
operations, and never gives out a frame that is still held.
-/

namespace Yggdrasil

/-- What the boot code tells the allocator about memory. -/
inductive Mark where
  /-- `mark_free_range`. -/
  | free (addr len : ℕ)
  /-- `mark_used_range`. -/
  | used (addr len : ℕ)
  deriving DecidableEq, Repr

namespace Mark

/-- Where the range starts. -/
def addr : Mark → ℕ
  | free addr _ | used addr _ => addr

/-- Carry out a mark. -/
def run (b : FrameBitmap) : Mark → Except AllocPanic FrameBitmap
  | free addr len => b.markFreeRange addr len
  | used addr len => b.markUsedRange addr len

/-- Carry out marks in order. -/
def runAll : List Mark → FrameBitmap → Except AllocPanic FrameBitmap
  | [], b => .ok b
  | m :: ms, b => do
    let b ← m.run b
    runAll ms b

/-- A mark on a set of free frames: free ranges are rounded down to whole frames and
clipped, used ranges are rounded up. -/
def apply (base nframes : ℕ) (F : Finset ℕ) : Mark → Finset ℕ
  | free addr len =>
    let i := (addr - base) / frameSize
    F ∪ (Finset.Ico i (i + len / frameSize) ∩ Finset.range nframes)
  | used addr len =>
    let i := (addr - base) / frameSize
    F \ Finset.Ico i (i + (len + frameSize - 1) / frameSize)

variable {b : FrameBitmap}

/-- A mark at the address of a frame changes the set of free frames. -/
theorem run_spec (h : b.Ok) {m : Mark} (haligned : m.addr % frameSize = 0)
    (hbase : b.base ≤ m.addr) :
    ∃ b', m.run b = .ok b' ∧ b.Becomes b' (m.apply b.base b.nframes b.freeSet) := by
  have hindex : ∀ i, (b.addrOf i - b.base) / frameSize = i := fun i => by
    rw [FrameBitmap.addrOf, Nat.add_sub_cancel_left, Nat.mul_div_cancel _ (by decide)]
  obtain ⟨i, hi⟩ := h.exists_frame haligned hbase
  cases m with
  | free addr len =>
    change addr = _ at hi
    subst hi
    simp only [run, apply, hindex]
    exact h.markFreeRange_spec i len
  | used addr len =>
    change addr = _ at hi
    subst hi
    simp only [run, apply, hindex]
    exact h.markUsedRange_spec i len

/-- Marks change the set of free frames one after the other. -/
theorem runAll_spec (h : b.Ok) {ms : List Mark}
    (hms : ∀ m ∈ ms, m.addr % frameSize = 0 ∧ b.base ≤ m.addr) :
    ∃ b', runAll ms b = .ok b' ∧
      b.Becomes b' (ms.foldl (apply b.base b.nframes) b.freeSet) := by
  induction ms generalizing b with
  | nil => exact ⟨b, rfl, h.refl⟩
  | cons m ms ih =>
    obtain ⟨⟨haligned, hbase⟩, hms⟩ := List.forall_mem_cons.mp hms
    obtain ⟨b₁, hrun, hb₁⟩ := run_spec h haligned hbase
    obtain ⟨b', hrest, hb'⟩ := ih hb₁.ok (hb₁.base_eq ▸ hms)
    refine ⟨b', ?_, ?_⟩
    · rw [runAll, hrun]
      exact hrest
    · have hboth := hb₁.trans hb'
      rwa [hb₁.base_eq, hb₁.nframes_eq, hb₁.freeSet_eq] at hboth

end Mark

/-- The allocator, and as history the frames of every allocation that are still held. -/
structure Ledger where
  /-- The allocator. -/
  bitmap : FrameBitmap
  /-- For each allocation, latest first, its frames that were not given back. -/
  live : List (Finset ℕ)

namespace Ledger

/-- Frames `i` to `i + n` are held. -/
def Holds (l : Ledger) (i n : ℕ) : Prop := ∀ j ∈ Finset.Ico i (i + n), ∃ A ∈ l.live, j ∈ A

/-- Operations after boot. Only held frames are given back. -/
inductive Step : Ledger → Ledger → Prop
  /-- `alloc` of a frame. -/
  | alloc {l : Ledger} {i : ℕ} {b : FrameBitmap} :
    l.bitmap.alloc = .ok (some (l.bitmap.addrOf i), b) → Step l ⟨b, {i} :: l.live⟩
  /-- `alloc` without success. -/
  | allocNone {l : Ledger} {b : FrameBitmap} :
    l.bitmap.alloc = .ok (none, b) → Step l ⟨b, l.live⟩
  /-- `alloc_contig` of `n` frames. -/
  | contig {l : Ledger} {n align i : ℕ} {b : FrameBitmap} :
    l.bitmap.allocContig n align = .ok (some (l.bitmap.addrOf i), b) →
      Step l ⟨b, Finset.Ico i (i + n) :: l.live⟩
  /-- `alloc_contig` without success. -/
  | contigNone {l : Ledger} {n align : ℕ} {b : FrameBitmap} :
    l.bitmap.allocContig n align = .ok (none, b) → Step l ⟨b, l.live⟩
  /-- `free_frames` of held frames. -/
  | free {l : Ledger} {i n : ℕ} {b : FrameBitmap} : l.Holds i n →
    l.bitmap.freeFrames (l.bitmap.addrOf i) n = .ok b →
      Step l ⟨b, l.live.map (· \ Finset.Ico i (i + n))⟩

/-- The bitmap is in order, and live allocations are disjoint and not free. -/
structure Inv (l : Ledger) : Prop where
  /-- The bitmap is in order. -/
  ok : l.bitmap.Ok
  /-- Live allocations do not overlap. -/
  disjoint : l.live.Pairwise Disjoint
  /-- Held frames are tracked and not free. -/
  used : ∀ A ∈ l.live, ∀ i ∈ A, i < l.bitmap.nframes ∧ i ∉ l.bitmap.freeSet

variable {l l' : Ledger} {i n : ℕ}

private theorem addrOf_inj {b : FrameBitmap} {i j : ℕ} (h : b.addrOf i = b.addrOf j) : i = j := by
  simp only [FrameBitmap.addrOf, frameSize] at h
  omega

private theorem Inv.keep (h : l.Inv) {b : FrameBitmap} {F : Finset ℕ}
    (hb : l.bitmap.Becomes b F) (hF : F ⊆ l.bitmap.freeSet) {A : Finset ℕ}
    (hA : A ⊆ l.bitmap.freeSet) (hnot : Disjoint A F) : Inv ⟨b, A :: l.live⟩ := by
  refine ⟨hb.ok, List.pairwise_cons.mpr ⟨fun B hB => ?_, h.disjoint⟩, fun B hB j hj => ?_⟩
  · exact Finset.disjoint_left.mpr fun j hj hj' => (h.used B hB j hj').2 (hA hj)
  · rw [hb.nframes_eq, hb.freeSet_eq]
    rcases List.mem_cons.mp hB with rfl | hB
    · exact ⟨(FrameBitmap.mem_freeSet.mp (hA hj)).1, Finset.disjoint_left.mp hnot hj⟩
    · exact ⟨(h.used B hB j hj).1, fun hmem => (h.used B hB j hj).2 (hF hmem)⟩

private theorem Inv.held (h : l.Inv) (hheld : l.Holds i n) :
    (0 < n → i + n ≤ l.bitmap.nframes) ∧
      Disjoint l.bitmap.freeSet (Finset.Ico i (i + n)) := by
  refine ⟨fun hn => ?_, Finset.disjoint_right.mpr fun j hj => ?_⟩
  · obtain ⟨A, hA, hmem⟩ := hheld (i + n - 1) (Finset.mem_Ico.mpr ⟨by omega, by omega⟩)
    have := (h.used A hA _ hmem).1
    omega
  · obtain ⟨A, hA, hmem⟩ := hheld j hj
    exact (h.used A hA j hmem).2

/-- Held frames can be given back. -/
theorem Inv.freeFrames_spec (h : l.Inv) (hheld : l.Holds i n) :
    ∃ b, l.bitmap.freeFrames (l.bitmap.addrOf i) n = .ok b ∧
      l.bitmap.Becomes b (l.bitmap.freeSet ∪ Finset.Ico i (i + n)) := by
  obtain ⟨hrange, hused⟩ := h.held hheld
  rcases Nat.eq_zero_or_pos n with rfl | hn
  · refine ⟨l.bitmap, ?_, by simpa using h.ok.refl⟩
    rw [FrameBitmap.freeFrames, h.ok.indexOf_addrOf]
    rfl
  · exact h.ok.freeFrames_spec (hrange hn) hused

/-- Every operation keeps the invariant. -/
theorem Inv.step (h : l.Inv) (hstep : Step l l') : l'.Inv := by
  cases hstep with
  | alloc halloc =>
    rcases h.ok.alloc_spec with ⟨-, hnone⟩ | ⟨j, b', hsome, hj, hb'⟩
    · cases hnone.symm.trans halloc
    · cases addrOf_inj
        (Option.some.inj (congrArg Prod.fst (Except.ok.inj (hsome.symm.trans halloc))))
      cases hsome.symm.trans halloc
      exact h.keep hb' (Finset.erase_subset _ _) (Finset.singleton_subset_iff.mpr hj)
        (Finset.disjoint_singleton_left.mpr (Finset.notMem_erase _ _))
  | allocNone halloc =>
    rcases h.ok.alloc_spec with ⟨-, hnone⟩ | ⟨j, b', hsome, -, -⟩
    · cases hnone.symm.trans halloc
      exact h
    · cases hsome.symm.trans halloc
  | contig halloc =>
    obtain ⟨hn, halign⟩ := FrameBitmap.allocContig_args halloc
    rcases h.ok.allocContig_spec hn halign with hnone | ⟨j, b', hsome, hsub, -, hb'⟩
    · cases hnone.symm.trans halloc
    · cases addrOf_inj
        (Option.some.inj (congrArg Prod.fst (Except.ok.inj (hsome.symm.trans halloc))))
      cases hsome.symm.trans halloc
      exact h.keep hb' Finset.sdiff_subset hsub Finset.disjoint_sdiff
  | contigNone halloc =>
    obtain ⟨hn, halign⟩ := FrameBitmap.allocContig_args halloc
    rcases h.ok.allocContig_spec hn halign with hnone | ⟨j, b', hsome, -, -, -⟩
    · cases hnone.symm.trans halloc
      exact h
    · cases hsome.symm.trans halloc
  | free hheld hfree =>
    obtain ⟨b', hok, hb'⟩ := h.freeFrames_spec hheld
    cases hok.symm.trans hfree
    refine ⟨hb'.ok, ?_, fun B hB j hj => ?_⟩
    · refine List.Pairwise.map _ (fun A B hAB => ?_) h.disjoint
      exact hAB.mono Finset.sdiff_subset Finset.sdiff_subset
    · obtain ⟨A, hA, rfl⟩ := List.mem_map.mp hB
      obtain ⟨hjA, hout⟩ := Finset.mem_sdiff.mp hj
      obtain ⟨hlt, hnot⟩ := h.used A hA j hjA
      rw [hb'.nframes_eq, hb'.freeSet_eq]
      refine ⟨hlt, fun hmem => ?_⟩
      rcases Finset.mem_union.mp hmem with hmem | hmem
      · exact hnot hmem
      · exact hout hmem

/-- What the allocator promises in a state. -/
structure Sound (l : Ledger) : Prop where
  /-- The count is the number of clear bits among the tracked frames. -/
  count : l.bitmap.free = l.bitmap.freeSet.card
  /-- No bit past the tracked frames is clear. -/
  padding : ∀ i, l.bitmap.nframes ≤ i → i < 64 * l.bitmap.bits.length →
    PackedBits.test l.bitmap.bits i = true
  /-- Live allocations do not overlap. -/
  disjoint : l.live.Pairwise Disjoint
  /-- Held frames are tracked and not free. -/
  used : ∀ A ∈ l.live, ∀ i ∈ A, i < l.bitmap.nframes ∧ i ∉ l.bitmap.freeSet
  /-- `alloc` gives out one free frame, and fails only if there is none. -/
  alloc : (l.bitmap.freeSet = ∅ ∧ l.bitmap.alloc = .ok (none, l.bitmap)) ∨
    ∃ i b, l.bitmap.alloc = .ok (some (l.bitmap.addrOf i), b) ∧ i ∈ l.bitmap.freeSet ∧
      b.freeSet = l.bitmap.freeSet.erase i
  /-- `alloc_contig` gives out free frames, or changes nothing. -/
  contig : ∀ n align, 0 < n → align = 2 ^ align.log2 →
    l.bitmap.allocContig n align = .ok (none, l.bitmap) ∨
      ∃ i b, l.bitmap.allocContig n align = .ok (some (l.bitmap.addrOf i), b) ∧
        Finset.Ico i (i + n) ⊆ l.bitmap.freeSet ∧
        b.freeSet = l.bitmap.freeSet \ Finset.Ico i (i + n)
  /-- Held frames can be given back. -/
  free : ∀ i n, l.Holds i n → ∃ b, l.bitmap.freeFrames (l.bitmap.addrOf i) n = .ok b ∧
    b.freeSet = l.bitmap.freeSet ∪ Finset.Ico i (i + n)

/-- The invariant is enough for the promises. -/
theorem Inv.sound (h : l.Inv) : l.Sound where
  count := h.ok.free_eq
  padding := h.ok.padding
  disjoint := h.disjoint
  used := h.used
  alloc := by
    rcases h.ok.alloc_spec with hnone | ⟨i, b, hsome, hi, hb⟩
    · exact .inl hnone
    · exact .inr ⟨i, b, hsome, hi, hb.freeSet_eq⟩
  contig n align hn halign := by
    rcases h.ok.allocContig_spec hn halign with hnone | ⟨i, b, hsome, hsub, -, hb⟩
    · exact .inl hnone
    · exact .inr ⟨i, b, hsome, hsub, hb.freeSet_eq⟩
  free i n hheld := by
    obtain ⟨b, hok, hb⟩ := h.freeFrames_spec hheld
    exact ⟨b, hok, hb.freeSet_eq⟩

/-- States reached by operations from a booted allocator. -/
abbrev Reached (b : FrameBitmap) (l : Ledger) : Prop :=
  Transition.Reaches (fun l => l = ⟨b, []⟩) Step l

end Ledger

/-- After any marks at boot the bitmap holds the set of free frames they describe, and in
every state reached by allocating and giving back it keeps to that set: nothing panics, no
frame is given out twice, and an allocation of one frame fails only if none is free. -/
theorem frameBitmap_refines_freeSet {base nframes : ℕ} {storage : List (BitVec 64)}
    (hstorage : FrameBitmap.storageWords nframes ≤ storage.length)
    (hbase : base % frameSize = 0) {marks : List Mark}
    (hmarks : ∀ m ∈ marks, m.addr % frameSize = 0 ∧ base ≤ m.addr) :
    ∃ b, (FrameBitmap.new base nframes storage >>= Mark.runAll marks) = .ok b ∧
      b.freeSet = marks.foldl (Mark.apply base nframes) ∅ ∧
      ∀ l, Ledger.Reached b l → l.Sound := by
  obtain ⟨b₀, hnew, hok, rfl, rfl, hempty⟩ := FrameBitmap.new_spec hstorage hbase
  obtain ⟨b, hrun, hb⟩ := Mark.runAll_spec hok hmarks
  refine ⟨b, ?_, ?_, fun l hl => ?_⟩
  · rw [hnew]
    exact hrun
  · rw [hb.freeSet_eq, hempty]
  · have hinv : l.Inv := by
      refine Transition.Reaches.invariant (P := Ledger.Inv) ?_ (fun _ _ h hs => h.step hs) hl
      rintro _ rfl
      exact ⟨hb.ok, .nil, fun A hA => absurd hA List.not_mem_nil⟩
    exact hinv.sound

/-- Two marks on six frames leave frames 0 and 4 free. -/
theorem six_frames_refine_freeSet :
    ∃ b, (FrameBitmap.new 8192 6 [0] >>= Mark.runAll [.free 8192 24000, .used 12288 8193]) =
        .ok b ∧
      b.freeSet = [Mark.free 8192 24000, .used 12288 8193].foldl (Mark.apply 8192 6) ∅ ∧
      ∀ l, Ledger.Reached b l → l.Sound :=
  frameBitmap_refines_freeSet (by decide) (by decide) (by decide)

end Yggdrasil
