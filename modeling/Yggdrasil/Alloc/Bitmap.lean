import Yggdrasil.Lib.PackedBits
import Mathlib.Order.Interval.Finset.Nat

/-!
# The physical frame bitmap

One bit for each frame, set when the frame is used, with a cached count of the free
frames and the cursor of the next-fit search. Every index into the storage is checked,
as are the assertions and the subtraction from the count.
-/

namespace Yggdrasil

/-- Why the frame allocator stops the kernel. -/
inductive AllocPanic where
  /-- An index outside the storage. -/
  | index
  /-- A subtraction below zero. -/
  | underflow
  /-- A freed frame was not used. -/
  | doubleFree (addr : ℕ)
  /-- A failed assertion on the arguments. -/
  | assertion
  /-- A search that does not end. -/
  | endless
  deriving DecidableEq, Repr

/-- Bytes of a frame. -/
def frameSize : ℕ := 4096

/-- The bitmap allocator. -/
structure FrameBitmap where
  /-- One bit for each frame. -/
  bits : List (BitVec 64)
  /-- Physical address of frame 0. -/
  base : ℕ
  /-- Number of tracked frames. -/
  nframes : ℕ
  /-- Where the next-fit search starts. -/
  cursor : ℕ
  /-- Cached number of free frames. -/
  free : ℕ
  deriving DecidableEq, Repr

namespace FrameBitmap

open PackedBits

/-- Words of storage needed to track `nframes`. -/
def storageWords (nframes : ℕ) : ℕ := (nframes + 63) / 64

/-- All frames start used. -/
def new (base nframes : ℕ) (storage : List (BitVec 64)) : Except AllocPanic FrameBitmap :=
  if storage.length < storageWords nframes ∨ base % frameSize ≠ 0 then .error .assertion
  else .ok ⟨List.replicate storage.length (BitVec.allOnes 64), base, nframes, 0, 0⟩

variable (b : FrameBitmap)

/-- The frame at an address, which must be the address of a frame from the base on. -/
def indexOf (addr : ℕ) : Except AllocPanic ℕ :=
  if addr % frameSize ≠ 0 ∨ addr < b.base then .error .assertion
  else .ok ((addr - b.base) / frameSize)

/-- The address of a frame. -/
def addrOf (i : ℕ) : ℕ := b.base + i * frameSize

/-- Whether a frame is used. -/
def isUsed (i : ℕ) : Except AllocPanic Bool :=
  match b.bits[i / 64]? with
  | some w => .ok (w &&& mask i ≠ 0)
  | none => .error .index

/-- Set or clear the bit of a frame and keep the count. -/
def setUsed (i : ℕ) (used : Bool) : Except AllocPanic FrameBitmap :=
  match b.bits[i / 64]? with
  | some w =>
    let was := decide (w &&& mask i ≠ 0)
    if used then
      let b' := { b with bits := b.bits.set (i / 64) (w ||| mask i) }
      if was then .ok b'
      else if b.free = 0 then .error .underflow
      else .ok { b' with free := b.free - 1 }
    else
      let b' := { b with bits := b.bits.set (i / 64) (w &&& ~~~mask i) }
      if was then .ok { b' with free := b.free + 1 } else .ok b'
  | none => .error .index

/-- Set or clear `n` bits from `i` on. -/
def setRange (used : Bool) : ℕ → ℕ → FrameBitmap → Except AllocPanic FrameBitmap
  | 0, _, b => .ok b
  | n + 1, i, b => do
    let b ← b.setUsed i used
    setRange used n (i + 1) b

/-- Mark `[addr, addr + len)` free, clipped to the tracked range. -/
def markFreeRange (addr len : ℕ) : Except AllocPanic FrameBitmap := do
  let first ← b.indexOf addr
  b.setRange false (min (first + len / frameSize) b.nframes - first) first

/-- Mark `[addr, addr + len)` used, with `len` rounded up to whole frames. -/
def markUsedRange (addr len : ℕ) : Except AllocPanic FrameBitmap := do
  let first ← b.indexOf addr
  b.setRange true (min (first + (len + frameSize - 1) / frameSize) b.nframes - first) first

/-- The loop of `alloc` at frame `i`; the search ends where it started. -/
def allocLoop (start : ℕ) : ℕ → ℕ → Except AllocPanic (Option ℕ × FrameBitmap)
  | 0, _ => .error .endless
  | rounds + 1, i => do
    if ← b.isUsed i then
      let i := (i + 1) % b.nframes
      if i = start then return (none, b) else allocLoop start rounds i
    else
      let b' ← b.setUsed i true
      return (some (b.addrOf i), { b' with cursor := (i + 1) % b.nframes })

/-- Allocate a frame, next fit. -/
def alloc : Except AllocPanic (Option ℕ × FrameBitmap) :=
  if b.free = 0 then .ok (none, b) else b.allocLoop b.cursor b.nframes b.cursor

/-- The first used frame among `n` from `i + j` on, counted from `i`. -/
def firstUsed (i : ℕ) : ℕ → ℕ → Except AllocPanic (Option ℕ)
  | 0, _ => .ok none
  | n + 1, j => do
    if ← b.isUsed (i + j) then return some j else firstUsed i n (j + 1)

/-- The loop of `alloc_contig` at frame `i`. -/
def contigLoop (n align : ℕ) : ℕ → ℕ → Except AllocPanic (Option ℕ × FrameBitmap)
  | 0, _ => .error .endless
  | rounds + 1, i => do
    if i + n ≤ b.nframes then
      let misalign := b.base / frameSize + i
      if misalign % align ≠ 0 then contigLoop n align rounds (i + (align - misalign % align))
      else
        match ← b.firstUsed i n 0 with
        | some j => contigLoop n align rounds (i + j + 1)
        | none =>
          let b' ← b.setRange true n i
          return (some (b.addrOf i), b')
    else return (none, b)

/-- Allocate `n` contiguous frames with an aligned base, first fit. -/
def allocContig (n align : ℕ) : Except AllocPanic (Option ℕ × FrameBitmap) :=
  if n = 0 ∨ align ≠ 2 ^ align.log2 then .error .assertion
  else if b.free < n then .ok (none, b)
  else b.contigLoop n align (b.nframes + 1) 0

/-- The loop of `free_frames`. -/
def freeLoop : ℕ → ℕ → FrameBitmap → Except AllocPanic FrameBitmap
  | 0, _, b => .ok b
  | n + 1, i, b => do
    if ← b.isUsed i then
      let b ← b.setUsed i false
      freeLoop n (i + 1) b
    else throw (.doubleFree (b.addrOf i))

/-- Give `n` frames back. -/
def freeFrames (addr n : ℕ) : Except AllocPanic FrameBitmap := do
  b.freeLoop n (← b.indexOf addr)

/-- The free frames among the tracked ones. -/
def freeSet : Finset ℕ := (Finset.range b.nframes).filter fun i => test b.bits i = false

/-- What holds of the bitmap at any time. -/
structure Ok : Prop where
  /-- The storage covers the tracked frames. -/
  storage : storageWords b.nframes ≤ b.bits.length
  /-- The base is the address of a frame. -/
  aligned : b.base % frameSize = 0
  /-- The count is right. -/
  free_eq : b.free = b.freeSet.card
  /-- The search starts at a tracked frame. -/
  cursor_lt : 0 < b.nframes → b.cursor < b.nframes
  /-- Bits past the tracked frames are set. -/
  padding : ∀ i, b.nframes ≤ i → i < 64 * b.bits.length → test b.bits i = true

variable {b} {b' b'' : FrameBitmap} {F F' : Finset ℕ} {i n : ℕ}

/-- Membership in the set of free frames. -/
theorem mem_freeSet : i ∈ b.freeSet ↔ i < b.nframes ∧ test b.bits i = false := by
  rw [freeSet, Finset.mem_filter, Finset.mem_range]

/-- A tracked frame is free when its bit is clear. -/
theorem test_eq_false (hi : i < b.nframes) : test b.bits i = false ↔ i ∈ b.freeSet := by
  rw [mem_freeSet, and_iff_right hi]

/-- After an operation the bitmap is in order and its free frames are `F`. -/
structure Becomes (b b' : FrameBitmap) (F : Finset ℕ) : Prop where
  /-- The bitmap is in order. -/
  ok : b'.Ok
  /-- The base stays. -/
  base_eq : b'.base = b.base
  /-- The tracked frames stay. -/
  nframes_eq : b'.nframes = b.nframes
  /-- The free frames. -/
  freeSet_eq : b'.freeSet = F

/-- Nothing happens. -/
theorem Ok.refl (h : b.Ok) : b.Becomes b b.freeSet := ⟨h, rfl, rfl, rfl⟩

/-- Two operations after each other. -/
theorem Becomes.trans (h : b.Becomes b' F) (h' : b'.Becomes b'' F') : b.Becomes b'' F' :=
  ⟨h'.ok, h'.base_eq.trans h.base_eq, h'.nframes_eq.trans h.nframes_eq, h'.freeSet_eq⟩

/-- A new bitmap has no free frames. -/
theorem new_spec {base nframes : ℕ} {storage : List (BitVec 64)}
    (hstorage : storageWords nframes ≤ storage.length) (hbase : base % frameSize = 0) :
    ∃ b, new base nframes storage = .ok b ∧ b.Ok ∧ b.base = base ∧ b.nframes = nframes ∧
      b.freeSet = ∅ := by
  have hset : ∀ i, i < 64 * storage.length →
      test (List.replicate storage.length (BitVec.allOnes 64)) i = true := by
    intro i hi
    have hlt : i / 64 < storage.length := by omega
    have hbit : i % 64 < 64 := Nat.mod_lt i (by decide)
    rw [test, List.getD_eq_getElem?_getD, List.getElem?_replicate_of_lt hlt, Option.getD_some,
      BitVec.getLsbD_allOnes, decide_eq_true hbit]
  have hfree : (⟨List.replicate storage.length (BitVec.allOnes 64), base, nframes, 0, 0⟩ :
      FrameBitmap).freeSet = ∅ := by
    refine Finset.filter_eq_empty_iff.mpr fun i hi => ?_
    have hlt : i < nframes := Finset.mem_range.mp hi
    rw [hset i (by unfold storageWords at hstorage; omega)]
    decide
  refine ⟨_, if_neg (by omega), ⟨?_, hbase, ?_, fun h => h, fun i _ hi => ?_⟩, rfl, rfl, hfree⟩
  · simpa using hstorage
  · rw [hfree]
    rfl
  · exact hset i (by simpa using hi)

private theorem Ok.word (h : b.Ok) (hi : i < b.nframes) : ∃ w, b.bits[i / 64]? = some w := by
  have hlt := index_lt h.storage hi
  exact ⟨_, List.getElem?_eq_getElem hlt⟩

/-- The bit of a tracked frame can be read. -/
theorem Ok.isUsed_eq (h : b.Ok) (hi : i < b.nframes) :
    b.isUsed i = .ok (decide (i ∉ b.freeSet)) := by
  obtain ⟨w, hw⟩ := h.word hi
  simp only [isUsed, hw]
  congr 1
  rw [decide_eq_decide, and_mask_ne_zero hw, ← test_eq_false hi, Bool.not_eq_false]

private theorem becomes_of (h : b.Ok) {bits : List (BitVec 64)} {free : ℕ}
    (hlen : bits.length = b.bits.length)
    (hpadding : ∀ j, b.nframes ≤ j → test b.bits j = true → test bits j = true)
    (hF : ∀ j < b.nframes, test bits j = false ↔ j ∈ F) (hsub : F ⊆ Finset.range b.nframes)
    (hfree : free = F.card) : b.Becomes ⟨bits, b.base, b.nframes, b.cursor, free⟩ F := by
  have hset : freeSet ⟨bits, b.base, b.nframes, b.cursor, free⟩ = F := by
    ext j
    rw [mem_freeSet]
    constructor
    · rintro ⟨hj, hclear⟩
      exact (hF j hj).mp hclear
    · intro hj
      have hlt := Finset.mem_range.mp (hsub hj)
      exact ⟨hlt, (hF j hlt).mpr hj⟩
  refine ⟨⟨?_, h.aligned, ?_, h.cursor_lt, fun j hj hlt => ?_⟩, rfl, rfl, hset⟩
  · exact hlen ▸ h.storage
  · rw [hset]
    exact hfree
  · exact hpadding j hj (h.padding j hj (hlen ▸ hlt))

private theorem freeSet_subset : b.freeSet ⊆ Finset.range b.nframes := Finset.filter_subset _ _

private theorem Ok.becomes_insert (h : b.Ok) {w : BitVec 64} (hw : b.bits[i / 64]? = some w)
    {free : ℕ} (hfree : free = (b.freeSet.erase i).card) :
    b.Becomes ⟨b.bits.set (i / 64) (w ||| mask i), b.base, b.nframes, b.cursor, free⟩
      (b.freeSet.erase i) := by
  refine becomes_of h (List.length_set ..) (fun j _ hset => ?_) (fun j hj => ?_)
    ((Finset.erase_subset _ _).trans freeSet_subset) hfree
  · rw [test_insert hw, hset, Bool.true_or]
  · rw [test_insert hw, Bool.or_eq_false_iff, test_eq_false hj, decide_eq_false_iff_not,
      Finset.mem_erase, and_comm]

private theorem Ok.becomes_erase (h : b.Ok) {w : BitVec 64} (hw : b.bits[i / 64]? = some w)
    (hi : i < b.nframes) {free : ℕ} (hfree : free = (insert i b.freeSet).card) :
    b.Becomes ⟨b.bits.set (i / 64) (w &&& ~~~mask i), b.base, b.nframes, b.cursor, free⟩
      (insert i b.freeSet) := by
  refine becomes_of h (List.length_set ..) (fun j hj hset => ?_) (fun j hj => ?_)
    (Finset.insert_subset (Finset.mem_range.mpr hi) freeSet_subset) hfree
  · have hne : j ≠ i := by omega
    rw [test_erase hw, hset, decide_eq_false hne]
    rfl
  · rw [test_erase hw, Bool.and_eq_false_iff, test_eq_false hj, Bool.not_eq_false',
      decide_eq_true_eq, Finset.mem_insert, or_comm]

/-- The bit of a tracked frame can be changed. -/
theorem Ok.setUsed_spec (h : b.Ok) (hi : i < b.nframes) (used : Bool) :
    ∃ b', b.setUsed i used = .ok b' ∧
      b.Becomes b' (if used then b.freeSet.erase i else insert i b.freeSet) ∧
      b'.cursor = b.cursor := by
  obtain ⟨w, hw⟩ := h.word hi
  have hwas : decide (w &&& mask i ≠ 0) = decide (i ∉ b.freeSet) := by
    rw [decide_eq_decide, and_mask_ne_zero hw, ← test_eq_false hi, Bool.not_eq_false]
  simp only [setUsed, hw, hwas]
  cases used with
  | true =>
    by_cases hmem : i ∈ b.freeSet
    · have hfree : b.free ≠ 0 := by
        rw [h.free_eq]
        exact Finset.card_ne_zero_of_mem hmem
      have hcount : b.free - 1 = (b.freeSet.erase i).card := by
        rw [Finset.card_erase_of_mem hmem, h.free_eq]
      refine ⟨_, ?_, h.becomes_insert hw hcount, rfl⟩
      rw [if_pos rfl, if_neg (by simpa using hmem), if_neg hfree]
    · have hcount : b.free = (b.freeSet.erase i).card := by
        rw [Finset.erase_eq_of_notMem hmem, h.free_eq]
      refine ⟨_, ?_, h.becomes_insert hw hcount, rfl⟩
      rw [if_pos rfl, if_pos (by simpa using hmem)]
  | false =>
    by_cases hmem : i ∈ b.freeSet
    · have hcount : b.free = (insert i b.freeSet).card := by
        rw [Finset.insert_eq_of_mem hmem, h.free_eq]
      refine ⟨_, ?_, h.becomes_erase hw hi hcount, rfl⟩
      rw [if_neg (by decide), if_neg (by simpa using hmem)]
    · have hcount : b.free + 1 = (insert i b.freeSet).card := by
        rw [Finset.card_insert_of_notMem hmem, h.free_eq]
      refine ⟨_, ?_, h.becomes_erase hw hi hcount, rfl⟩
      rw [if_neg (by decide), if_pos (by simpa using hmem)]

private theorem Ico_succ_front (i n : ℕ) :
    Finset.Ico i (i + (n + 1)) = insert i (Finset.Ico (i + 1) (i + 1 + n)) := by
  ext j
  simp only [Finset.mem_Ico, Finset.mem_insert]
  omega

/-- A range of tracked frames can be changed. -/
theorem Ok.setRange_spec (h : b.Ok) (hi : i + n ≤ b.nframes) (used : Bool) :
    ∃ b', b.setRange used n i = .ok b' ∧ b.Becomes b'
      (if used then b.freeSet \ Finset.Ico i (i + n) else b.freeSet ∪ Finset.Ico i (i + n)) := by
  induction n generalizing b i with
  | zero =>
    refine ⟨b, rfl, ?_⟩
    simpa using h.refl
  | succ n ih =>
    obtain ⟨b₁, hset, hb₁, -⟩ := h.setUsed_spec (show i < b.nframes by omega) used
    have hrange : i + 1 + n ≤ b₁.nframes := by
      rw [hb₁.nframes_eq]
      omega
    obtain ⟨b', hrest, hb'⟩ := ih hb₁.ok hrange
    refine ⟨b', ?_, ?_⟩
    · rw [setRange, hset]
      exact hrest
    · have hboth := hb₁.trans hb'
      cases used with
      | true =>
        simp only [if_true, hb₁.freeSet_eq] at hboth ⊢
        rwa [Ico_succ_front, Finset.sdiff_insert, ← Finset.erase_sdiff_comm]
      | false =>
        simp only [Bool.false_eq_true, if_false, hb₁.freeSet_eq] at hboth ⊢
        rwa [Ico_succ_front, Finset.union_insert, ← Finset.insert_union]

/-- The tracked frames of the range from `first` on. -/
theorem clip_le (first k : ℕ) (hfirst : first ≤ b.nframes) :
    first + (min (first + k) b.nframes - first) ≤ b.nframes := by
  omega

private theorem Ok.setClipped_spec (h : b.Ok) (used : Bool) (first k : ℕ) :
    ∃ b', b.setRange used (min (first + k) b.nframes - first) first = .ok b' ∧ b.Becomes b'
      (if used then b.freeSet \ Finset.Ico first (first + k)
        else b.freeSet ∪ (Finset.Ico first (first + k) ∩ Finset.range b.nframes)) := by
  rcases Nat.le_total first b.nframes with hfirst | hfirst
  · obtain ⟨b', hb', hbecomes⟩ := h.setRange_spec (clip_le first k hfirst) used
    refine ⟨b', hb', ?_⟩
    have hclip : first + (min (first + k) b.nframes - first) = min (first + k) b.nframes := by omega
    have hinter : Finset.Ico first (min (first + k) b.nframes) =
        Finset.Ico first (first + k) ∩ Finset.range b.nframes := by
      ext j
      simp only [Finset.mem_Ico, Finset.mem_inter, Finset.mem_range]
      omega
    have hdiff : b.freeSet \ (Finset.Ico first (first + k) ∩ Finset.range b.nframes) =
        b.freeSet \ Finset.Ico first (first + k) := by
      ext j
      simp only [Finset.mem_sdiff, Finset.mem_inter, mem_freeSet, Finset.mem_range]
      tauto
    rwa [hclip, hinter, hdiff] at hbecomes
  · have hzero : min (first + k) b.nframes - first = 0 := by omega
    have hunion : b.freeSet ∪ (Finset.Ico first (first + k) ∩ Finset.range b.nframes) =
        b.freeSet := by
      refine Finset.union_eq_left.mpr fun j hj => ?_
      simp only [Finset.mem_inter, Finset.mem_Ico, Finset.mem_range] at hj
      omega
    have hdiff : b.freeSet \ Finset.Ico first (first + k) = b.freeSet := by
      refine Finset.sdiff_eq_self_of_disjoint (Finset.disjoint_left.mpr fun j hj hin => ?_)
      have hlt := (mem_freeSet.mp hj).1
      have hle := (Finset.mem_Ico.mp hin).1
      omega
    refine ⟨b, by rw [hzero]; rfl, ?_⟩
    rw [hunion, hdiff, ite_self]
    exact h.refl

/-- Every address of a frame from the base on is that of its frame. -/
theorem Ok.exists_frame (h : b.Ok) {addr : ℕ} (haligned : addr % frameSize = 0)
    (hbase : b.base ≤ addr) : ∃ i, addr = b.addrOf i := by
  have := h.aligned
  refine ⟨(addr - b.base) / frameSize, ?_⟩
  unfold frameSize addrOf at *
  unfold frameSize
  omega

/-- The address of a frame leads back to it. -/
theorem Ok.indexOf_addrOf (h : b.Ok) (i : ℕ) : b.indexOf (b.addrOf i) = .ok i := by
  have hsub : (b.addrOf i - b.base) / frameSize = i := by
    rw [addrOf, Nat.add_sub_cancel_left, Nat.mul_div_cancel _ (by decide)]
  have haligned : b.addrOf i % frameSize = 0 := by
    rw [addrOf, Nat.add_mul_mod_self_right]
    exact h.aligned
  have hle : b.base ≤ b.addrOf i := Nat.le_add_right ..
  rw [indexOf, if_neg (by omega), hsub]

/-- The whole frames of a range become free, as far as they are tracked. -/
theorem Ok.markFreeRange_spec (h : b.Ok) (i len : ℕ) :
    ∃ b', b.markFreeRange (b.addrOf i) len = .ok b' ∧ b.Becomes b'
      (b.freeSet ∪ (Finset.Ico i (i + len / frameSize) ∩ Finset.range b.nframes)) := by
  rw [markFreeRange, h.indexOf_addrOf]
  exact h.setClipped_spec false i (len / frameSize)

/-- The frames that a range touches become used. -/
theorem Ok.markUsedRange_spec (h : b.Ok) (i len : ℕ) :
    ∃ b', b.markUsedRange (b.addrOf i) len = .ok b' ∧ b.Becomes b'
      (b.freeSet \ Finset.Ico i (i + (len + frameSize - 1) / frameSize)) := by
  rw [markUsedRange, h.indexOf_addrOf]
  exact h.setClipped_spec true i ((len + frameSize - 1) / frameSize)

private theorem turn_eq {start n k : ℕ} (hstart : start < n) (hk : k ≤ n) :
    (start + k) % n = if start + k < n then start + k else start + k - n := by
  split
  · next hlt => exact Nat.mod_eq_of_lt hlt
  · next hge =>
    rw [Nat.mod_eq_sub_mod (by omega)]
    exact Nat.mod_eq_of_lt (by omega)

private theorem exists_turn {start n j : ℕ} (hstart : start < n) (hj : j < n) :
    ∃ k < n, (start + k) % n = j := by
  rcases Nat.lt_or_ge j start with hlt | hge
  · refine ⟨j + n - start, by omega, ?_⟩
    rw [turn_eq hstart (by omega), if_neg (by omega)]
    omega
  · refine ⟨j - start, by omega, ?_⟩
    rw [turn_eq hstart (by omega), if_pos (by omega)]
    omega

private theorem Ok.allocLoop_spec (h : b.Ok) {start k rounds : ℕ} (hstart : start < b.nframes)
    (hk : k < b.nframes) (hrounds : b.nframes ≤ k + rounds)
    (hseen : ∀ j < k, (start + j) % b.nframes ∉ b.freeSet) (hfree : b.freeSet.Nonempty) :
    ∃ j b', b.allocLoop start rounds ((start + k) % b.nframes) = .ok (some (b.addrOf j), b') ∧
      j ∈ b.freeSet ∧ b.Becomes b' (b.freeSet.erase j) := by
  induction rounds generalizing k with
  | zero => omega
  | succ rounds ih =>
    have hpos : 0 < b.nframes := by omega
    have hi : (start + k) % b.nframes < b.nframes := Nat.mod_lt _ hpos
    by_cases hmem : (start + k) % b.nframes ∈ b.freeSet
    · obtain ⟨b', hset, hb', -⟩ := h.setUsed_spec hi true
      refine ⟨_, { b' with cursor := ((start + k) % b.nframes + 1) % b.nframes }, ?_, hmem, ?_⟩
      · rw [allocLoop, h.isUsed_eq hi, decide_eq_false (not_not.mpr hmem)]
        change (b.setUsed _ true >>= _) = _
        rw [hset]
        rfl
      · obtain ⟨⟨hstorage, haligned, hcount, -, hpadding⟩, hbase, hnframes, hset'⟩ := hb'
        refine ⟨⟨hstorage, haligned, hcount, fun _ => ?_, hpadding⟩, hbase, hnframes, hset'⟩
        change (_ + 1) % b.nframes < b'.nframes
        rw [hnframes]
        exact Nat.mod_lt _ hpos
    · have hseen' : ∀ j < k + 1, (start + j) % b.nframes ∉ b.freeSet := by
        intro j hj
        rcases Nat.lt_succ_iff_lt_or_eq.mp hj with hlt | rfl
        · exact hseen j hlt
        · exact hmem
      have hturn : ((start + k) % b.nframes + 1) % b.nframes = (start + (k + 1)) % b.nframes := by
        rw [Nat.mod_add_mod, Nat.add_assoc]
      -- After a whole turn every frame was seen, and one of them is free.
      have hlt : k + 1 < b.nframes := by
        by_contra hge
        obtain ⟨j, hj⟩ := hfree
        obtain ⟨k', hk', rfl⟩ := exists_turn hstart (mem_freeSet.mp hj).1
        exact hseen' k' (by omega) hj
      have hne : (start + (k + 1)) % b.nframes ≠ start := by
        rw [turn_eq hstart (by omega)]
        split <;> omega
      obtain ⟨j, b', hloop, hj, hb'⟩ := ih hlt (by omega) hseen'
      refine ⟨j, b', ?_, hj, hb'⟩
      rw [allocLoop, h.isUsed_eq hi, decide_eq_true hmem, ← hloop, ← hturn]
      change (if _ = start then _ else _) = _
      rw [if_neg (hturn ▸ hne)]

/-- A free frame is allocated if there is one. -/
theorem Ok.alloc_spec (h : b.Ok) :
    (b.freeSet = ∅ ∧ b.alloc = .ok (none, b)) ∨
      ∃ j b', b.alloc = .ok (some (b.addrOf j), b') ∧ j ∈ b.freeSet ∧
        b.Becomes b' (b.freeSet.erase j) := by
  rcases Finset.eq_empty_or_nonempty b.freeSet with hempty | hfree
  · refine .inl ⟨hempty, if_pos ?_⟩
    rw [h.free_eq, hempty, Finset.card_empty]
  · have hne : b.free ≠ 0 := by
      rw [h.free_eq]
      exact Finset.card_ne_zero.mpr hfree
    obtain ⟨j, hj⟩ := hfree
    have hpos : 0 < b.nframes := by
      have := (mem_freeSet.mp hj).1
      omega
    have hcursor := h.cursor_lt hpos
    have hloop := @Ok.allocLoop_spec b h b.cursor 0 b.nframes hcursor hpos (by omega)
      (fun j hj => absurd hj (Nat.not_lt_zero j)) ⟨j, hj⟩
    rw [Nat.add_zero, Nat.mod_eq_of_lt hcursor] at hloop
    rw [alloc, if_neg hne]
    exact .inr hloop

/-- A run of `n` frames from `i` on that can be allocated: tracked, aligned and free. -/
structure Fits (b : FrameBitmap) (n align i : ℕ) : Prop where
  /-- The frames are tracked. -/
  within : i + n ≤ b.nframes
  /-- The physical address is aligned. -/
  aligned : align ∣ b.base / frameSize + i
  /-- The frames are free. -/
  free : Finset.Ico i (i + n) ⊆ b.freeSet

private theorem Ok.firstUsed_spec (h : b.Ok) {j : ℕ} (hrange : i + j + n ≤ b.nframes)
    (hseen : ∀ k < j, i + k ∈ b.freeSet) :
    (b.firstUsed i n j = .ok none ∧ Finset.Ico i (i + j + n) ⊆ b.freeSet) ∨
      ∃ k < j + n, b.firstUsed i n j = .ok (some k) ∧ i + k ∉ b.freeSet := by
  induction n generalizing j with
  | zero =>
    refine .inl ⟨rfl, fun k hk => ?_⟩
    obtain ⟨hle, hlt⟩ := Finset.mem_Ico.mp hk
    have := hseen (k - i) (by omega)
    rwa [Nat.add_sub_cancel' hle] at this
  | succ n ih =>
    have hi : i + j < b.nframes := by omega
    by_cases hmem : i + j ∈ b.freeSet
    · have hseen' : ∀ k < j + 1, i + k ∈ b.freeSet := by
        intro k hk
        rcases Nat.lt_succ_iff_lt_or_eq.mp hk with hlt | rfl
        · exact hseen k hlt
        · exact hmem
      have hstep : b.firstUsed i (n + 1) j = b.firstUsed i n (j + 1) := by
        rw [firstUsed, h.isUsed_eq hi, decide_eq_false (not_not.mpr hmem)]
        rfl
      have hend : i + j + (n + 1) = i + (j + 1) + n := by omega
      rw [hstep, hend, show j + (n + 1) = j + 1 + n by omega]
      exact ih (by omega) hseen'
    · refine .inr ⟨j, by omega, ?_, hmem⟩
      rw [firstUsed, h.isUsed_eq hi, decide_eq_true hmem]
      rfl

private theorem not_dvd_of_lt_next {a x y : ℕ} (hx : x % a ≠ 0) (hle : x ≤ y)
    (hlt : y < x + (a - x % a)) : ¬ a ∣ y := by
  rintro ⟨c, rfl⟩
  have hdiv := Nat.div_add_mod x a
  have hc : x / a < c := by
    refine Nat.lt_of_mul_lt_mul_left (a := a) ?_
    omega
  have hnext : a * (x / a + 1) ≤ a * c := Nat.mul_le_mul_left a hc
  rw [Nat.mul_succ] at hnext
  omega

private theorem not_fits_below {align i' : ℕ} (hbelow : ∀ j < i, ¬ b.Fits n align j)
    (hskip : ∀ j, i ≤ j → j < i' → ¬ b.Fits n align j) : ∀ j < i', ¬ b.Fits n align j := by
  intro j hj
  rcases Nat.lt_or_ge j i with hlt | hge
  · exact hbelow j hlt
  · exact hskip j hge hj

private theorem Ok.contigLoop_spec (h : b.Ok) {align rounds : ℕ} (halign : 0 < align)
    (hn : 0 < n) (hpos : 0 < rounds) (hrounds : b.nframes < i + rounds)
    (hbelow : ∀ j < i, ¬ b.Fits n align j) :
    (b.contigLoop n align rounds i = .ok (none, b) ∧ ∀ j, ¬ b.Fits n align j) ∨
      ∃ j b', b.contigLoop n align rounds i = .ok (some (b.addrOf j), b') ∧
        IsLeast {j | b.Fits n align j} j ∧ b.Becomes b' (b.freeSet \ Finset.Ico j (j + n)) := by
  induction rounds generalizing i with
  | zero => omega
  | succ rounds ih =>
    rw [contigLoop]
    by_cases hend : i + n ≤ b.nframes
    · rw [if_pos hend]
      by_cases hmis : (b.base / frameSize + i) % align ≠ 0
      · have hlt := Nat.mod_lt (b.base / frameSize + i) halign
        simp only [if_pos hmis]
        -- No frame before the next aligned one has an aligned address.
        refine ih (by omega) (by omega) (not_fits_below hbelow fun j hle hj hfits => ?_)
        exact not_dvd_of_lt_next hmis (by omega) (by omega) hfits.aligned
      · simp only [if_neg hmis]
        rcases h.firstUsed_spec (i := i) (j := 0) hend (fun k hk => absurd hk (Nat.not_lt_zero k))
          with ⟨hnone, hsub⟩ | ⟨k, hk, hsome, hused⟩
        · obtain ⟨b', hset, hb'⟩ := h.setRange_spec hend true
          refine .inr ⟨i, b', ?_, ⟨⟨hend, ?_, hsub⟩, fun j hj => ?_⟩, hb'⟩
          · rw [hnone]
            change (b.setRange true n i >>= _) = _
            rw [hset]
            rfl
          · exact Nat.dvd_of_mod_eq_zero (not_not.mp hmis)
          · exact Nat.le_of_not_lt fun hlt => hbelow j hlt hj
        · rw [hsome]
          -- Every start up to the used frame has that frame in its run.
          refine ih (by omega) (by omega) (not_fits_below hbelow fun j hle hj hfits => ?_)
          exact hused (hfits.free (Finset.mem_Ico.mpr ⟨by omega, by omega⟩))
    · rw [if_neg hend]
      refine .inl ⟨rfl, fun j hfits => ?_⟩
      have hwithin := hfits.within
      exact hbelow j (by omega) hfits

/-- The first run that fits is allocated; without one nothing changes. -/
theorem Ok.allocContig_first (h : b.Ok) {align : ℕ} (hn : 0 < n)
    (halign : align = 2 ^ align.log2) :
    (b.allocContig n align = .ok (none, b) ∧ ∀ j, ¬ b.Fits n align j) ∨
      ∃ j b', b.allocContig n align = .ok (some (b.addrOf j), b') ∧
        IsLeast {j | b.Fits n align j} j ∧ b.Becomes b' (b.freeSet \ Finset.Ico j (j + n)) := by
  have hpos : 0 < align := halign ▸ Nat.two_pow_pos _
  rw [allocContig, if_neg (by omega)]
  by_cases hfree : b.free < n
  · refine .inl ⟨if_pos hfree, fun j hfits => ?_⟩
    have hcard := Finset.card_le_card hfits.free
    rw [Nat.card_Ico, ← h.free_eq] at hcard
    omega
  · rw [if_neg hfree]
    exact h.contigLoop_spec hpos hn (by omega) (by omega) fun j hj => absurd hj (Nat.not_lt_zero j)

/-- Contiguous free frames are allocated, or nothing changes. -/
theorem Ok.allocContig_spec (h : b.Ok) {align : ℕ} (hn : 0 < n) (halign : align = 2 ^ align.log2) :
    b.allocContig n align = .ok (none, b) ∨
      ∃ j b', b.allocContig n align = .ok (some (b.addrOf j), b') ∧
        Finset.Ico j (j + n) ⊆ b.freeSet ∧ (b.base / frameSize + j) % align = 0 ∧
        b.Becomes b' (b.freeSet \ Finset.Ico j (j + n)) := by
  rcases h.allocContig_first hn halign with ⟨hnone, -⟩ | ⟨j, b', hsome, ⟨hfits, -⟩, hb'⟩
  · exact .inl hnone
  · exact .inr ⟨j, b', hsome, hfits.free, Nat.mod_eq_zero_of_dvd hfits.aligned, hb'⟩

/-- An assertion fails for no frames and for an alignment that is no power of two. -/
theorem allocContig_args {align : ℕ} {r : Option ℕ} (h : b.allocContig n align = .ok (r, b')) :
    0 < n ∧ align = 2 ^ align.log2 := by
  unfold allocContig at h
  split at h
  · cases h
  · next hargs => omega

private theorem Ok.freeLoop_spec (h : b.Ok) (hrange : i + n ≤ b.nframes)
    (hused : Disjoint b.freeSet (Finset.Ico i (i + n))) :
    ∃ b', b.freeLoop n i = .ok b' ∧ b.Becomes b' (b.freeSet ∪ Finset.Ico i (i + n)) := by
  induction n generalizing b i with
  | zero => exact ⟨b, rfl, by simpa using h.refl⟩
  | succ n ih =>
    have hi : i < b.nframes := by omega
    have hnot : i ∉ b.freeSet := fun hmem =>
      Finset.disjoint_left.mp hused hmem (Finset.mem_Ico.mpr ⟨le_rfl, by omega⟩)
    obtain ⟨b₁, hset, hb₁, -⟩ := h.setUsed_spec hi false
    simp only [Bool.false_eq_true, if_false] at hb₁
    have hused₁ : Disjoint b₁.freeSet (Finset.Ico (i + 1) (i + 1 + n)) := by
      rw [hb₁.freeSet_eq, Finset.disjoint_left]
      intro j hj hin
      obtain ⟨hle, hlt⟩ := Finset.mem_Ico.mp hin
      rcases Finset.mem_insert.mp hj with rfl | hj
      · omega
      · exact Finset.disjoint_left.mp hused hj (Finset.mem_Ico.mpr ⟨by omega, by omega⟩)
    obtain ⟨b', hrest, hb'⟩ := ih hb₁.ok (by rw [hb₁.nframes_eq]; omega) hused₁
    refine ⟨b', ?_, ?_⟩
    · rw [freeLoop, h.isUsed_eq hi, decide_eq_true hnot]
      change (b.setUsed i false >>= _) = _
      rw [hset]
      exact hrest
    · have hboth := hb₁.trans hb'
      rwa [hb₁.freeSet_eq, Finset.insert_union, ← Finset.union_insert, ← Ico_succ_front] at hboth

private theorem Ok.disjoint_of_freeLoop (h : b.Ok) (hrange : i + n ≤ b.nframes)
    (hfree : b.freeLoop n i = .ok b') : Disjoint b.freeSet (Finset.Ico i (i + n)) := by
  induction n generalizing b i with
  | zero => simp
  | succ n ih =>
    have hi : i < b.nframes := by omega
    rw [freeLoop, h.isUsed_eq hi] at hfree
    by_cases hmem : i ∈ b.freeSet
    · rw [decide_eq_false (not_not.mpr hmem)] at hfree
      cases hfree
    · rw [decide_eq_true hmem] at hfree
      obtain ⟨b₁, hset, hb₁, -⟩ := h.setUsed_spec hi false
      change (b.setUsed i false >>= _) = _ at hfree
      rw [hset] at hfree
      have hrest := ih hb₁.ok (by rw [hb₁.nframes_eq]; omega) hfree
      simp only [Bool.false_eq_true, if_false, hb₁.freeSet_eq] at hrest
      rw [Ico_succ_front, Finset.disjoint_insert_right]
      exact ⟨hmem, (Finset.disjoint_insert_left.mp hrest).2⟩

/-- Tracked frames that were given back were used. -/
theorem Ok.disjoint_of_freeFrames (h : b.Ok) (hrange : i + n ≤ b.nframes)
    (hfree : b.freeFrames (b.addrOf i) n = .ok b') :
    Disjoint b.freeSet (Finset.Ico i (i + n)) := by
  rw [freeFrames, h.indexOf_addrOf] at hfree
  exact h.disjoint_of_freeLoop hrange hfree

/-- Used frames can be given back. -/
theorem Ok.freeFrames_spec (h : b.Ok) (hrange : i + n ≤ b.nframes)
    (hused : Disjoint b.freeSet (Finset.Ico i (i + n))) :
    ∃ b', b.freeFrames (b.addrOf i) n = .ok b' ∧
      b.Becomes b' (b.freeSet ∪ Finset.Ico i (i + n)) := by
  rw [freeFrames, h.indexOf_addrOf]
  exact h.freeLoop_spec hrange hused

end FrameBitmap

end Yggdrasil
