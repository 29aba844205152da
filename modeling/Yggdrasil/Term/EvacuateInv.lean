import Yggdrasil.Lib.Layout
import Yggdrasil.Lib.Outcome
import Yggdrasil.Term.Evacuate

/-!
# The invariant of the collector

At any moment the to-space holds copies of some of the live objects, laid out one
after the other in the order they were found. References in the copies below the
scan position point to copies; the others still point to the originals. The header
of every copied object is a forwarding word, and nothing else has changed.
-/

namespace Yggdrasil

namespace Evac

open Layout

/-- The collector may move the objects `live` of `space` to the heap `dst`. -/
structure Setup (mem : Mem) (space : Set ℕ) (live : Finset ℕ) (dst : Heap) : Prop where
  /-- From-space holds well-formed objects. -/
  objects : Space mem space
  /-- The live objects are among them. -/
  sub : ∀ a ∈ live, a ∈ space
  /-- Live objects refer to live objects. -/
  closed : ∀ a ∈ live, ∀ b, RefersTo mem a b → b ∈ live
  /-- To-space is disjoint from every object. -/
  apart : ∀ a ∈ space, a + sizeAt mem a ≤ dst.base ∨ dst.base + dst.cap ≤ a
  /-- To-space lies in the address space. -/
  bound : dst.base + dst.cap ≤ 2 ^ 61

/-- An allocation failed, and to-space has no room for all live objects. -/
def Full (mem : Mem) (live : Finset ℕ) (dst : Heap) (e : EvacError) : Prop :=
  e = .heapFull ∧ dst.cap < dst.top + ∑ a ∈ live, sizeAt mem a

/-- The first free word of a heap. -/
def next (h : Heap) : ℕ := h.base + h.top

/-- Where the copy of an object stands when `ds` have been copied. -/
def copyOf (mem : Mem) (dst : Heap) (ds : List ℕ) (a : ℕ) : ℕ :=
  next dst + offset (sizeAt mem) ds a

/-- A term with its pointer moved to the copy. -/
def forward (mem : Mem) (dst : Heap) (ds : List ℕ) (t : Term) : Term :=
  if t.isBoxed then Term.ofAddr (copyOf mem dst ds t.addr) else t

/-- The objects `ds` have been copied and all references below address `q` in the
copies have been updated. -/
structure Inv (mem : Mem) (live : Finset ℕ) (dst : Heap) (ds : List ℕ) (q : ℕ) (s : Store) :
    Prop where
  /-- To-space is used up to the end of the copies. -/
  heap : s.heap = { dst with top := dst.top + total (sizeAt mem) ds }
  /-- The copies fit. -/
  fits : dst.top + total (sizeAt mem) ds ≤ dst.cap
  /-- No object is copied twice. -/
  nodup : ds.Nodup
  /-- Only live objects are copied. -/
  sub : ∀ a ∈ ds, a ∈ live
  /-- The copies agree with the originals up to updated references. -/
  copies : ∀ a ∈ ds, ∀ j < sizeAt mem a, s.mem (copyOf mem dst ds a + j) =
    if IsRef (mem a) j ∧ copyOf mem dst ds a + j < q then (forward mem dst ds ⟨mem (a + j)⟩).word
    else mem (a + j)
  /-- Updated references point to copies. -/
  closed : ∀ a ∈ ds, ∀ j, IsRef (mem a) j → copyOf mem dst ds a + j < q →
    Term.isBoxed ⟨mem (a + j)⟩ = true → Term.addr ⟨mem (a + j)⟩ ∈ ds
  /-- Copied objects are forwarded. -/
  forwards : ∀ a ∈ ds, s.mem a = (Term.ofAddr (copyOf mem dst ds a)).word ||| kindFwd
  /-- Nothing else has changed. -/
  frame : ∀ c, c ∉ ds → (c < next dst ∨ next dst + total (sizeAt mem) ds ≤ c) → s.mem c = mem c

variable {mem : Mem} {space : Set ℕ} {live : Finset ℕ} {dst : Heap} {ds : List ℕ} {q : ℕ}
  {s : Store}

/-- Later copies do not move a copy. -/
theorem copyOf_append {a : ℕ} (ha : a ∈ ds) (more : List ℕ) :
    copyOf mem dst (ds ++ more) a = copyOf mem dst ds a := by
  rw [copyOf, copyOf, offset_append ha]

/-- Later copies do not change where copied references point. -/
theorem forward_append {t : Term} (ht : t.isBoxed = true → t.addr ∈ ds) (more : List ℕ) :
    forward mem dst (ds ++ more) t = forward mem dst ds t := by
  by_cases hb : t.isBoxed = true
  · simp only [forward, hb, if_true, copyOf_append (ht hb)]
  · simp only [forward, hb, if_false, Bool.false_eq_true]

/-- Every copy lies in the used part of to-space. -/
theorem copyOf_bounds {a j : ℕ} (ha : a ∈ ds) (hj : j < sizeAt mem a) :
    next dst ≤ copyOf mem dst ds a + j ∧
      copyOf mem dst ds a + j < next dst + total (sizeAt mem) ds := by
  have hblock : offset (sizeAt mem) ds a + sizeAt mem a ≤ total (sizeAt mem) ds :=
    offset_add_size_le ha
  rw [copyOf]
  omega

/-- Live objects lie outside the free part of to-space. -/
theorem Setup.outside (hsetup : Setup mem space live dst) {a j : ℕ} (ha : a ∈ live)
    (hj : j < sizeAt mem a) : a + j < next dst ∨ dst.base + dst.cap ≤ a + j := by
  have hapart := hsetup.apart a (hsetup.sub a ha)
  rw [next]
  omega

/-- Live objects are not empty. -/
theorem Setup.sizeAt_pos (hsetup : Setup mem space live dst) {a : ℕ} (ha : a ∈ live) :
    0 < sizeAt mem a :=
  Yggdrasil.sizeAt_pos (hsetup.objects.ok a (hsetup.sub a ha)).kind

private theorem Inv.orig (hsetup : Setup mem space live dst) (h : Inv mem live dst ds q s)
    {a j : ℕ} (ha : a ∈ live) (hnew : a ∉ ds) (hj : j < sizeAt mem a) :
    s.mem (a + j) = mem (a + j) := by
  have hcap := h.fits
  apply h.frame
  · intro hmem
    have hne : a ≠ a + j := fun heq => hnew (heq ▸ hmem)
    have hdisj := hsetup.objects.disjoint a (hsetup.sub a ha) (a + j)
      (hsetup.sub _ (h.sub _ hmem)) hne
    have hpos := hsetup.sizeAt_pos (h.sub _ hmem)
    omega
  · have hout := hsetup.outside ha hj
    simp only [next] at *
    omega

private theorem fwd_tag {w : Word} (hw : w &&& tagMask = 0#64) :
    (w ||| kindFwd) &&& tagMask = kindFwd ∧ (w ||| kindFwd) &&& ~~~tagMask = w := by
  have hcompl : tagMask &&& ~~~tagMask = 0#64 := by decide
  have hall : tagMask ||| ~~~tagMask = BitVec.allOnes 64 := by decide
  constructor
  · rw [BitVec.and_comm, BitVec.and_or_distrib_left, BitVec.and_comm, hw]
    decide
  · rw [BitVec.and_comm, BitVec.and_or_distrib_left, show kindFwd = tagMask from rfl,
      BitVec.and_comm (~~~tagMask) tagMask, hcompl, BitVec.or_zero]
    calc ~~~tagMask &&& w = (w &&& tagMask) ||| (w &&& ~~~tagMask) := by
          rw [hw, BitVec.zero_or, BitVec.and_comm]
      _ = w &&& (tagMask ||| ~~~tagMask) := (BitVec.and_or_distrib_left).symm
      _ = w := by rw [hall, BitVec.and_allOnes]

private theorem ofAddr_tag (p : ℕ) : (Term.ofAddr p).word &&& tagMask = 0#64 := by
  have h := Term.isBoxed_ofAddr p
  rwa [Term.isBoxed, decide_eq_true_eq] at h

private theorem boxKind_ne_fwd {header : Word} (h : (objWords header).isSome = true) :
    header &&& tagMask ≠ kindFwd := by
  intro hfwd
  simp [objWords, boxKind, hfwd, kindFwd, kindTuple, kindCons, kindBinary, kindMap] at h

private theorem evacOne_immediate {t : Term} (ht : t.isBoxed = false) :
    evacOne t s = .ok t s := by
  unfold evacOne
  rw [if_pos (by simp [ht])]
  rfl

private theorem evacOne_boxed {t : Term} (ht : t.isBoxed = true) :
    evacOne t s =
      if s.mem t.addr &&& tagMask = kindFwd then .ok ⟨s.mem t.addr &&& ~~~tagMask⟩ s
      else match objWords (s.mem t.addr) with
        | none => .error .panic s
        | some words =>
          if s.heap.top + words > s.heap.cap then .error .heapFull s
          else .ok (Term.ofAddr (next s.heap))
            ⟨Function.update (copyWords s.mem t.addr (next s.heap) words) t.addr
              ((Term.ofAddr (next s.heap)).word ||| kindFwd),
              { s.heap with top := s.heap.top + words }⟩ := by
  unfold evacOne
  rw [if_neg (by simp [ht])]
  change (if s.mem t.addr &&& tagMask = kindFwd then
      (pure ⟨s.mem t.addr &&& ~~~tagMask⟩ : EvacM Term) else _) s = _
  split
  · rfl
  · cases objWords (s.mem t.addr) with
    | none => rfl
    | some words =>
      change (EStateM.bind (alloc words) _) s = _
      by_cases hfull : s.heap.top + words > s.heap.cap
      · simp only [EStateM.bind, alloc, Heap.alloc, if_pos hfull]
      · simp only [EStateM.bind, alloc, Heap.alloc, if_neg hfull]
        rfl

/-- The memory after a new object has been copied and forwarded. -/
private def copied (mem : Mem) (dst : Heap) (ds : List ℕ) (a : ℕ) (s : Store) : Store :=
  ⟨Function.update (copyWords s.mem a (next dst + total (sizeAt mem) ds) (sizeAt mem a)) a
      ((Term.ofAddr (next dst + total (sizeAt mem) ds)).word ||| kindFwd),
    { dst with top := dst.top + total (sizeAt mem) (ds ++ [a]) }⟩

private theorem Inv.append_nodup (h : Inv mem live dst ds q s) {a : ℕ} (ha : a ∈ live)
    (hnew : a ∉ ds) : (ds ++ [a]).Nodup ∧ ∀ b ∈ ds ++ [a], b ∈ live := by
  constructor
  · exact List.Nodup.append h.nodup (List.nodup_singleton a) (by simpa using hnew)
  · intro b hb
    rcases List.mem_append.mp hb with hb | hb
    · exact h.sub b hb
    · exact List.mem_singleton.mp hb ▸ ha

private theorem evacOne_new (hsetup : Setup mem space live dst) (h : Inv mem live dst ds q s)
    {t : Term} (ht : t.isBoxed = true) (hlive : t.addr ∈ live) (hnew : t.addr ∉ ds) :
    evacOne t s = if dst.cap < dst.top + total (sizeAt mem) (ds ++ [t.addr])
      then .error .heapFull s
      else .ok (Term.ofAddr (next dst + total (sizeAt mem) ds)) (copied mem dst ds t.addr s) := by
  have hobj := hsetup.objects.ok _ (hsetup.sub _ hlive)
  have hheader : s.mem t.addr = mem t.addr := by
    simpa using h.orig hsetup hlive hnew (hsetup.sizeAt_pos hlive)
  obtain ⟨words, hwords⟩ := Option.isSome_iff_exists.mp hobj.kind
  have hsize : sizeAt mem t.addr = words := by rw [sizeAt, hwords, Option.getD_some]
  have hnext : next { dst with top := dst.top + total (sizeAt mem) ds } =
      next dst + total (sizeAt mem) ds := (Nat.add_assoc ..).symm
  rw [evacOne_boxed ht, hheader, if_neg (boxKind_ne_fwd hobj.kind), hwords]
  simp only [copied, hsize, h.heap, total_append, total_singleton, hnext, Nat.add_assoc]

private theorem copied_mem (a c : ℕ) :
    (copied mem dst ds a s).mem c =
      if c = a then (Term.ofAddr (next dst + total (sizeAt mem) ds)).word ||| kindFwd
      else if next dst + total (sizeAt mem) ds ≤ c ∧
        c < next dst + total (sizeAt mem) ds + sizeAt mem a
      then s.mem (a + (c - (next dst + total (sizeAt mem) ds))) else s.mem c := by
  simp only [copied, Function.update_apply, copyWords]

private theorem Inv.addObject (hsetup : Setup mem space live dst) (h : Inv mem live dst ds q s)
    (hq : q ≤ next dst + total (sizeAt mem) ds) {a : ℕ} (ha : a ∈ live) (hnew : a ∉ ds)
    (hroom : dst.top + total (sizeAt mem) (ds ++ [a]) ≤ dst.cap) :
    Inv mem live dst (ds ++ [a]) q (copied mem dst ds a s) := by
  obtain ⟨hnodup, hsub⟩ := h.append_nodup ha hnew
  have htotal : total (sizeAt mem) (ds ++ [a]) = total (sizeAt mem) ds + sizeAt mem a := by simp
  have hself : copyOf mem dst (ds ++ [a]) a = next dst + total (sizeAt mem) ds := by
    rw [copyOf, offset_append_of_notMem hnew]
  have hout : ∀ b ∈ live, b < next dst ∨ dst.base + dst.cap ≤ b := fun b hb => by
    simpa using hsetup.outside hb (hsetup.sizeAt_pos hb)
  have hnext : next dst = dst.base + dst.top := rfl
  have hkeep : ∀ c, c ≠ a → (c < next dst + total (sizeAt mem) ds ∨
      next dst + total (sizeAt mem) (ds ++ [a]) ≤ c) → (copied mem dst ds a s).mem c = s.mem c := by
    intro c hca hc
    rw [copied_mem, if_neg hca, if_neg (by omega)]
  refine ⟨rfl, hroom, hnodup, hsub, ?_, ?_, ?_, ?_⟩
  · intro b hb j hj
    rcases List.mem_append.mp hb with hb | hb
    · have hbounds : next dst ≤ copyOf mem dst ds b + j ∧
          copyOf mem dst ds b + j < next dst + total (sizeAt mem) ds := copyOf_bounds hb hj
      have houta := hout a ha
      rw [copyOf_append hb, hkeep _ (by omega) (by omega), h.copies b hb j hj]
      split_ifs with hscan
      · rw [forward_append fun hboxed => h.closed b hb j hscan.1 hscan.2 hboxed]
      · rfl
    · obtain rfl := List.mem_singleton.mp hb
      have houta := hout b ha
      rw [hself, copied_mem, if_neg (by omega), if_pos (by omega), if_neg (by omega),
        Nat.add_sub_cancel_left, h.orig hsetup ha hnew hj]
  · intro b hb j hj hlt hboxed
    rcases List.mem_append.mp hb with hb | hb
    · rw [copyOf_append hb] at hlt
      exact List.mem_append_left _ (h.closed b hb j hj hlt hboxed)
    · obtain rfl := List.mem_singleton.mp hb
      rw [hself] at hlt
      omega
  · intro b hb
    rcases List.mem_append.mp hb with hb | hb
    · have houtb := hout b (h.sub b hb)
      rw [copyOf_append hb, hkeep b (fun heq => hnew (heq ▸ hb)) (by omega), h.forwards b hb]
    · obtain rfl := List.mem_singleton.mp hb
      rw [hself, copied_mem, if_pos rfl]
  · intro c hc hrange
    have hca : c ≠ a := fun heq => hc (heq ▸ List.mem_append_right _ (List.mem_singleton_self _))
    rw [hkeep c hca (by omega)]
    exact h.frame c (fun hmem => hc (List.mem_append_left _ hmem)) (by omega)

/-- Evacuating a term yields its forwarded form and keeps the invariant, possibly
with one more object copied; it fails only for lack of room. -/
theorem Inv.evacOne_ends (hsetup : Setup mem space live dst) (h : Inv mem live dst ds q s)
    (hq : q ≤ next dst + total (sizeAt mem) ds) {t : Term}
    (ht : t.isBoxed = true → t.addr ∈ live) :
    EStateM.Ends (fun e _ => Full mem live dst e)
      (fun t' s' => ∃ more, t' = forward mem dst (ds ++ more) t ∧
        Inv mem live dst (ds ++ more) q s' ∧ (t.isBoxed = true → t.addr ∈ ds ++ more))
      (evacOne t) s := by
  unfold EStateM.Ends
  by_cases hb : t.isBoxed = true
  · by_cases hmem : t.addr ∈ ds
    · obtain ⟨htag, hword⟩ := fwd_tag (ofAddr_tag (copyOf mem dst ds t.addr))
      rw [evacOne_boxed hb, h.forwards _ hmem, if_pos htag, hword]
      exact ⟨[], by simp [forward, hb], by simpa using h, by simpa using fun _ => hmem⟩
    · rw [evacOne_new hsetup h hb (ht hb) hmem]
      split_ifs with hfull
      · obtain ⟨hnodup, hsub⟩ := h.append_nodup (ht hb) hmem
        exact ⟨rfl, hfull.trans_le (Nat.add_le_add_left (total_le_sum hnodup hsub) _)⟩
      · refine ⟨[t.addr], ?_, h.addObject hsetup hq (ht hb) hmem (by omega), by simp⟩
        simp [forward, hb, copyOf, offset_append_of_notMem hmem]
  · have hb' : t.isBoxed = false := by simpa using hb
    rw [evacOne_immediate hb']
    exact ⟨[], by simp [forward, hb'], by simpa using h, fun hboxed => absurd hboxed hb⟩

end Evac

end Yggdrasil
