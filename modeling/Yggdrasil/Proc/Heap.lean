import Yggdrasil.Term.Heap

/-!
# Process heaps

A process heap is a chain of spans of whole pages. Terms are bump-allocated in the
newest span; growth adds a span, and compaction replaces them all by a fresh one.
The quota bounds the pages held. Spans are named by the word index at which the
direct map shows their frames, and the frame allocator is a parameter.
-/

namespace Yggdrasil

/-- Physically contiguous frames: where they begin, in words, and how many there are. -/
structure Span where
  /-- Word index of the first word. -/
  base : ℕ
  /-- Number of pages of 512 words. -/
  pages : ℕ
  deriving DecidableEq, Repr

/-- `n` words at `a` lie in the span. -/
def Span.Holds (sp : Span) (a n : ℕ) : Prop := sp.base ≤ a ∧ a + n ≤ sp.base + 512 * sp.pages

/-- Two spans share no word. -/
def Span.Disjoint (a b : Span) : Prop :=
  a.base + 512 * a.pages ≤ b.base ∨ b.base + 512 * b.pages ≤ a.base

/-- The heap of a process. -/
structure ProcHeap where
  /-- The newest span, in which terms are allocated. -/
  cur : Heap
  /-- All spans, oldest first. -/
  spans : List Span
  /-- The quota. -/
  maxPages : ℕ
  /-- Pages of all spans. -/
  totalPages : ℕ
  deriving DecidableEq, Repr

namespace ProcHeap

/-- A fresh heap over frames at `base`. -/
def new (initialPages maxPages base : ℕ) : ProcHeap :=
  let pages := max (min initialPages maxPages) 1
  ⟨Heap.new base (pages * 4096), [⟨base, pages⟩], maxPages, pages⟩

/-- Add a span, doubling the heap within the quota; `none` is a refusal. -/
def grow (alloc : ℕ → Option ℕ) (p : ProcHeap) : Option ProcHeap :=
  if p.totalPages ≥ p.maxPages then none
  else
    let next := min p.totalPages (p.maxPages - p.totalPages)
    match alloc next with
    | none => none
    | some base =>
      some { p with
        cur := Heap.new base (next * 4096)
        spans := p.spans ++ [⟨base, next⟩]
        totalPages := p.totalPages + next }

/-- The pages of a compaction target for an estimate in words, in `usize`
arithmetic. -/
def targetPages (p : ProcHeap) (live : Word) : ℕ :=
  max 4 (min (((live * 8).toNat + 4095) / 4096) p.maxPages)

/-- Replace all spans by a fresh one; the old spans are returned. -/
def beginCompact (alloc : ℕ → Option ℕ) (live : Word) (p : ProcHeap) :
    Option (ProcHeap × List Span) :=
  let pages := p.targetPages live
  match alloc pages with
  | none => none
  | some base =>
    some ({ p with
      cur := Heap.new base (pages * 4096)
      spans := [⟨base, pages⟩]
      totalPages := pages }, p.spans)

/-- The heap has more than one span or its span is more than half full. -/
def Pressured (p : ProcHeap) : Prop :=
  p.spans.length > 1 ∨ p.cur.usedBytes * 2 > p.cur.capacityBytes

instance (p : ProcHeap) : Decidable p.Pressured := inferInstanceAs (Decidable (_ ∨ _))

/-- Heaps of processes with the given quota: built, grown, compacted and used for
allocation in any order. -/
inductive Reachable (quota : ℕ) : ProcHeap → Prop
  | new (initial base : ℕ) : Reachable quota (new initial quota base)
  | grow {p p' : ProcHeap} {alloc : ℕ → Option ℕ} : Reachable quota p →
      p.grow alloc = some p' → Reachable quota p'
  | compact {p p' : ProcHeap} {alloc : ℕ → Option ℕ} {live : Word} {old : List Span} :
      Reachable quota p → p.beginCompact alloc live = some (p', old) → Reachable quota p'
  | use {p : ProcHeap} {top : ℕ} : Reachable quota p → top ≤ p.cur.cap →
      Reachable quota { p with cur.top := top }

/-- What holds of every process heap. -/
structure Ok (quota : ℕ) (p : ProcHeap) : Prop where
  /-- The quota never changes. -/
  max_eq : p.maxPages = quota
  /-- The page count is that of the spans. -/
  total_eq : p.totalPages = (p.spans.map Span.pages).sum
  /-- The pages keep to the quota. -/
  total_le : p.totalPages ≤ quota
  /-- Allocation keeps to the newest span. -/
  top_le : p.cur.top ≤ p.cur.cap

/-- Every process heap is in order. -/
theorem Reachable.ok {quota : ℕ} (hquota : 4 ≤ quota) {p : ProcHeap} (h : Reachable quota p) :
    p.Ok quota := by
  induction h with
  | new initial base =>
    refine ⟨rfl, by simp [ProcHeap.new], ?_, by simp [ProcHeap.new, Heap.new]⟩
    simp only [ProcHeap.new]
    omega
  | @grow p p' alloc _ hgrow ih =>
    simp only [ProcHeap.grow] at hgrow
    split at hgrow
    · cases hgrow
    · split at hgrow
      · cases hgrow
      · cases hgrow
        have hmax := ih.max_eq
        have htotal := ih.total_eq
        refine ⟨hmax, by simp [htotal], ?_, by simp [Heap.new]⟩
        dsimp only
        omega
  | @compact p p' alloc live old _ hcompact ih =>
    simp only [beginCompact] at hcompact
    split at hcompact
    · cases hcompact
    · cases hcompact
      have hmax := ih.max_eq
      refine ⟨hmax, by simp, ?_, by simp [Heap.new]⟩
      simp only [targetPages]
      omega
  | use _ htop ih => exact ⟨ih.max_eq, ih.total_eq, ih.total_le, htop⟩

end ProcHeap

end Yggdrasil
