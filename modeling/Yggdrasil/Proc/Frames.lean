import Yggdrasil.Alloc.Custody
import Yggdrasil.Smp.Shootdown
import Mathlib.Algebra.BigOperators.Group.Finset.Basic
import Mathlib.Algebra.Order.Group.Multiset
import Mathlib.Tactic.Abel

/-!
# Frames of processes

Processes take frames for their stacks and heaps and give them back when they are compacted
and finalized. The frames move on the way: from a spawn in progress to the table, from the
heap to the old spans of a compaction, from the table to the record that is finalized outside
the table lock. Every lock is held for one step; the cores interleave in between.
-/

namespace Yggdrasil

/-- Pages of the next span of a growing heap. -/
def ProcHeap.growth (p : ProcHeap) : ℕ := min p.totalPages (p.maxPages - p.totalPages)

/-- How `alloc_retry` ends: with a result, or with "heap quota exceeded". -/
inductive Retried (α : Type) where
  /-- The allocation succeeded. -/
  | returned (a : α)
  /-- The process exits. -/
  | exits

/-- `alloc_retry` with the answers of the frame allocator to its requests, for at most so many
rounds. -/
def allocRetry {α : Type} (f : HeapM α) (answers : ℕ → ℕ → Option ℕ) :
    ℕ → ProcHeap → Mem → Option (Retried α × ProcHeap × Mem)
  | 0, _, _ => none
  | k + 1, heap, mem =>
    match f ⟨mem, heap.cur⟩ with
    | .ok a st => some (.returned a, { heap with cur := st.heap }, st.mem)
    | .error _ st =>
      match ({ heap with cur := st.heap } : ProcHeap).grow (answers k) with
      | some heap' => allocRetry f answers k heap' st.mem
      | none => some (.exits, { heap with cur := st.heap }, st.mem)

namespace Frames

open Shootdown (stackPages maxSlots)

/-- What a process owns. -/
structure Proc where
  /-- The slot of its stack. -/
  slot : ℕ
  /-- Its heap. -/
  heap : ProcHeap
  /-- It has exited or was killed. -/
  dead : Bool

/-- What a core is about to do with frames. -/
inductive Loc where
  /-- Nothing. -/
  | idle
  /-- `map_stack` has a slot. -/
  | spawnSlot (quota slot : ℕ)
  /-- It has the frames, and maps them. -/
  | spawnStack (quota slot : ℕ) (stack : Span)
  /-- The stack is mapped. -/
  | spawnMapped (quota slot : ℕ)
  /-- The heap is made, and the process not yet in the table. -/
  | spawnHeap (slot : ℕ) (heap : ProcHeap)
  /-- `finalize` of a process that was reaped. -/
  | unmap (slot : ℕ) (spans : List Span)
  /-- The stack is unmapped, and its frames are given back one by one. -/
  | freeStack (slot : ℕ) (frames spans : List Span)
  /-- `free_spans`. -/
  | freeSpans (spans : List Span)

/-- The spans a core has in hand. -/
def Loc.held : Loc → Multiset Span
  | spawnStack _ _ stack => {stack}
  | spawnHeap _ heap => heap.spans
  | unmap _ spans => spans
  | freeStack _ frames spans => ↑frames + ↑spans
  | freeSpans spans => spans
  | _ => 0

/-- The slot with a mapped stack that a core has in hand. -/
def Loc.mapped : Loc → Multiset ℕ
  | spawnMapped _ slot | spawnHeap slot _ | unmap slot _ => {slot}
  | _ => 0

/-- The slot without a mapped stack that a core has in hand. -/
def Loc.unmapped : Loc → Multiset ℕ
  | spawnSlot _ slot | spawnStack _ slot _ | freeStack slot _ _ => {slot}
  | _ => 0

/-- The frame allocator, the stack zone, the process table and the cores. -/
structure Kernel (n : ℕ) where
  /-- The frame allocator. -/
  bitmap : FrameBitmap
  /-- Frames the mapper took for page tables. -/
  aside : Multiset ℕ
  /-- The next slot never used. -/
  next : ℕ
  /-- Slots given back, the latest first. -/
  freed : List ℕ
  /-- The stack zone: the stacks that are mapped, by slot. -/
  zone : Multiset (ℕ × Span)
  /-- The processes, by pid. -/
  table : Multiset (ℕ × Proc)
  /-- The cores. -/
  core : Fin n → Loc
  /-- History: how often each frame was taken and given back. -/
  uses : Uses

variable {n : ℕ}

/-- The spans held by processes, by the stack zone and by cores. -/
def heldBy (zone : Multiset (ℕ × Span)) (table : Multiset (ℕ × Proc)) (core : Fin n → Loc) :
    Multiset Span :=
  (table.map fun e => (e.2.heap.spans : Multiset Span)).sum + zone.map Prod.snd +
    ∑ c, (core c).held

/-- The spans held by anyone. -/
def Kernel.held (s : Kernel n) : Multiset Span := heldBy s.zone s.table s.core

/-- Nothing is held before the first process. -/
structure Init (boot : FrameBitmap) (s : Kernel n) : Prop where
  /-- The allocator is as booted. -/
  bitmap : s.bitmap = boot
  /-- No frame is set aside. -/
  aside : s.aside = 0
  /-- No slot was given back. -/
  freed : s.freed = []
  /-- No stack is mapped. -/
  zone : s.zone = 0
  /-- There is no process. -/
  table : s.table = 0
  /-- The cores do nothing. -/
  core : ∀ c, s.core c = .idle
  /-- No frame was taken. -/
  uses : s.uses = .none

/-- The steps. An allocation that is refused changes nothing, or panics where the code expects
it to succeed. -/
inductive Step (boot : FrameBitmap) : Kernel n → Kernel n → Prop
  /-- `spawn` takes a slot that was given back. -/
  | slotFreed {s : Kernel n} (c : Fin n) {quota slot : ℕ} {rest : List ℕ} :
    s.core c = .idle → 64 ≤ quota → s.freed = slot :: rest →
    Step boot s { s with
      freed := rest, core := Function.update s.core c (.spawnSlot quota slot) }
  /-- `spawn` takes a new slot. -/
  | slotNew {s : Kernel n} (c : Fin n) {quota : ℕ} :
    s.core c = .idle → 64 ≤ quota → s.freed = [] → s.next < maxSlots →
    Step boot s { s with
      next := s.next + 1, core := Function.update s.core c (.spawnSlot quota s.next) }
  /-- `map_stack` takes the frames of the stack. -/
  | stackFrames {s : Kernel n} (c : Fin n) {quota slot addr : ℕ} {b : FrameBitmap} :
    s.core c = .spawnSlot quota slot →
    s.bitmap.allocContig stackPages 1 = .ok (some addr, b) →
    Step boot s { s with
      bitmap := b
      core := Function.update s.core c (.spawnStack quota slot (Span.at addr stackPages))
      uses := s.uses.take boot.base (Span.at addr stackPages) }
  /-- The mapper takes a frame for a page table. -/
  | tableFrame {s : Kernel n} (c : Fin n) {quota slot i : ℕ} {stack : Span} {b : FrameBitmap} :
    s.core c = .spawnStack quota slot stack →
    s.bitmap.alloc = .ok (some (s.bitmap.addrOf i), b) →
    Step boot s { s with bitmap := b, aside := i ::ₘ s.aside }
  /-- `map_stack` has mapped the stack. -/
  | mapStack {s : Kernel n} (c : Fin n) {quota slot : ℕ} {stack : Span} :
    s.core c = .spawnStack quota slot stack →
    Step boot s { s with
      zone := (slot, stack) ::ₘ s.zone
      core := Function.update s.core c (.spawnMapped quota slot) }
  /-- `ProcHeap::new`. -/
  | newHeap {s : Kernel n} (c : Fin n) {quota slot addr : ℕ} {b : FrameBitmap} :
    s.core c = .spawnMapped quota slot →
    s.bitmap.allocContig (max (min 16 quota) 1) 1 = .ok (some addr, b) →
    Step boot s { s with
      bitmap := b
      core := Function.update s.core c (.spawnHeap slot (ProcHeap.new 16 quota (addr / 8)))
      uses := s.uses.take boot.base (Span.at addr (max (min 16 quota) 1)) }
  /-- The process is put in the table. -/
  | insert {s : Kernel n} (c : Fin n) {slot pid : ℕ} {heap : ProcHeap} :
    s.core c = .spawnHeap slot heap → (∀ e ∈ s.table, e.1 ≠ pid) →
    Step boot s { s with
      table := (pid, ⟨slot, heap, false⟩) ::ₘ s.table
      core := Function.update s.core c .idle }
  /-- A process allocates terms, or rolls back. -/
  | use {s : Kernel n} {pid top : ℕ} {p : Proc} {rest : Multiset (ℕ × Proc)} :
    s.table = (pid, p) ::ₘ rest → top ≤ p.heap.cur.cap →
    Step boot s { s with
      table := (pid, { p with heap.cur.top := top }) ::ₘ rest }
  /-- A heap grows, in `alloc_retry` or in `recv_where`. -/
  | grow {s : Kernel n} {pid addr : ℕ} {p : Proc} {heap : ProcHeap} {b : FrameBitmap}
      {rest : Multiset (ℕ × Proc)} :
    s.table = (pid, p) ::ₘ rest →
    s.bitmap.allocContig p.heap.growth 1 = .ok (some addr, b) →
    p.heap.grow (fun _ => some (addr / 8)) = some heap →
    Step boot s { s with
      bitmap := b
      table := (pid, { p with heap := heap }) ::ₘ rest
      uses := s.uses.take boot.base (Span.at addr p.heap.growth) }
  /-- A process that is under pressure is compacted; the old spans are still to be freed. -/
  | compact {s : Kernel n} (c : Fin n) {pid addr : ℕ} {p : Proc} {heap : ProcHeap} {live : Word}
      {old : List Span} {b : FrameBitmap} {rest : Multiset (ℕ × Proc)} :
    s.core c = .idle → s.table = (pid, p) ::ₘ rest → p.heap.Pressured →
    s.bitmap.allocContig (p.heap.targetPages live) 1 = .ok (some addr, b) →
    p.heap.beginCompact (fun _ => some (addr / 8)) live = some (heap, old) →
    Step boot s { s with
      bitmap := b
      table := (pid, { p with heap := heap }) ::ₘ rest
      core := Function.update s.core c (.freeSpans old)
      uses := s.uses.take boot.base (Span.at addr (p.heap.targetPages live)) }
  /-- A process exits or is killed. -/
  | die {s : Kernel n} {pid : ℕ} {p : Proc} {rest : Multiset (ℕ × Proc)} :
    s.table = (pid, p) ::ₘ rest →
    Step boot s { s with table := (pid, { p with dead := true }) ::ₘ rest }
  /-- `reap` takes a dead process out of the table. -/
  | reap {s : Kernel n} (c : Fin n) {pid : ℕ} {p : Proc} {rest : Multiset (ℕ × Proc)} :
    s.core c = .idle → s.table = (pid, p) ::ₘ rest → p.dead = true →
    Step boot s { s with
      table := rest, core := Function.update s.core c (.unmap p.slot p.heap.spans) }
  /-- `finalize` unmaps the stack. -/
  | unmap {s : Kernel n} (c : Fin n) {slot : ℕ} {spans : List Span} {stack : Span}
      {rest : Multiset (ℕ × Span)} :
    s.core c = .unmap slot spans → s.zone = (slot, stack) ::ₘ rest →
    Step boot s { s with
      zone := rest, core := Function.update s.core c (.freeStack slot stack.split spans) }
  /-- It gives back a frame of the stack. -/
  | freeFrame {s : Kernel n} (c : Fin n) {slot : ℕ} {frame : Span} {frames spans : List Span}
      {b : FrameBitmap} :
    s.core c = .freeStack slot (frame :: frames) spans →
    s.bitmap.freeFrames (8 * frame.base) frame.pages = .ok b →
    Step boot s { s with
      bitmap := b
      core := Function.update s.core c (.freeStack slot frames spans)
      uses := s.uses.give boot.base frame }
  /-- It gives back the slot. -/
  | freeSlot {s : Kernel n} (c : Fin n) {slot : ℕ} {spans : List Span} :
    s.core c = .freeStack slot [] spans →
    Step boot s { s with
      freed := slot :: s.freed, core := Function.update s.core c (.freeSpans spans) }
  /-- `free_spans` gives back a span. -/
  | freeSpan {s : Kernel n} (c : Fin n) {sp : Span} {spans : List Span} {b : FrameBitmap} :
    s.core c = .freeSpans (sp :: spans) →
    s.bitmap.freeFrames (8 * sp.base) sp.pages = .ok b →
    Step boot s { s with
      bitmap := b
      core := Function.update s.core c (.freeSpans spans)
      uses := s.uses.give boot.base sp }
  /-- It is done. -/
  | done {s : Kernel n} (c : Fin n) : s.core c = .freeSpans [] →
    Step boot s { s with core := Function.update s.core c .idle }

/-! ### The invariant -/

/-- A heap of a process with a quota of at least 64 pages. -/
def HeapOk (heap : ProcHeap) : Prop := ∃ quota, 64 ≤ quota ∧ ProcHeap.Reachable quota heap

/-- What holds of a spawn in progress. -/
def Loc.Ok : Loc → Prop
  | spawnSlot quota _ | spawnStack quota _ _ | spawnMapped quota _ => 64 ≤ quota
  | spawnHeap _ heap => HeapOk heap
  | _ => True

/-- What holds in every state of a run: each frame and each stack slot has one place. -/
structure Kernel.Inv (boot : FrameBitmap) (s : Kernel n) : Prop where
  /-- The frames not free are held, each once. -/
  custody : Custody boot s.bitmap s.aside s.held s.uses
  /-- The heaps are in order. -/
  heaps : ∀ e ∈ s.table, HeapOk e.2.heap
  /-- So are the spawns. -/
  locs : ∀ c, (s.core c).Ok
  /-- The mapped slots are those of processes and of cores. -/
  mapped : s.zone.map Prod.fst = s.table.map (fun e => e.2.slot) + ∑ c, (s.core c).mapped
  /-- Slots are not used twice. -/
  nodup : (s.freed + s.zone.map Prod.fst + ∑ c, (s.core c).unmapped).Nodup
  /-- Slots were handed out. -/
  bound : ∀ slot ∈ s.freed + s.zone.map Prod.fst + ∑ c, (s.core c).unmapped, slot < s.next

variable {boot : FrameBitmap} {s s' : Kernel n} {c : Fin n}

/-- What the other cores add to a sum stays when a core moves. -/
private theorem sum_core {M : Type} [AddCommMonoid M] (g : Loc → M) (core : Fin n → Loc)
    (c : Fin n) : ∃ rest, ∑ d, g (core d) = g (core c) + rest ∧
      ∀ loc, ∑ d, g (Function.update core c loc d) = g loc + rest := by
  refine ⟨∑ d ∈ Finset.univ.erase c, g (core d),
    (Finset.add_sum_erase _ _ (Finset.mem_univ c)).symm, fun loc => ?_⟩
  rw [← Finset.add_sum_erase _ _ (Finset.mem_univ c), Function.update_self]
  refine congrArg _ (Finset.sum_congr rfl fun d hd => ?_)
  rw [Function.update_of_ne (Finset.ne_of_mem_erase hd)]

/-- A core that moves changes what it holds itself. -/
private theorem held_core (zone : Multiset (ℕ × Span)) (table : Multiset (ℕ × Proc))
    (core : Fin n → Loc) (c : Fin n) : ∃ rest, heldBy zone table core = (core c).held + rest ∧
      ∀ loc, heldBy zone table (Function.update core c loc) = loc.held + rest := by
  obtain ⟨rest, hrest, hrest'⟩ := sum_core Loc.held core c
  refine ⟨(table.map fun e => (e.2.heap.spans : Multiset Span)).sum + zone.map Prod.snd + rest,
    ?_, fun loc => ?_⟩
  · rw [heldBy, hrest, add_left_comm]
  · rw [heldBy, hrest', add_left_comm]

/-- A process holds the spans of its heap. -/
private theorem held_table (zone : Multiset (ℕ × Span)) (core : Fin n → Loc) (pid : ℕ) (p : Proc)
    (rest : Multiset (ℕ × Proc)) :
    heldBy zone ((pid, p) ::ₘ rest) core =
      (p.heap.spans : Multiset Span) + heldBy zone rest core := by
  rw [heldBy, heldBy, Multiset.map_cons, Multiset.sum_cons, add_assoc, add_assoc, add_assoc]

/-- A mapped stack is held by the stack zone. -/
private theorem held_zone (zone : Multiset (ℕ × Span)) (table : Multiset (ℕ × Proc))
    (core : Fin n → Loc) (slot : ℕ) (stack : Span) :
    heldBy ((slot, stack) ::ₘ zone) table core = stack ::ₘ heldBy zone table core := by
  rw [heldBy, heldBy, Multiset.map_cons, Multiset.add_cons, Multiset.cons_add]

/-- A heap always has a page. -/
private theorem total_pos {quota : ℕ} {heap : ProcHeap} (h : ProcHeap.Reachable quota heap) :
    0 < heap.totalPages := by
  induction h with
  | new initial base => exact Nat.lt_of_lt_of_le Nat.one_pos (Nat.le_max_right _ 1)
  | @grow p p' alloc _ hgrow ih =>
    simp only [ProcHeap.grow] at hgrow
    split at hgrow
    · cases hgrow
    · split at hgrow
      · cases hgrow
      · cases hgrow
        exact Nat.add_pos_left ih _
  | @compact p p' alloc live old _ hcompact ih =>
    simp only [ProcHeap.beginCompact] at hcompact
    split at hcompact
    · cases hcompact
    · cases hcompact
      exact Nat.lt_of_lt_of_le (by decide : 0 < 4) (Nat.le_max_left 4 _)
  | use _ _ ih => exact ih

/-- A heap that grows gets one more span. -/
private theorem grow_spans {p heap : ProcHeap} {base : ℕ}
    (h : p.grow (fun _ => some base) = some heap) :
    p.totalPages < p.maxPages ∧ heap.spans = p.spans ++ [⟨base, p.growth⟩] := by
  rw [ProcHeap.grow] at h
  split at h
  · cases h
  · cases h
    exact ⟨Nat.lt_of_not_le ‹_›, rfl⟩

/-- A compacted heap has one span, and its old ones are returned. -/
private theorem compact_spans {p heap : ProcHeap} {base : ℕ} {live : Word} {old : List Span}
    (h : p.beginCompact (fun _ => some base) live = some (heap, old)) :
    heap.spans = [⟨base, p.targetPages live⟩] ∧ old = p.spans := by
  rw [ProcHeap.beginCompact] at h
  cases h
  exact ⟨rfl, rfl⟩

/-- A core that keeps its spans in hand. -/
private theorem custody_move {b : FrameBitmap} {aside : Multiset ℕ} {uses : Uses}
    {zone : Multiset (ℕ × Span)} {table : Multiset (ℕ × Proc)} {core : Fin n → Loc} {loc : Loc}
    (h : Custody boot b aside (heldBy zone table core) uses) (hloc : loc.held = (core c).held) :
    Custody boot b aside (heldBy zone table (Function.update core c loc)) uses := by
  obtain ⟨rest, hheld, hheld'⟩ := held_core zone table core c
  refine h.congr ?_
  rw [hheld', hheld, hloc]

private theorem Kernel.Inv.custody_step (h : s.Inv boot) (hstep : Step boot s s') :
    Custody boot s'.bitmap s'.aside s'.held s'.uses := by
  have hcust : Custody boot s.bitmap s.aside (heldBy s.zone s.table s.core) s.uses := h.custody
  cases hstep with
  | slotFreed c hc _ _ => exact custody_move hcust (by rw [hc]; rfl)
  | slotNew c hc _ _ _ => exact custody_move hcust (by rw [hc]; rfl)
  | @stackFrames c quota slot addr b hc halloc =>
    obtain ⟨rest, hheld, hheld'⟩ := held_core s.zone s.table s.core c
    refine (hcust.take (by decide) halloc).congr ?_
    rw [Kernel.held, hheld', hheld, hc]
    simp only [Loc.held, zero_add, Multiset.singleton_add]
  | tableFrame c hc halloc => exact hcust.setAside halloc
  | @mapStack c quota slot stack hc =>
    obtain ⟨rest, hheld, hheld'⟩ := held_core s.zone s.table s.core c
    refine hcust.congr ?_
    rw [Kernel.held, held_zone, hheld', hheld, hc]
    simp only [Loc.held, zero_add, Multiset.singleton_add]
  | @newHeap c quota slot addr b hc halloc =>
    obtain ⟨rest, hheld, hheld'⟩ := held_core s.zone s.table s.core c
    refine (hcust.take (Nat.lt_of_lt_of_le Nat.one_pos (Nat.le_max_right _ 1)) halloc).congr ?_
    rw [Kernel.held, hheld', hheld, hc]
    simp only [Loc.held, ProcHeap.new, Span.at, Multiset.coe_singleton, zero_add,
      Multiset.singleton_add]
  | @insert c slot pid heap hc _ =>
    obtain ⟨rest, hheld, hheld'⟩ := held_core s.zone s.table s.core c
    refine hcust.congr ?_
    rw [Kernel.held, held_table, hheld', hheld, hc]
    simp only [Loc.held, zero_add]
  | @use pid top p rest htable _ =>
    refine hcust.congr ?_
    rw [Kernel.held, htable, held_table, held_table]
  | @grow pid addr p heap b rest htable halloc hgrow =>
    obtain ⟨quota, -, hreach⟩ := h.heaps (pid, p) (by rw [htable]; exact Multiset.mem_cons_self _ _)
    obtain ⟨hlt, hspans⟩ := grow_spans hgrow
    have hpos := total_pos hreach
    have hgrowth : 0 < p.heap.growth := by
      dsimp only at hpos
      rw [ProcHeap.growth]
      omega
    refine (hcust.take hgrowth halloc).congr ?_
    rw [Kernel.held, htable, held_table, held_table, hspans, ← Multiset.coe_add, add_right_comm,
      Multiset.add_comm _ (_ : Multiset Span)]
    rfl
  | @compact c pid addr p heap live old b rest hc htable _ halloc hcompact =>
    obtain ⟨others, hheld, hheld'⟩ := held_core s.zone rest s.core c
    obtain ⟨hspans, hold⟩ := compact_spans hcompact
    have hpages : 0 < p.heap.targetPages live :=
      Nat.lt_of_lt_of_le (by decide : 0 < 4) (Nat.le_max_left 4 _)
    refine (hcust.take hpages halloc).congr ?_
    rw [Kernel.held, htable, held_table, held_table, hheld', hheld, hc, hspans, hold]
    simp only [Loc.held, Span.at, Multiset.coe_singleton, zero_add, Multiset.singleton_add]
  | @die pid p rest htable =>
    refine hcust.congr ?_
    rw [Kernel.held, htable, held_table, held_table]
  | @reap c pid p rest hc htable _ =>
    obtain ⟨others, hheld, hheld'⟩ := held_core s.zone rest s.core c
    refine hcust.congr ?_
    rw [Kernel.held, hheld', htable, held_table, hheld, hc]
    simp only [Loc.held, zero_add]
  | @unmap c slot spans stack rest hc hzone =>
    obtain ⟨others, hheld, hheld'⟩ := held_core rest s.table s.core c
    rw [hzone, held_zone] at hcust
    refine hcust.split.congr ?_
    rw [Kernel.held, hheld', hheld, hc, ← add_assoc]
    rfl
  | @freeFrame c slot frame frames spans b hc hfree =>
    obtain ⟨rest, hheld, hheld'⟩ := held_core s.zone s.table s.core c
    have hcons : heldBy s.zone s.table s.core = frame ::ₘ (frames + spans + rest) := by
      rw [hheld, hc]
      simp only [Loc.held, ← Multiset.cons_coe, Multiset.cons_add]
    rw [hcons] at hcust
    obtain ⟨b', hb', hgive⟩ := hcust.give
    rw [hb'] at hfree
    cases hfree
    exact hgive.congr (hheld' _)
  | @freeSlot c slot spans hc =>
    exact custody_move hcust (by rw [hc]; exact (Multiset.zero_add _).symm)
  | @freeSpan c sp spans b hc hfree =>
    obtain ⟨rest, hheld, hheld'⟩ := held_core s.zone s.table s.core c
    have hcons : heldBy s.zone s.table s.core = sp ::ₘ (spans + rest) := by
      rw [hheld, hc]
      simp only [Loc.held, ← Multiset.cons_coe, Multiset.cons_add]
    rw [hcons] at hcust
    obtain ⟨b', hb', hgive⟩ := hcust.give
    rw [hb'] at hfree
    cases hfree
    exact hgive.congr (hheld' _)
  | done c hc => exact custody_move hcust (by rw [hc]; rfl)

private theorem heaps_replace {pid : ℕ} {p p' : Proc} {table rest : Multiset (ℕ × Proc)}
    (h : ∀ e ∈ table, HeapOk e.2.heap) (htable : table = (pid, p) ::ₘ rest)
    (hp' : HeapOk p.heap → HeapOk p'.heap) : ∀ e ∈ (pid, p') ::ₘ rest, HeapOk e.2.heap := by
  subst htable
  intro e he
  rcases Multiset.mem_cons.1 he with rfl | he
  · exact hp' (h (pid, p) (Multiset.mem_cons_self _ _))
  · exact h e (Multiset.mem_cons_of_mem he)

private theorem Kernel.Inv.heaps_step (h : s.Inv boot) (hstep : Step boot s s') :
    ∀ e ∈ s'.table, HeapOk e.2.heap := by
  cases hstep with
  | @insert c slot pid heap hc _ =>
    have hloc := h.locs c
    rw [hc] at hloc
    intro e he
    rcases Multiset.mem_cons.1 he with rfl | he
    · exact hloc
    · exact h.heaps e he
  | use htable htop =>
    refine heaps_replace h.heaps htable ?_
    rintro ⟨quota, hquota, hreach⟩
    exact ⟨quota, hquota, hreach.use htop⟩
  | grow htable _ hgrow =>
    refine heaps_replace h.heaps htable ?_
    rintro ⟨quota, hquota, hreach⟩
    exact ⟨quota, hquota, hreach.grow hgrow⟩
  | compact c _ htable _ _ hcompact =>
    refine heaps_replace h.heaps htable ?_
    rintro ⟨quota, hquota, hreach⟩
    exact ⟨quota, hquota, hreach.compact hcompact⟩
  | die htable => exact heaps_replace h.heaps htable id
  | reap c _ htable _ =>
    intro e he
    exact h.heaps e (by rw [htable]; exact Multiset.mem_cons_of_mem he)
  | _ => exact h.heaps

private theorem locs_update {core : Fin n → Loc} {loc : Loc} (h : ∀ c, (core c).Ok)
    (hloc : (core c).Ok → loc.Ok) : ∀ d, (Function.update core c loc d).Ok := by
  intro d
  rcases eq_or_ne d c with rfl | hne
  · rw [Function.update_self]
    exact hloc (h d)
  · rw [Function.update_of_ne hne]
    exact h d

private theorem Kernel.Inv.locs_step (h : s.Inv boot) (hstep : Step boot s s') :
    ∀ c, (s'.core c).Ok := by
  have hlocs := h.locs
  cases hstep with
  | slotFreed c _ hquota _ => exact locs_update hlocs fun _ => hquota
  | slotNew c _ hquota _ _ => exact locs_update hlocs fun _ => hquota
  | stackFrames c hc _ => exact locs_update hlocs fun hold => by rw [hc] at hold; exact hold
  | mapStack c hc => exact locs_update hlocs fun hold => by rw [hc] at hold; exact hold
  | @newHeap c quota slot addr b hc _ =>
    refine locs_update hlocs fun hold => ?_
    rw [hc] at hold
    exact ⟨quota, hold, .new 16 (addr / 8)⟩
  | tableFrame | use | grow | die => exact hlocs
  | _ => exact locs_update hlocs fun _ => trivial

/-! ### Slots -/

/-- The slots that were handed out. -/
private def slotsOf (freed : List ℕ) (zone : Multiset (ℕ × Span)) (core : Fin n → Loc) :
    Multiset ℕ := freed + zone.map Prod.fst + ∑ c, (core c).unmapped

private theorem sum_same {g : Loc → Multiset ℕ} {core : Fin n → Loc} {loc : Loc}
    (hloc : g loc = g (core c)) :
    ∑ d, g (Function.update core c loc d) = ∑ d, g (core d) := by
  obtain ⟨rest, hsum, hsum'⟩ := sum_core g core c
  rw [hsum', hsum, hloc]

private theorem Kernel.Inv.mapped_step (h : s.Inv boot) (hstep : Step boot s s') :
    s'.zone.map Prod.fst = s'.table.map (fun e => e.2.slot) + ∑ c, (s'.core c).mapped := by
  have hmapped := h.mapped
  cases hstep with
  | slotFreed c hc _ _ | slotNew c hc _ _ _ | stackFrames c hc _ | newHeap c hc _
  | freeFrame c hc _ | freeSlot c hc | freeSpan c hc _ | done c hc =>
    dsimp only
    rw [hmapped, sum_same (by rw [hc]; rfl)]
  | tableFrame c hc _ => exact hmapped
  | mapStack c hc =>
    obtain ⟨rest, hsum, hsum'⟩ := sum_core Loc.mapped s.core c
    dsimp only
    rw [hsum', Multiset.map_cons, hmapped, hsum, hc]
    simp only [Loc.mapped, zero_add, Multiset.singleton_add, Multiset.add_cons]
  | insert c hc _ =>
    obtain ⟨rest, hsum, hsum'⟩ := sum_core Loc.mapped s.core c
    dsimp only
    rw [hsum', Multiset.map_cons, hmapped, hsum, hc]
    simp only [Loc.mapped, zero_add, Multiset.singleton_add, Multiset.add_cons, Multiset.cons_add]
  | use htable _ | grow htable _ _ | die htable =>
    dsimp only
    rw [hmapped, htable, Multiset.map_cons, Multiset.map_cons]
  | compact c hc htable _ _ _ =>
    dsimp only
    rw [hmapped, htable, Multiset.map_cons, Multiset.map_cons, sum_same (by rw [hc]; rfl)]
  | reap c hc htable _ =>
    obtain ⟨rest, hsum, hsum'⟩ := sum_core Loc.mapped s.core c
    dsimp only
    rw [hsum', hmapped, hsum, hc, htable, Multiset.map_cons]
    simp only [Loc.mapped, zero_add, Multiset.singleton_add, Multiset.add_cons, Multiset.cons_add]
  | unmap c hc hzone =>
    obtain ⟨rest, hsum, hsum'⟩ := sum_core Loc.mapped s.core c
    dsimp only
    rw [hzone, Multiset.map_cons, hsum, hc] at hmapped
    rw [hsum']
    simp only [Loc.mapped, zero_add, Multiset.singleton_add, Multiset.add_cons] at hmapped ⊢
    exact (Multiset.cons_inj_right _).1 hmapped

/-- The slots handed out stay the same, but for a new one. -/
private theorem slots_step (hstep : Step boot s s') :
    (s'.next = s.next ∧ slotsOf s'.freed s'.zone s'.core = slotsOf s.freed s.zone s.core) ∨
      (s'.next = s.next + 1 ∧
        slotsOf s'.freed s'.zone s'.core = s.next ::ₘ slotsOf s.freed s.zone s.core) := by
  cases hstep with
  | slotFreed c hc _ hfreed =>
    obtain ⟨rest, hsum, hsum'⟩ := sum_core Loc.unmapped s.core c
    refine .inl ⟨rfl, ?_⟩
    rw [slotsOf, slotsOf, hsum', hsum, hc, hfreed]
    simp only [Loc.unmapped, zero_add, Multiset.singleton_add, Multiset.add_cons,
      ← Multiset.cons_coe, Multiset.cons_add]
  | slotNew c hc _ _ _ =>
    obtain ⟨rest, hsum, hsum'⟩ := sum_core Loc.unmapped s.core c
    refine .inr ⟨rfl, ?_⟩
    rw [slotsOf, slotsOf, hsum', hsum, hc]
    simp only [Loc.unmapped, zero_add, Multiset.singleton_add, Multiset.add_cons]
  | stackFrames c hc _ | newHeap c hc _ | insert c hc _ | compact c hc _ _ _ _ | reap c hc _ _
  | freeFrame c hc _ | freeSpan c hc _ | done c hc =>
    refine .inl ⟨rfl, ?_⟩
    rw [slotsOf, slotsOf, sum_same (by rw [hc]; rfl)]
  | tableFrame | use | grow | die => exact .inl ⟨rfl, rfl⟩
  | mapStack c hc =>
    obtain ⟨rest, hsum, hsum'⟩ := sum_core Loc.unmapped s.core c
    refine .inl ⟨rfl, ?_⟩
    rw [slotsOf, slotsOf, hsum', hsum, hc, Multiset.map_cons]
    simp only [Loc.unmapped, zero_add, Multiset.singleton_add, Multiset.add_cons,
      Multiset.cons_add]
  | unmap c hc hzone =>
    obtain ⟨rest, hsum, hsum'⟩ := sum_core Loc.unmapped s.core c
    refine .inl ⟨rfl, ?_⟩
    rw [slotsOf, slotsOf, hsum', hsum, hc, hzone, Multiset.map_cons]
    simp only [Loc.unmapped, zero_add, Multiset.singleton_add, Multiset.add_cons,
      Multiset.cons_add]
  | freeSlot c hc =>
    obtain ⟨rest, hsum, hsum'⟩ := sum_core Loc.unmapped s.core c
    refine .inl ⟨rfl, ?_⟩
    rw [slotsOf, slotsOf, hsum', hsum, hc]
    simp only [Loc.unmapped, zero_add, Multiset.singleton_add, Multiset.add_cons,
      ← Multiset.cons_coe, Multiset.cons_add]

private theorem Kernel.Inv.step (h : s.Inv boot) (hstep : Step boot s s') : s'.Inv boot := by
  have hnodup : (slotsOf s.freed s.zone s.core).Nodup := h.nodup
  have hbound : ∀ slot ∈ slotsOf s.freed s.zone s.core, slot < s.next := h.bound
  have hslots : (slotsOf s'.freed s'.zone s'.core).Nodup ∧
      ∀ slot ∈ slotsOf s'.freed s'.zone s'.core, slot < s'.next := by
    rcases slots_step hstep with ⟨hnext, heq⟩ | ⟨hnext, heq⟩
    · rw [heq, hnext]
      exact ⟨hnodup, hbound⟩
    · rw [heq, hnext, Multiset.nodup_cons]
      refine ⟨⟨fun hmem => absurd (hbound _ hmem) (Nat.lt_irrefl _), hnodup⟩, fun slot hslot => ?_⟩
      rcases Multiset.mem_cons.1 hslot with rfl | hslot
      · exact Nat.lt_succ_self _
      · exact (hbound slot hslot).trans (Nat.lt_succ_self _)
  exact ⟨h.custody_step hstep, h.heaps_step hstep, h.locs_step hstep, h.mapped_step hstep,
    hslots.1, hslots.2⟩

private theorem Init.inv (hok : boot.Ok) (h : Init boot s) : s.Inv boot := by
  have hidle : ∀ {M : Type} [AddCommMonoid M] (g : Loc → M), g .idle = 0 →
      ∑ c, g (s.core c) = 0 := fun g hg =>
    Finset.sum_eq_zero fun c _ => by rw [h.core c, hg]
  have hheld : s.held = 0 := by
    rw [Kernel.held, heldBy, h.table, h.zone, hidle _ rfl]
    rfl
  refine ⟨?_, ?_, fun c => ?_, ?_, ?_, ?_⟩
  · rw [hheld, h.bitmap, h.aside, h.uses]
    exact ⟨hok, rfl, rfl, fun sp hsp => absurd hsp (Multiset.notMem_zero sp), fun f => rfl,
      fun f => rfl, rfl⟩
  · rw [h.table]
    intro e he
    exact absurd he (Multiset.notMem_zero e)
  · rw [h.core c]
    trivial
  · rw [h.zone, h.table, hidle _ rfl]
    rfl
  · rw [h.freed, h.zone, hidle _ rfl]
    exact Multiset.nodup_zero
  · rw [h.freed, h.zone, hidle _ rfl]
    intro slot hslot
    exact absurd hslot (Multiset.notMem_zero slot)

/-! ### Retried allocations -/

/-- `alloc_retry` ends after at most one round for every page left, and gives up only at the
quota or when the frame allocator refuses. -/
private theorem allocRetry_ends {α : Type} (f : HeapM α) (answers : ℕ → ℕ → Option ℕ) {k : ℕ}
    {heap : ProcHeap} (hpos : 0 < heap.totalPages) (hle : heap.totalPages ≤ heap.maxPages)
    (hk : heap.maxPages - heap.totalPages < k) (mem : Mem) :
    ∃ r heap' mem', allocRetry f answers k heap mem = some (r, heap', mem') ∧
      (r = .exits →
        heap'.totalPages = heap'.maxPages ∨ ∃ i, answers i heap'.growth = none) := by
  induction k generalizing heap mem with
  | zero => omega
  | succ k ih =>
    rw [allocRetry]
    cases f ⟨mem, heap.cur⟩ with
    | ok a st => exact ⟨_, _, _, rfl, fun hr => by cases hr⟩
    | error e st =>
      by_cases hcap : heap.totalPages ≥ heap.maxPages
      · simp only [ProcHeap.grow, if_pos hcap]
        exact ⟨_, _, _, rfl, fun _ => .inl (Nat.le_antisymm hle hcap)⟩
      cases hanswer : answers k (min heap.totalPages (heap.maxPages - heap.totalPages)) with
      | none =>
        simp only [ProcHeap.grow, if_neg hcap, hanswer]
        exact ⟨_, _, _, rfl, fun _ => .inr ⟨k, hanswer⟩⟩
      | some base =>
        simp only [ProcHeap.grow, if_neg hcap, hanswer]
        refine ih ?_ ?_ ?_ st.mem
        · exact Nat.add_pos_left hpos _
        · dsimp only
          omega
        · dsimp only
          omega

/-! ### Conservation -/

/-- What holds of the frames of processes at any time. -/
structure Kernel.Conserved (boot : FrameBitmap) (s : Kernel n) : Prop where
  /-- The page count of a process is that of its spans. -/
  total_eq : ∀ e ∈ s.table, e.2.heap.totalPages = (e.2.heap.spans.map Span.pages).sum
  /-- It keeps to the quota. -/
  quota : ∀ e ∈ s.table, e.2.heap.totalPages ≤ e.2.heap.maxPages
  /-- The spans of a process are disjoint. -/
  spans : ∀ e ∈ s.table, e.2.heap.spans.Pairwise Span.Disjoint
  /-- They are disjoint from those of the others. -/
  others : ∀ e e' rest, s.table = e ::ₘ e' ::ₘ rest →
    ∀ sp ∈ e.2.heap.spans, ∀ sp' ∈ e'.2.heap.spans, sp.Disjoint sp'
  /-- They are disjoint from all stacks. -/
  apart : ∀ e ∈ s.table, ∀ sp ∈ e.2.heap.spans, ∀ x ∈ s.zone, sp.Disjoint x.2
  /-- Every process has one stack, and so has every slot to be unmapped: `unmap` succeeds. -/
  stack : ∀ slot, ((∃ e ∈ s.table, e.2.slot = slot) ∨ ∃ c spans, s.core c = .unmap slot spans) →
    ∃! stack, (slot, stack) ∈ s.zone
  /-- Stacks of different slots are disjoint. -/
  stacksApart : ∀ x ∈ s.zone, ∀ y ∈ s.zone, x ≠ y → x.1 ≠ y.1 ∧ x.2.Disjoint y.2
  /-- Giving back a frame of a stack succeeds. -/
  freeFrame : ∀ c slot frame frames spans, s.core c = .freeStack slot (frame :: frames) spans →
    ∃ b, s.bitmap.freeFrames (8 * frame.base) frame.pages = .ok b
  /-- Giving back a span succeeds. -/
  freeSpan : ∀ c sp spans, s.core c = .freeSpans (sp :: spans) →
    ∃ b, s.bitmap.freeFrames (8 * sp.base) sp.pages = .ok b
  /-- A frame was taken as often as it was given back, and once more while it is held. -/
  once : ∀ f, s.uses.taken f = s.uses.freed f + cover boot.base s.held f ∧
    cover boot.base s.held f ≤ 1
  /-- The number of frames is constant. -/
  count : s.bitmap.free + s.aside.card + (s.held.map Span.pages).sum = boot.free
  /-- `alloc_retry` ends, and gives up only at the quota or when frames are refused. -/
  retry : ∀ e ∈ s.table, ∀ (α : Type) (f : HeapM α) (answers : ℕ → ℕ → Option ℕ) (mem : Mem),
    ∃ r heap mem', allocRetry f answers (e.2.heap.maxPages + 1) e.2.heap mem =
        some (r, heap, mem') ∧
      (r = .exits → heap.totalPages = heap.maxPages ∨ ∃ i, answers i heap.growth = none)

/-- Spans that are held together are disjoint. -/
private theorem pairwise_of_custody {b : FrameBitmap} {aside : Multiset ℕ} {uses : Uses}
    {spans : List Span} {rest : Multiset Span}
    (h : Custody boot b aside (spans + rest) uses) : spans.Pairwise Span.Disjoint := by
  induction spans generalizing rest with
  | nil => exact .nil
  | cons sp spans ih =>
    rw [← Multiset.cons_coe, Multiset.cons_add] at h
    have hrest : Custody boot b aside (spans + sp ::ₘ rest) uses := by
      rw [Multiset.add_cons]
      exact h
    refine List.pairwise_cons.2 ⟨fun sp' hsp' => ?_, ih hrest⟩
    obtain ⟨more, hmore⟩ := Multiset.exists_cons_of_mem (Multiset.mem_coe.2 hsp')
    rw [hmore, Multiset.cons_add] at h
    exact h.disjoint

/-- Spans held at different places are disjoint. -/
private theorem disjoint_of_custody {b : FrameBitmap} {aside : Multiset ℕ} {uses : Uses}
    {A B rest : Multiset Span} (h : Custody boot b aside (A + B + rest) uses) {sp sp' : Span}
    (hsp : sp ∈ A) (hsp' : sp' ∈ B) : sp.Disjoint sp' := by
  obtain ⟨A', rfl⟩ := Multiset.exists_cons_of_mem hsp
  obtain ⟨B', rfl⟩ := Multiset.exists_cons_of_mem hsp'
  rw [Multiset.add_cons, Multiset.cons_add, Multiset.cons_add, Multiset.cons_add,
    Multiset.cons_swap] at h
  exact h.disjoint

private theorem Kernel.Inv.zone_nodup (h : s.Inv boot) : (s.zone.map Prod.fst).Nodup :=
  Multiset.nodup_of_le ((Multiset.le_add_left _ _).trans (Multiset.le_add_right _ _)) h.nodup

/-- A slot in the stack zone has one stack. -/
private theorem Kernel.Inv.zone_inj (h : s.Inv boot) {x y : ℕ × Span} (hx : x ∈ s.zone)
    (hy : y ∈ s.zone) (hslot : x.1 = y.1) : x = y :=
  Multiset.inj_on_of_nodup_map h.zone_nodup x hx y hy hslot

private theorem Kernel.Inv.mem_zone (h : s.Inv boot) {slot : ℕ}
    (hslot : (∃ e ∈ s.table, e.2.slot = slot) ∨ ∃ c spans, s.core c = .unmap slot spans) :
    ∃! stack, (slot, stack) ∈ s.zone := by
  have hmem : slot ∈ s.zone.map Prod.fst := by
    rw [h.mapped, Multiset.mem_add]
    rcases hslot with ⟨e, he, rfl⟩ | ⟨c, spans, hc⟩
    · exact .inl (Multiset.mem_map_of_mem (fun e : ℕ × Proc => e.2.slot) he)
    · refine .inr (Multiset.mem_sum.2 ⟨c, Finset.mem_univ c, ?_⟩)
      rw [hc]
      exact Multiset.mem_singleton_self slot
  obtain ⟨⟨slot', stack⟩, hstack, rfl⟩ := Multiset.mem_map.1 hmem
  exact ⟨stack, hstack, fun stack' hstack' =>
    congrArg Prod.snd (h.zone_inj hstack' hstack rfl)⟩

/-- What a core has in hand can be given back. -/
private theorem Kernel.Inv.gives (h : s.Inv boot) (c : Fin n) {sp : Span} (spans : Multiset Span)
    (hc : (s.core c).held = sp ::ₘ spans) :
    ∃ b, s.bitmap.freeFrames (8 * sp.base) sp.pages = .ok b := by
  obtain ⟨rest, hheld, -⟩ := held_core s.zone s.table s.core c
  have hcons : s.held = sp ::ₘ (spans + rest) := by
    rw [Kernel.held, hheld, hc, Multiset.cons_add]
  have hcust := h.custody
  rw [hcons] at hcust
  obtain ⟨b, hfree, -⟩ := hcust.give
  exact ⟨b, hfree⟩

private theorem Kernel.Inv.conserved (h : s.Inv boot) : s.Conserved boot := by
  have hcust : Custody boot s.bitmap s.aside (heldBy s.zone s.table s.core) s.uses := h.custody
  have hheap : ∀ e ∈ s.table, ∃ quota, ProcHeap.Reachable quota e.2.heap ∧
      e.2.heap.Ok quota := by
    intro e he
    obtain ⟨quota, hquota, hreach⟩ := h.heaps e he
    exact ⟨quota, hreach, hreach.ok (by omega)⟩
  refine ⟨fun e he => ?_, fun e he => ?_, fun e he => ?_, fun e e' rest htable => ?_,
    fun e he sp hsp x hx => ?_, fun slot hslot => h.mem_zone hslot, fun x hx y hy hne => ?_,
    fun c slot frame frames spans hc => ?_, fun c sp spans hc => ?_,
    fun f => ⟨hcust.history f, hcust.cover_le_one f⟩, hcust.count,
    fun e he α f answers mem => ?_⟩
  · obtain ⟨quota, -, hok⟩ := hheap e he
    exact hok.total_eq
  · obtain ⟨quota, -, hok⟩ := hheap e he
    exact hok.total_le.trans_eq hok.max_eq.symm
  · obtain ⟨rest, htable⟩ := Multiset.exists_cons_of_mem he
    rw [htable, held_table] at hcust
    exact pairwise_of_custody hcust
  · intro sp hsp sp' hsp'
    rw [htable, held_table, held_table, ← add_assoc] at hcust
    exact disjoint_of_custody hcust (Multiset.mem_coe.2 hsp) (Multiset.mem_coe.2 hsp')
  · obtain ⟨rest, htable⟩ := Multiset.exists_cons_of_mem he
    obtain ⟨zone, hzone⟩ := Multiset.exists_cons_of_mem hx
    obtain ⟨spans, hspans⟩ := Multiset.exists_cons_of_mem (Multiset.mem_coe.2 hsp)
    rw [htable, hzone, held_table, held_zone, Multiset.add_cons, hspans, Multiset.cons_add] at hcust
    exact hcust.disjoint.symm
  · refine ⟨fun hslot => hne (h.zone_inj hx hy hslot), ?_⟩
    obtain ⟨zone, hzone⟩ := Multiset.exists_cons_of_mem hx
    rw [hzone] at hy
    obtain ⟨rest, hrest⟩ :=
      Multiset.exists_cons_of_mem ((Multiset.mem_cons.1 hy).resolve_left hne.symm)
    rw [hzone, hrest, held_zone, held_zone] at hcust
    exact hcust.disjoint
  · refine h.gives c (frames + spans) ?_
    rw [hc]
    simp only [Loc.held, ← Multiset.cons_coe, Multiset.cons_add]
  · refine h.gives c spans ?_
    rw [hc]
    simp only [Loc.held, ← Multiset.cons_coe]
  · obtain ⟨quota, hreach, hok⟩ := hheap e he
    have hpos := total_pos hreach
    have hle := hok.total_le.trans_eq hok.max_eq.symm
    exact allocRetry_ends f answers hpos hle (by omega) mem

/-- In every state that the processes reach from a booted frame allocator, the frames are
conserved. -/
theorem frames_conserved (hok : boot.Ok) (h : Transition.Reaches (Init boot) (Step boot) s) :
    s.Conserved boot := by
  refine Kernel.Inv.conserved (Transition.Reaches.invariant (P := Kernel.Inv boot) ?_ ?_ h)
  · intro s hs
    exact hs.inv hok
  · intro s s' hs hstep
    exact hs.step hstep

/-- An allocator with 128 free frames. -/
def smallBoot : FrameBitmap where
  base := 0
  nframes := 128
  bits := [0, 0]
  free := 128
  cursor := 0

private theorem smallBoot_ok : smallBoot.Ok where
  storage := by decide
  aligned := rfl
  free_eq := by decide +kernel
  cursor_lt _ := by decide
  padding i hlo hhi := absurd hlo (Nat.not_le.2 hhi)

/-- One core, before the first process. -/
def smallKernel : Kernel 1 := ⟨smallBoot, 0, 0, [], 0, 0, fun _ => .idle, .none⟩

/-- That allocator after it gave out the first frames. -/
def smallTaken (bits : List ℕ) (free : ℕ) : FrameBitmap := { smallBoot with bits, free }

private theorem small_stack :
    smallBoot.allocContig 56 1 = .ok (some 0, smallTaken [2 ^ 56 - 1, 0] 72) := by
  decide +kernel

private theorem small_heap :
    (smallTaken [2 ^ 56 - 1, 0] 72).allocContig (max (min 16 64) 1) 1 =
      .ok (some (56 * 4096), smallTaken [2 ^ 64 - 1, 2 ^ 8 - 1] 56) := by
  decide +kernel

private theorem small_growth : (smallTaken [2 ^ 64 - 1, 2 ^ 8 - 1] 56).allocContig
    (ProcHeap.new 16 64 (56 * 4096 / 8)).growth 1 =
      .ok (some (72 * 4096), smallTaken [2 ^ 64 - 1, 2 ^ 24 - 1] 40) := by
  decide +kernel

/-- A process is spawned with a stack and a heap, grows, exits and is reaped. The core that
finalizes it has both spans of the heap, the stack is still mapped, and 40 of the 128 frames
are free. -/
theorem reaped_process_conserved : ∃ (s : Kernel 1) (spans : List Span),
    Transition.Reaches (Init smallBoot) (Step smallBoot) s ∧ s.core 0 = .unmap 0 spans ∧
    spans.length = 2 ∧ (∃! stack, (0, stack) ∈ s.zone) ∧ s.bitmap.free = 40 ∧
    (s.held.map Span.pages).sum = 88 := by
  have hstart : Transition.Reaches (Init smallBoot) (Step smallBoot) smallKernel :=
    .init ⟨rfl, rfl, rfl, rfl, rfl, fun _ => rfl, rfl⟩
  have hmapped := hstart.step (.slotNew 0 rfl (Nat.le_refl 64) rfl (by decide))
    |>.step (.stackFrames 0 rfl small_stack) |>.step (.mapStack 0 rfl)
  have hinserted := hmapped.step (.newHeap 0 rfl small_heap)
    |>.step (@Step.insert 1 smallBoot _ 0 0 1 _ rfl nofun)
  have hgrown := hinserted.step (@Step.grow 1 smallBoot _ 1 _
    ⟨0, ProcHeap.new 16 64 (56 * 4096 / 8), false⟩ _ _ 0 rfl small_growth rfl)
  have hreaped := hgrown.step (@Step.die 1 smallBoot _ 1 _ 0 rfl)
    |>.step (@Step.reap 1 smallBoot _ 0 1 _ 0 rfl rfl rfl)
  have hkept := frames_conserved smallBoot_ok hreaped
  exact ⟨_, _, hreaped, rfl, rfl, hkept.stack 0 (.inr ⟨0, _, rfl⟩), rfl,
    Nat.add_left_cancel (hkept.count.trans (rfl : 128 = 40 + 0 + 88))⟩

end Frames

end Yggdrasil
