import Yggdrasil.Lib.Transition
import Mathlib.Data.Fintype.Card
import Mathlib.Data.Set.Basic

/-!
# Stacks, slots and the TLB shootdown

The cores map and unmap process stacks in one shared page table. A core may cache an entry
of that table at any time while it is there. `unmap_stack` holds the `MAPPER` lock, clears
the entries of a slot, and asks every other core to reload CR3 before it gives the frames
and the slot back. Every lock, every page, every message and every acknowledgement is a
step of its own.
-/

namespace Yggdrasil

namespace Shootdown

/-- Pages of a stack, `STACK_PAGES`. -/
def stackPages : ℕ := 56

/-- Slots of the stack zone, `MAX_SLOTS`. -/
def maxSlots : ℕ := 65536

/-- What the frame allocator's owner uses a frame for. -/
inductive Use where
  /-- It is free. -/
  | free
  /-- It was taken for something else than a stack. -/
  | other
  /-- It was taken for one page of the stack in a slot. -/
  | stack (slot page : ℕ)

/-- A translation of one page of a slot. -/
structure Entry where
  /-- The slot. -/
  slot : ℕ
  /-- The page in the slot. -/
  page : ℕ
  /-- The frame. -/
  frame : ℕ

/-- Where a core is in `map_stack` or `unmap_stack`. -/
inductive Loc where
  /-- In neither. -/
  | idle
  /-- `map_stack` has a slot. -/
  | mapSlot (slot : ℕ)
  /-- It has the frames from `span` on. -/
  | mapFrames (slot span : ℕ)
  /-- It holds `MAPPER`, and the first `i` pages are mapped. -/
  | mapping (slot span i : ℕ)
  /-- `unmap_stack` waits for `MAPPER`. -/
  | unmapWait (slot : ℕ)
  /-- It has removed the pages of these frames. -/
  | unmapping (slot : ℕ) (frames : List ℕ)
  /-- It has removed the last of these, and must still invalidate its own copy. -/
  | unflushed (slot : ℕ) (frames : List ℕ)
  /-- `flush_broadcast` waits for `SHOOTDOWN`. -/
  | flushWait (slot : ℕ) (frames : List ℕ)
  /-- It holds `SHOOTDOWN`. -/
  | flushLocked (slot : ℕ) (frames : List ℕ)
  /-- It has set the count of acknowledgements to zero. -/
  | flushReset (slot : ℕ) (frames : List ℕ)
  /-- It has sent the messages and waits. -/
  | flushSent (slot : ℕ) (frames : List ℕ)
  /-- It has returned, and the first `k` frames are given back. -/
  | freeing (slot k : ℕ) (frames : List ℕ)
  /-- The slot is given back, `MAPPER` is still held. -/
  | releasing

/-- The cores and what they share. -/
structure Machine (n : ℕ) where
  /-- The page table's stack zone: slot and page to frame. -/
  pages : ℕ → ℕ → Option ℕ
  /-- The stack-zone translations each core has cached. -/
  tlb : Fin n → Set Entry
  /-- The frame allocator. -/
  use : ℕ → Use
  /-- The slot allocator's first slot never used. -/
  next : ℕ
  /-- The slot allocator's returned slots, the last one first. -/
  freed : List ℕ
  /-- The slots of the processes, one for each process. -/
  owned : List ℕ
  /-- The holder of `MAPPER`. -/
  mapper : Option (Fin n)
  /-- The holder of `SHOOTDOWN`. -/
  shootdown : Option (Fin n)
  /-- `TLB_ACKS`. -/
  acks : ℕ
  /-- The flush messages a core has not taken yet. -/
  pending : Fin n → ℕ
  /-- Whether a core is between the CR3 reload and the acknowledgement. -/
  handling : Fin n → Bool
  /-- Where the cores are. -/
  core : Fin n → Loc
  /-- History: whether a core has reloaded CR3 since an entry was last removed. -/
  flushed : Fin n → Bool

/-- The page table with another entry for one page. -/
def setPage (pages : ℕ → ℕ → Option ℕ) (slot page : ℕ) (entry : Option ℕ) : ℕ → ℕ → Option ℕ :=
  fun t p => if t = slot ∧ p = page then entry else pages t p

/-- Any number of stacks are mapped, no core is in a call, no message is under way, and the
caches hold nothing that the page table does not. -/
structure Init {n : ℕ} (s : Machine n) : Prop where
  /-- No core is in a call. -/
  core : ∀ c, s.core c = .idle
  /-- No message is under way. -/
  pending : ∀ c, s.pending c = 0
  /-- No handler runs. -/
  handling : ∀ c, s.handling c = false
  /-- The slots in use and the returned ones are different slots handed out before. -/
  slots : (s.owned ++ s.freed).Nodup ∧ ∀ slot ∈ s.owned ++ s.freed, slot < s.next
  /-- Only slots in use are mapped, in their pages. -/
  mapped : ∀ slot page f, s.pages slot page = some f → slot ∈ s.owned ∧ page < stackPages
  /-- A mapped frame was taken for its page. -/
  used : ∀ slot page f, s.pages slot page = some f → s.use f = .stack slot page
  /-- Cached translations are mapped. -/
  tlb : ∀ c, ∀ e ∈ s.tlb c, s.pages e.slot e.page = some e.frame

variable {n : ℕ}

/-- The steps of the cores, of the flush handler, of the caches, and of the other users of
the frame allocator. A step whose assertion fails stops the kernel and is left out. -/
inductive Step : Machine n → Machine n → Prop
  /-- `map_stack` takes the slot that was returned last. -/
  | slotFreed {s : Machine n} (c : Fin n) {slot : ℕ} {freed : List ℕ} :
    s.core c = .idle → s.freed = slot :: freed →
    Step s { s with freed := freed, core := Function.update s.core c (.mapSlot slot) }
  /-- `map_stack` takes a new slot. -/
  | slotNew {s : Machine n} (c : Fin n) :
    s.core c = .idle → s.freed = [] → s.next < maxSlots →
    Step s { s with next := s.next + 1, core := Function.update s.core c (.mapSlot s.next) }
  /-- `map_stack` takes the frames. -/
  | mapFrames {s : Machine n} (c : Fin n) {slot : ℕ} (span : ℕ) :
    s.core c = .mapSlot slot → (∀ i < stackPages, s.use (span + i) = .free) →
    Step s { s with
      use := fun f => if span ≤ f ∧ f < span + stackPages then .stack slot (f - span) else s.use f
      core := Function.update s.core c (.mapFrames slot span) }
  /-- `map_stack` takes `MAPPER`. -/
  | mapLock {s : Machine n} (c : Fin n) {slot span : ℕ} :
    s.core c = .mapFrames slot span → s.mapper = none →
    Step s { s with
      mapper := some c, core := Function.update s.core c (.mapping slot span 0) }
  /-- `map_stack` maps a page, and invalidates its own copy. -/
  | mapPage {s : Machine n} (c : Fin n) {slot span i : ℕ} :
    s.core c = .mapping slot span i → i < stackPages → s.pages slot i = none →
    Step s { s with
      pages := setPage s.pages slot i (some (span + i))
      tlb := Function.update s.tlb c { e ∈ s.tlb c | ¬ (e.slot = slot ∧ e.page = i) }
      core := Function.update s.core c (.mapping slot span (i + 1)) }
  /-- `map_stack` returns the slot to the process it is for. -/
  | mapDone {s : Machine n} (c : Fin n) {slot span : ℕ} :
    s.core c = .mapping slot span stackPages →
    Step s { s with
      mapper := none, owned := slot :: s.owned, core := Function.update s.core c .idle }
  /-- `unmap_stack` is called with the slot of a process that is over. -/
  | unmapCall {s : Machine n} (c : Fin n) {slot : ℕ} :
    s.core c = .idle → slot ∈ s.owned →
    Step s { s with
      owned := s.owned.erase slot, core := Function.update s.core c (.unmapWait slot) }
  /-- `unmap_stack` takes `MAPPER`. -/
  | unmapLock {s : Machine n} (c : Fin n) {slot : ℕ} :
    s.core c = .unmapWait slot → s.mapper = none →
    Step s { s with
      mapper := some c, core := Function.update s.core c (.unmapping slot []) }
  /-- `unmap_stack` removes the entry of the next page. -/
  | unmapPage {s : Machine n} (c : Fin n) {slot f : ℕ} {frames : List ℕ} :
    s.core c = .unmapping slot frames → frames.length < stackPages →
    s.pages slot frames.length = some f →
    Step s { s with
      pages := setPage s.pages slot frames.length none
      flushed := fun _ => false
      core := Function.update s.core c (.unflushed slot (frames ++ [f])) }
  /-- `unmap_stack` invalidates its own copy of that page. -/
  | flushOwn {s : Machine n} (c : Fin n) {slot : ℕ} {frames : List ℕ} :
    s.core c = .unflushed slot frames →
    Step s { s with
      tlb := Function.update s.tlb c
        { e ∈ s.tlb c | ¬ (e.slot = slot ∧ e.page + 1 = frames.length) }
      core := Function.update s.core c (.unmapping slot frames) }
  /-- `flush_broadcast` returns at once when there is no other core. -/
  | flushNone {s : Machine n} (c : Fin n) {slot : ℕ} {frames : List ℕ} :
    s.core c = .unmapping slot frames → frames.length = stackPages → n - 1 = 0 →
    Step s { s with core := Function.update s.core c (.freeing slot 0 frames) }
  /-- `flush_broadcast` goes on when there are others. -/
  | flushCall {s : Machine n} (c : Fin n) {slot : ℕ} {frames : List ℕ} :
    s.core c = .unmapping slot frames → frames.length = stackPages → n - 1 ≠ 0 →
    Step s { s with core := Function.update s.core c (.flushWait slot frames) }
  /-- It takes `SHOOTDOWN`. -/
  | flushLock {s : Machine n} (c : Fin n) {slot : ℕ} {frames : List ℕ} :
    s.core c = .flushWait slot frames → s.shootdown = none →
    Step s { s with
      shootdown := some c, core := Function.update s.core c (.flushLocked slot frames) }
  /-- It resets the count. -/
  | flushReset {s : Machine n} (c : Fin n) {slot : ℕ} {frames : List ℕ} :
    s.core c = .flushLocked slot frames →
    Step s { s with acks := 0, core := Function.update s.core c (.flushReset slot frames) }
  /-- It sends a message to every other core. -/
  | flushSend {s : Machine n} (c : Fin n) {slot : ℕ} {frames : List ℕ} :
    s.core c = .flushReset slot frames →
    Step s { s with
      pending := fun d => if d = c then s.pending d else s.pending d + 1
      core := Function.update s.core c (.flushSent slot frames) }
  /-- It has counted enough acknowledgements and returns. -/
  | flushReturn {s : Machine n} (c : Fin n) {slot : ℕ} {frames : List ℕ} :
    s.core c = .flushSent slot frames → n - 1 ≤ s.acks →
    Step s { s with
      shootdown := none, core := Function.update s.core c (.freeing slot 0 frames) }
  /-- `unmap_stack` gives the next frame back. -/
  | freeFrame {s : Machine n} (c : Fin n) {slot k f : ℕ} {frames : List ℕ} :
    s.core c = .freeing slot k frames → frames[k]? = some f →
    Step s { s with
      use := Function.update s.use f .free
      core := Function.update s.core c (.freeing slot (k + 1) frames) }
  /-- `unmap_stack` gives the slot back. -/
  | freeSlot {s : Machine n} (c : Fin n) {slot : ℕ} {frames : List ℕ} :
    s.core c = .freeing slot frames.length frames →
    Step s { s with
      freed := slot :: s.freed, core := Function.update s.core c .releasing }
  /-- `unmap_stack` returns and drops `MAPPER`. -/
  | unmapDone {s : Machine n} (c : Fin n) :
    s.core c = .releasing →
    Step s { s with mapper := none, core := Function.update s.core c .idle }
  /-- The flush handler takes a message and reloads CR3. -/
  | reload {s : Machine n} (c : Fin n) :
    s.pending c ≠ 0 → s.handling c = false →
    Step s { s with
      pending := Function.update s.pending c (s.pending c - 1)
      handling := Function.update s.handling c true
      tlb := Function.update s.tlb c ∅
      flushed := Function.update s.flushed c true }
  /-- The flush handler acknowledges. -/
  | ack {s : Machine n} (c : Fin n) :
    s.handling c = true →
    Step s { s with acks := s.acks + 1, handling := Function.update s.handling c false }
  /-- A core caches a translation that is mapped. -/
  | cache {s : Machine n} (c : Fin n) (e : Entry) :
    s.pages e.slot e.page = some e.frame →
    Step s { s with tlb := Function.update s.tlb c (insert e (s.tlb c)) }
  /-- A core drops a cached translation. -/
  | evict {s : Machine n} (c : Fin n) (e : Entry) :
    Step s { s with tlb := Function.update s.tlb c (s.tlb c \ {e}) }
  /-- Another user of the allocator takes a frame. -/
  | otherTake {s : Machine n} (f : ℕ) :
    s.use f = .free → Step s { s with use := Function.update s.use f .other }
  /-- Another user gives its frame back. -/
  | otherGive {s : Machine n} (f : ℕ) :
    s.use f = .other → Step s { s with use := Function.update s.use f .free }

/-- The slot of the call a core is in. -/
def Loc.slot : Loc → Option ℕ
  | .idle | .releasing => none
  | .mapSlot slot | .mapFrames slot _ | .mapping slot _ _ | .unmapWait slot
  | .unmapping slot _ | .unflushed slot _ | .flushWait slot _ | .flushLocked slot _
  | .flushReset slot _ | .flushSent slot _ | .freeing slot _ _ => some slot

/-- Whether the core holds `MAPPER`. -/
def Loc.Locked : Loc → Prop
  | .idle | .mapSlot _ | .mapFrames _ _ | .unmapWait _ => False
  | .mapping _ _ _ | .unmapping _ _ | .unflushed _ _ | .flushWait _ _ | .flushLocked _ _
  | .flushReset _ _ | .flushSent _ _ | .freeing _ _ _ | .releasing => True

/-- Whether a page of the slot is unmapped for certain. -/
def Loc.Cleared (page : ℕ) : Loc → Prop
  | .idle | .releasing | .unmapWait _ => False
  | .mapping _ _ i => i ≤ page
  | .unmapping _ frames | .unflushed _ frames => page < frames.length
  | .mapSlot _ | .mapFrames _ _ | .flushWait _ _ | .flushLocked _ _ | .flushReset _ _
  | .flushSent _ _ | .freeing _ _ _ => True

/-- Whether the core has a frame for a page in hand, outside the page table. -/
def Loc.Holds (page f : ℕ) : Loc → Prop
  | .idle | .releasing | .mapSlot _ | .unmapWait _ => False
  | .mapFrames _ span => page < stackPages ∧ f = span + page
  | .mapping _ span i => i ≤ page ∧ page < stackPages ∧ f = span + page
  | .unmapping _ frames | .unflushed _ frames | .flushWait _ frames | .flushLocked _ frames
  | .flushReset _ frames | .flushSent _ frames => frames[page]? = some f
  | .freeing _ k frames => k ≤ page ∧ frames[page]? = some f

/-- Whether a removed translation of a page may still be cached, on this core if `own`. -/
def Loc.Stale (own : Prop) (page : ℕ) : Loc → Prop
  | .unmapping _ _ | .flushWait _ _ | .flushLocked _ _ | .flushReset _ _ | .flushSent _ _ => ¬ own
  | .unflushed _ frames => own → page + 1 = frames.length
  | .idle | .releasing | .mapSlot _ | .mapFrames _ _ | .mapping _ _ _ | .unmapWait _
  | .freeing _ _ _ => False

/-- Whether the core has just reset the count. -/
def Loc.Reset : Loc → Prop
  | .flushReset _ _ => True
  | _ => False

/-- Whether the core waits for acknowledgements. -/
def Loc.Waits : Loc → Prop
  | .flushSent _ _ => True
  | _ => False

/-- Whether the core is past its call of `flush_broadcast`. -/
def Loc.Returned : Loc → Prop
  | .freeing _ _ _ => True
  | _ => False

/-- Whether the core maps the slot, for a process to come. -/
def Loc.Maps (slot : ℕ) : Loc → Prop
  | .mapSlot t | .mapFrames t _ | .mapping t _ _ => t = slot
  | _ => False

/-- No slot is in two places. -/
structure Slots (next : ℕ) (freed owned : List ℕ) (slot : Fin n → Option ℕ) : Prop where
  /-- No slot has two processes. -/
  owned_nodup : owned.Nodup
  /-- No slot was returned twice. -/
  freed_nodup : freed.Nodup
  /-- A process's slot was not returned. -/
  owned_notMem : ∀ t ∈ owned, t ∉ freed
  /-- A process's slot was handed out. -/
  owned_lt : ∀ t ∈ owned, t < next
  /-- A returned slot was handed out. -/
  freed_lt : ∀ t ∈ freed, t < next
  /-- A call's slot was handed out. -/
  call_lt : ∀ c t, slot c = some t → t < next
  /-- A call's slot is in no other hands. -/
  call_notMem : ∀ c t, slot c = some t → t ∉ owned ∧ t ∉ freed
  /-- No two calls have the same slot. -/
  call_inj : ∀ c d t, slot c = some t → slot d = some t → c = d

/-- What a call at `loc` knows of the page table and of its frames. -/
def CallOk (pages : ℕ → ℕ → Option ℕ) (use : ℕ → Use) (loc : Loc) : Prop :=
  ∀ t, loc.slot = some t → (∀ page, loc.Cleared page → pages t page = none) ∧
    ∀ page f, loc.Holds page f → use f = .stack t page

/-- The page table and the frames. -/
structure Pages (pages : ℕ → ℕ → Option ℕ) (use : ℕ → Use) (next : ℕ) (freed : List ℕ)
    (core : Fin n → Loc) : Prop where
  /-- A slot that the allocator has is unmapped. -/
  unmapped : ∀ t page, t ∈ freed ∨ next ≤ t → pages t page = none
  /-- Only the pages of the stack are mapped. -/
  beyond : ∀ t page, stackPages ≤ page → pages t page = none
  /-- A mapped frame was taken for its page. -/
  used : ∀ t page f, pages t page = some f → use f = .stack t page
  /-- The calls. -/
  calls : ∀ c, CallOk pages use (core c)

/-- The messages, and who waits for them. -/
structure Messages (core : Fin n → Loc) (acks : ℕ) (pending : Fin n → ℕ)
    (handling flushed : Fin n → Bool) : Prop where
  /-- Messages are under way only while a core waits. -/
  quiet : (∀ c, ¬ (core c).Waits) → ∀ d, pending d = 0 ∧ handling d = false
  /-- The count stays at zero until the messages are sent. -/
  reset : ∀ c, (core c).Reset → acks = 0
  /-- The waiting core has no message. -/
  own : ∀ c, (core c).Waits → pending c = 0 ∧ handling c = false
  /-- Every other core has its one message, or has reloaded. -/
  others : ∀ c, (core c).Waits → ∀ d ≠ c,
    (pending d = 1 ∧ handling d = false) ∨ (pending d = 0 ∧ flushed d = true)
  /-- The count is the number of cores that are done. -/
  count : ∀ c, (core c).Waits →
    acks = (Finset.univ.filter fun d => d ≠ c ∧ pending d = 0 ∧ handling d = false).card
  /-- After the wait every other core has reloaded. -/
  returned : ∀ c, (core c).Returned → ∀ d ≠ c, flushed d = true

/-- A cached translation is mapped, or a call has removed it and the core that caches it has
not reloaded since. -/
def Cached (pages : ℕ → ℕ → Option ℕ) (tlb : Fin n → Set Entry) (core : Fin n → Loc)
    (flushed : Fin n → Bool) : Prop :=
  ∀ c, ∀ e ∈ tlb c, pages e.slot e.page = some e.frame ∨
    flushed c = false ∧ ∃ d, (core d).slot = some e.slot ∧ (core d).Holds e.page e.frame ∧
      (core d).Stale (c = d) e.page

/-- What holds in every state of a run: slots, mappings, messages and caches are in order. -/
structure Inv (s : Machine n) : Prop where
  /-- A core in a locked section is the holder. -/
  mapper : ∀ c, (s.core c).Locked → s.mapper = some c
  /-- The slots. -/
  slots : Slots s.next s.freed s.owned fun c => (s.core c).slot
  /-- The page table and the frames. -/
  pages : Pages s.pages s.use s.next s.freed s.core
  /-- The messages. -/
  messages : Messages s.core s.acks s.pending s.handling s.flushed
  /-- The caches. -/
  cached : Cached s.pages s.tlb s.core s.flushed

end Shootdown

end Yggdrasil
