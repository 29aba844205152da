import Mathlib.Order.CompletePartialOrder
import Yggdrasil.Proc.Fragment
import Yggdrasil.Proc.Heap

/-!
# Selective receive

`recv_where` scans the mailbox under the table lock. Each message is copied into the process
heap on trial and the heap is rolled back when the predicate rejects the copy. A message that
does not fit makes the heap grow, and the scan goes on with the next one: the message itself
is not tried again in that scan.
-/

namespace Yggdrasil

open Evac

/-- What `recv_where` works on. -/
structure Receiver where
  /-- The heap of the process. -/
  heap : ProcHeap
  /-- Memory. -/
  mem : Mem
  /-- The messages, oldest first. -/
  mailbox : List Fragment
  /-- The process is dead, or `kill_pending` is set. -/
  dead : Bool

/-- How the scan of a mailbox ends. -/
inductive Scanned where
  /-- With a copy of the message at an index. -/
  | matched (i : ℕ) (t : Term)
  /-- At the end of the mailbox. -/
  | missed
  /-- With a message that does not fit a heap that does not grow. -/
  | quota
  deriving DecidableEq, Repr

/-- What a pass of the loop of `recv_where` does next. -/
inductive Pass where
  /-- Return to the caller. -/
  | returns (r : Option Term)
  /-- Wait for a message or the deadline. -/
  | parks
  /-- Exit with "heap quota exceeded". -/
  | exits
  /-- Hand control back as a dead process. -/
  | dies
  deriving DecidableEq, Repr

/-- The answers of the frame allocator during a scan: the one for a number of pages while the
message at an index is copied. -/
abbrev Answers := ℕ → ℕ → Option ℕ

namespace Receiver

/-- The scan of the messages from index `i` on. -/
def scan (fuel : ℕ) (pred : Mem → Term → Bool) (alloc : Answers) (i : ℕ) :
    List Fragment → ProcHeap → Mem → Except Halt (Scanned × ProcHeap × Mem)
  | [], heap, mem => .ok (.missed, heap, mem)
  | f :: fs, heap, mem =>
    let watermark := heap.cur.usedBytes
    match copyTerm fuel f.root ⟨mem, heap.cur⟩ with
    | .ok copied st =>
      if pred st.mem copied then .ok (.matched i copied, { heap with cur := st.heap }, st.mem)
      else
        scan fuel pred alloc (i + 1) fs { heap with cur := st.heap.truncateTo watermark } st.mem
    | .error .heapFull st =>
      match ({ heap with cur := st.heap } : ProcHeap).grow (alloc i) with
      | some heap' => scan fuel pred alloc (i + 1) fs heap' st.mem
      | none => .ok (.quota, { heap with cur := st.heap }, st.mem)
    | .error .fuel _ => .error .limit
    | .error .panic _ => .error .panic

/-- One pass of the loop of `recv_where`, with the clock at `now` when the deadline is looked
at. -/
def pass (fuel : ℕ) (pred : Mem → Term → Bool) (alloc : Answers) (deadline : Option ℕ) (now : ℕ)
    (s : Receiver) : Except Halt (Pass × Receiver) :=
  if s.dead then .ok (.dies, s)
  else
    match scan fuel pred alloc 0 s.mailbox s.heap s.mem with
    | .error e => .error e
    | .ok (.quota, heap, mem) => .ok (.exits, { s with heap := heap, mem := mem })
    | .ok (.matched i t, heap, mem) =>
      .ok (.returns (some t),
        { s with heap := heap, mem := mem, mailbox := s.mailbox.eraseIdx i })
    | .ok (.missed, heap, mem) =>
      if deadline.any (· ≤ now) then .ok (.returns none, { s with heap := heap, mem := mem })
      else .ok (.parks, { s with heap := heap, mem := mem })

end Receiver

/-- A call of `recv_where` in state `s` that returns `r` and leaves `s'`, from a last scan in
state `q` with the given answers of the allocator and the clock at `now`. While the process
waits, messages are appended and the rest of memory changes. -/
inductive RecvWhere (fuel : ℕ) (pred : Mem → Term → Bool) (deadline : Option ℕ) :
    Receiver → Receiver → Answers → ℕ → Option Term → Receiver → Prop
  /-- The first pass returns. -/
  | returns {q s' : Receiver} {alloc : Answers} {now : ℕ} {r : Option Term} :
    q.pass fuel pred alloc deadline now = .ok (.returns r, s') →
    RecvWhere fuel pred deadline q q alloc now r s'
  /-- It waits, and goes on when woken. -/
  | again {s s₁ s₂ q s' : Receiver} {alloc₀ alloc : Answers} {now₀ now : ℕ} {r : Option Term} :
    s.pass fuel pred alloc₀ deadline now₀ = .ok (.parks, s₁) →
    s₂.heap = s₁.heap → s₁.mailbox <+: s₂.mailbox →
    RecvWhere fuel pred deadline s₂ q alloc now r s' →
    RecvWhere fuel pred deadline s q alloc now r s'

/-- A predicate that looks at what a term says only. -/
def Structural (fuel : ℕ) (pred : Mem → Term → Bool) : Prop :=
  ∀ {mem mem' : Mem} {t t' : Term}, DepthLt mem fuel t →
    t'.value mem' fuel = t.value mem fuel → pred mem' t' = pred mem t

namespace Receiver

/-- The messages of a process are well-formed terms of finite depth, clear of its free words. -/
structure Ready (q : Receiver) (fuel : ℕ) (space : Set ℕ) : Prop where
  /-- The objects are clear of the free words. -/
  apart : Store.Apart ⟨q.mem, q.heap.cur⟩ (next q.heap.cur) space
  /-- The messages are made of them. -/
  valid : ∀ f ∈ q.mailbox, f.root.Valid space ∧ DepthLt q.mem fuel f.root
  /-- Each message has a fragment of its own. -/
  nodup : q.mailbox.Nodup

/-- The frame allocator hands out frames that are clear of the objects. -/
def Sound (q : Receiver) (space : Set ℕ) (alloc : Answers) : Prop :=
  ∀ i pages base, alloc i pages = some base →
    Fragment.Backed q.mem space base (512 * pages)

/-- What a return from a scan in `q` should be: a copy of the first message that satisfies the
predicate, which alone is removed; or nothing, because the deadline has passed and no message
satisfies it. -/
structure TakesFirst (q : Receiver) (fuel : ℕ) (space : Set ℕ) (pred : Mem → Term → Bool)
    (deadline : Option ℕ) (now : ℕ) (r : Option Term) (s' : Receiver) : Prop where
  /-- A message. -/
  taken : ∀ t, r = some t → ∃ i f, q.mailbox[i]? = some f ∧ pred q.mem f.root = true ∧
    (∀ j < i, ∀ g, q.mailbox[j]? = some g → pred q.mem g.root = false) ∧
    t.value s'.mem fuel = f.root.value q.mem fuel ∧
    (∃ new, TermSpace s'.mem new ∧ t.Valid new ∧ Disjoint new space) ∧
    s'.mailbox = q.mailbox.eraseIdx i
  /-- No message. -/
  nothing : r = none → (∃ d, deadline = some d ∧ d ≤ now) ∧
    (∀ f ∈ q.mailbox, pred q.mem f.root = false) ∧ s'.mailbox = q.mailbox
  /-- The objects stay as they are. -/
  agree : Agree q.mem s'.mem space

/-- The heap behind messages that are not taken, the first of them at index `i`: it grows at
each one that does not fit the free words of the current span. -/
def behind (fuel : ℕ) (mem : Mem) (alloc : Answers) (i : ℕ) :
    List Fragment → ProcHeap → Option ProcHeap
  | [], heap => some heap
  | f :: fs, heap =>
    if heap.cur.top + treeWords mem fuel f.root ≤ heap.cur.cap then
      behind fuel mem alloc (i + 1) fs heap
    else (heap.grow (alloc i)).bind (behind fuel mem alloc (i + 1) fs)

/-- The first message that satisfies the predicate fits the free words of the span that is
current when the scan reaches it. -/
def FirstFits (q : Receiver) (fuel : ℕ) (pred : Mem → Term → Bool) (alloc : Answers) : Prop :=
  ∀ f heap, (q.mailbox.dropWhile fun g => !pred q.mem g.root).head? = some f →
    behind fuel q.mem alloc 0 (q.mailbox.takeWhile fun g => !pred q.mem g.root) q.heap =
      some heap →
    heap.cur.top + treeWords q.mem fuel f.root ≤ heap.cur.cap

end Receiver

section Scan

variable {fuel i : ℕ} {pred : Mem → Term → Bool} {alloc : Answers} {space : Set ℕ}
  {mem₀ mem : Mem} {heap : ProcHeap} {f : Fragment} {fs : List Fragment}

/-- What a scan that began in memory `mem₀` works on when it reaches a message. -/
private structure Reached (space : Set ℕ) (mem₀ : Mem) (heap : ProcHeap) (mem : Mem) : Prop where
  apart : Store.Apart ⟨mem, heap.cur⟩ (next heap.cur) space
  agree : Agree mem₀ mem space

/-- The copy is made of objects that were not there. -/
private theorem copied_disjoint {w : ℕ} {t t' : Term} {st : Store}
    (h : Store.Apart ⟨mem, heap.cur⟩ (next heap.cur) space)
    (hcopy : Copied ⟨mem, heap.cur⟩ w t t' st) :
    ∃ new, TermSpace st.mem new ∧ t'.Valid new ∧ Disjoint new space := by
  obtain ⟨new, hregion, hvalid⟩ := hcopy.made
  refine ⟨new, hregion.objects, hvalid, Set.disjoint_left.2 fun a hnew hold => ?_⟩
  obtain ⟨hag, -⟩ := h.advance hcopy.advanced
  have hwithin := hregion.within a hnew
  have hclear : a + sizeAt mem a ≤ next heap.cur ∨ heap.cur.base + heap.cur.cap ≤ a :=
    h.clear a hold
  have hfits := hcopy.advanced.fits
  have hpos : 0 < sizeAt mem a := sizeAt_pos (h.objects.ok a hold).kind
  have hsize : sizeAt st.mem a = sizeAt mem a := hag.sizeAt_eq h.objects hold
  dsimp only [Evac.next] at hwithin hclear hfits
  omega

/-- After a copy that is rolled back the heap is as before, and the objects are too. -/
private theorem Reached.truncate (hspace : TermSpace mem₀ space) {w : ℕ} {t t' : Term}
    {st : Store} (h : Reached space mem₀ heap mem) (hcopy : Copied ⟨mem, heap.cur⟩ w t t' st) :
    st.heap.truncateTo heap.cur.usedBytes = heap.cur ∧ Reached space mem₀ heap st.mem := by
  obtain ⟨hag, hapart⟩ := h.apart.advance hcopy.advanced
  have hheap := hcopy.advanced.heap
  have hclear := hapart.clear
  rw [hheap] at hclear
  refine ⟨?_, ⟨hapart.objects, hclear, Nat.le_refl _, h.apart.top_le, h.apart.bound⟩,
    h.agree.trans hspace hag⟩
  rw [hheap, Heap.truncateTo, Heap.usedBytes, Nat.mul_div_cancel _ (by decide)]

/-- A message that fits is taken if it satisfies the predicate, and left alone if not. -/
private theorem scan_fits (hpred : Structural fuel pred) (hspace : TermSpace mem₀ space)
    (hf : f.root.Valid space ∧ DepthLt mem₀ fuel f.root) (h : Reached space mem₀ heap mem)
    (hfits : heap.cur.top + treeWords mem₀ fuel f.root ≤ heap.cur.cap) :
    ∃ t heap' mem', Reached space mem₀ heap mem' ∧
      t.value mem' fuel = f.root.value mem₀ fuel ∧
      (∃ new, TermSpace mem' new ∧ t.Valid new ∧ Disjoint new space) ∧
      Receiver.scan fuel pred alloc i (f :: fs) heap mem =
        if pred mem₀ f.root then .ok (.matched i t, heap', mem')
        else Receiver.scan fuel pred alloc (i + 1) fs heap mem' := by
  have hdepth := (h.agree.depthLt hspace hf.1).2 hf.2
  have hneeds := copyTerm_copier space fuel ⟨mem, heap.cur⟩ f.root h.apart hf.1 hdepth
  rw [h.agree.treeWords hspace hf.1] at hneeds
  rcases hneeds with ⟨-, t, st, hrun, hcopy⟩ | ⟨hfull, -⟩
  · obtain ⟨htrunc, hreached⟩ := h.truncate hspace hcopy
    have hvalue : t.value st.mem fuel = f.root.value mem₀ fuel := by
      rw [hcopy.value fuel hdepth]
      exact h.agree.value hspace hf.1
    refine ⟨t, { heap with cur := st.heap }, st.mem, hreached, hvalue,
      copied_disjoint h.apart hcopy, ?_⟩
    rw [Receiver.scan]
    simp only [hrun, hpred hf.2 hvalue, htrunc]
  · exact absurd hfull (Nat.not_lt.2 hfits)

/-- A new span is clear of the objects. -/
private theorem Reached.grow (hspace : TermSpace mem₀ space)
    (hsound : ∀ pages base, alloc i pages = some base →
      Fragment.Backed mem₀ space base (512 * pages))
    (hag : Agree mem₀ mem space) {heap' : ProcHeap} (h : heap.grow (alloc i) = some heap') :
    Reached space mem₀ heap' mem := by
  rw [ProcHeap.grow] at h
  split at h
  · cases h
  cases halloc : alloc i (min heap.totalPages (heap.maxPages - heap.totalPages)) with
  | none =>
    simp only [halloc] at h
    cases h
  | some base =>
    simp only [halloc] at h
    cases h
    obtain ⟨hclear, hbound⟩ := hsound _ _ halloc
    have hcap : ∀ pages, (Heap.new base (pages * 4096)).cap = 512 * pages := by
      intro pages
      change pages * 4096 / 8 = 512 * pages
      omega
    refine ⟨⟨hspace.congr hag, fun a ha => ?_, Nat.le_refl _, Nat.zero_le _, ?_⟩, hag⟩
    · rw [hag.sizeAt_eq hspace ha, hcap]
      exact hclear a ha
    · rw [hcap]
      exact hbound

/-- A message that does not fit is passed over if the heap grows. -/
private theorem scan_full (hspace : TermSpace mem₀ space)
    (hsound : ∀ pages base, alloc i pages = some base →
      Fragment.Backed mem₀ space base (512 * pages))
    (hf : f.root.Valid space ∧ DepthLt mem₀ fuel f.root) (h : Reached space mem₀ heap mem)
    (hfull : ¬heap.cur.top + treeWords mem₀ fuel f.root ≤ heap.cur.cap) :
    (∃ heap' mem', Receiver.scan fuel pred alloc i (f :: fs) heap mem =
        .ok (.quota, heap', mem')) ∨
      ∃ heap' mem', heap.grow (alloc i) = some heap' ∧ Reached space mem₀ heap' mem' ∧
        Receiver.scan fuel pred alloc i (f :: fs) heap mem =
          Receiver.scan fuel pred alloc (i + 1) fs heap' mem' := by
  have hdepth := (h.agree.depthLt hspace hf.1).2 hf.2
  have hneeds := copyTerm_copier space fuel ⟨mem, heap.cur⟩ f.root h.apart hf.1 hdepth
  rw [h.agree.treeWords hspace hf.1] at hneeds
  rcases hneeds with ⟨hfits, -⟩ | ⟨-, st, hrun, hstuck⟩
  · exact absurd hfits hfull
  have hag : Agree mem₀ st.mem space := by
    refine h.agree.trans hspace fun a ha j hj => hstuck.frame _ ?_
    have hclear := h.apart.clear a ha
    dsimp only at hclear ⊢
    omega
  have hsame : ({ heap with cur := st.heap } : ProcHeap).grow (alloc i) = heap.grow (alloc i) := rfl
  rw [Receiver.scan]
  simp only [hrun, hsame]
  cases hgrow : heap.grow (alloc i) with
  | none => exact .inl ⟨_, _, rfl⟩
  | some heap' =>
    exact .inr ⟨heap', st.mem, rfl, .grow hspace hsound hag hgrow, rfl⟩

/-- Messages that the predicate rejects are left behind, unless the quota is exceeded. -/
private theorem scan_behind (hpred : Structural fuel pred) (hspace : TermSpace mem₀ space)
    (hsound : ∀ i pages base, alloc i pages = some base →
      Fragment.Backed mem₀ space base (512 * pages)) {before : List Fragment}
    (hvalid : ∀ f ∈ before, f.root.Valid space ∧ DepthLt mem₀ fuel f.root)
    (hreject : ∀ f ∈ before, pred mem₀ f.root = false) (h : Reached space mem₀ heap mem) :
    (∃ heap' mem', Receiver.scan fuel pred alloc i (before ++ fs) heap mem =
        .ok (.quota, heap', mem')) ∨
      ∃ heap' mem', Receiver.behind fuel mem₀ alloc i before heap = some heap' ∧
        Reached space mem₀ heap' mem' ∧
        Receiver.scan fuel pred alloc i (before ++ fs) heap mem =
          Receiver.scan fuel pred alloc (i + before.length) fs heap' mem' := by
  induction before generalizing i heap mem with
  | nil => exact .inr ⟨heap, mem, rfl, h, rfl⟩
  | cons f before ih =>
    obtain ⟨hf, hrest⟩ := List.forall_mem_cons.1 hvalid
    obtain ⟨hrej, hrejs⟩ := List.forall_mem_cons.1 hreject
    rw [Receiver.behind, List.length_cons, Nat.add_comm before.length, ← Nat.add_assoc,
      List.cons_append]
    split
    · rename_i hfits
      obtain ⟨t, heap', mem', hnext, -, -, hscan⟩ := scan_fits hpred hspace hf h hfits
      rw [hscan, hrej, if_neg Bool.false_ne_true]
      exact ih hrest hrejs hnext
    · rename_i hfull
      rcases scan_full hspace (hsound i) hf h hfull with hquota | ⟨heap', mem', hgrow, hnext, hscan⟩
      · exact .inl hquota
      · rw [hscan, hgrow]
        exact ih hrest hrejs hnext

/-- A scan finds no message before the one it begins with. -/
private theorem le_of_scan {heap' : ProcHeap} {mem' : Mem} {k : ℕ} {t : Term}
    (h : Receiver.scan fuel pred alloc i fs heap mem = .ok (.matched k t, heap', mem')) :
    i ≤ k := by
  induction fs generalizing i heap mem with
  | nil => cases h
  | cons f fs ih =>
    rw [Receiver.scan] at h
    split at h
    · split at h
      · cases h
        exact Nat.le_refl _
      · exact Nat.le_of_succ_le (ih h)
    · split at h
      · exact Nat.le_of_succ_le (ih h)
      · cases h
    · cases h
    · cases h

end Scan

section Receive

variable {fuel now : ℕ} {pred : Mem → Term → Bool} {alloc : Answers} {deadline : Option ℕ}
  {space : Set ℕ} {s q s' : Receiver} {r : Option Term}

/-- A receive returns from its last scan. -/
private theorem RecvWhere.last (h : RecvWhere fuel pred deadline s q alloc now r s') :
    q.pass fuel pred alloc deadline now = .ok (.returns r, s') := by
  induction h with
  | returns hpass => exact hpass
  | again _ _ _ _ ih => exact ih

/-- A pass that returns has found a match, or nothing after the deadline. -/
private theorem pass_returns (h : q.pass fuel pred alloc deadline now = .ok (.returns r, s')) :
    ∃ res heap, Receiver.scan fuel pred alloc 0 q.mailbox q.heap q.mem =
        .ok (res, heap, s'.mem) ∧
      ((∃ i t, res = .matched i t ∧ r = some t ∧ s'.mailbox = q.mailbox.eraseIdx i) ∨
        (res = .missed ∧ r = none ∧ (∃ d, deadline = some d ∧ d ≤ now) ∧
          s'.mailbox = q.mailbox)) := by
  rw [Receiver.pass] at h
  split at h
  · cases h
  cases hscan : Receiver.scan fuel pred alloc 0 q.mailbox q.heap q.mem with
  | error e =>
    rw [hscan] at h
    cases h
  | ok x =>
    obtain ⟨res, heap, mem⟩ := x
    cases res with
    | quota =>
      simp only [hscan] at h
      cases h
    | matched i t =>
      simp only [hscan] at h
      cases h
      exact ⟨_, heap, rfl, .inl ⟨i, t, rfl, rfl, rfl⟩⟩
    | missed =>
      simp only [hscan] at h
      split at h
      · rename_i hdue
        cases h
        refine ⟨_, heap, rfl, .inr ⟨rfl, rfl, ?_, rfl⟩⟩
        simpa [Option.any_eq_true] using hdue
      · cases h

/-- A mailbox without a match. -/
private theorem takesFirst_of_missed
    (hnone : ∀ f ∈ q.mailbox, pred q.mem f.root = false) (hag : Agree q.mem s'.mem space)
    (hres : r = none ∧ (∃ d, deadline = some d ∧ d ≤ now) ∧ s'.mailbox = q.mailbox) :
    q.TakesFirst fuel space pred deadline now r s' := by
  obtain ⟨rfl, hdue, hbox⟩ := hres
  exact ⟨fun t ht => (by cases ht), fun _ => ⟨hdue, hnone, hbox⟩, hag⟩

/-- The message behind those that are rejected. -/
private theorem takesFirst_of_matched {before after : List Fragment} {f : Fragment} {t : Term}
    (hsplit : q.mailbox = before ++ f :: after)
    (hreject : ∀ g ∈ before, pred q.mem g.root = false) (hmatch : pred q.mem f.root = true)
    (hvalue : t.value s'.mem fuel = f.root.value q.mem fuel)
    (hnew : ∃ new, TermSpace s'.mem new ∧ t.Valid new ∧ Disjoint new space)
    (hag : Agree q.mem s'.mem space) (hr : r = some t)
    (hbox : s'.mailbox = q.mailbox.eraseIdx before.length) :
    q.TakesFirst fuel space pred deadline now r s' := by
  refine ⟨fun u hu => ?_, fun hnone => ?_, hag⟩
  · rw [hr] at hu
    cases hu
    refine ⟨before.length, f, by simp [hsplit], hmatch, fun j hj g hg => ?_, hvalue, hnew, hbox⟩
    rw [hsplit, List.getElem?_append_left hj] at hg
    exact hreject g (List.mem_of_getElem? hg)
  · rw [hr] at hnone
    cases hnone

/-- A return after the first match was passed over is not the right one. -/
private theorem not_takesFirst {before after : List Fragment} {f : Fragment}
    (hnodup : q.mailbox.Nodup) (hsplit : q.mailbox = before ++ f :: after)
    (hmatch : pred q.mem f.root = true)
    (hlate : ∀ t, r = some t → ∃ k, before.length < k ∧ s'.mailbox = q.mailbox.eraseIdx k) :
    ¬q.TakesFirst fuel space pred deadline now r s' := by
  intro h
  cases r with
  | none =>
    have hnone := (h.nothing rfl).2.1 f (by simp [hsplit])
    rw [hmatch] at hnone
    cases hnone
  | some t =>
    obtain ⟨i, g, hg, -, hbefore, -, -, hbox⟩ := h.taken t rfl
    obtain ⟨k, hk, hbox'⟩ := hlate t rfl
    have hf : q.mailbox[before.length]? = some f := by simp [hsplit]
    have hle : i ≤ before.length := by
      by_contra hlt
      have hfalse := hbefore _ (Nat.lt_of_not_le hlt) f hf
      rw [hmatch] at hfalse
      cases hfalse
    -- The message that should be gone is still in the mailbox.
    have hstays : g ∈ q.mailbox.eraseIdx k :=
      List.mem_eraseIdx_iff_getElem?.2 ⟨i, by omega, hg⟩
    rw [← hbox', hbox] at hstays
    obtain ⟨j, hj, hg'⟩ := List.mem_eraseIdx_iff_getElem?.1 hstays
    obtain ⟨hlt, -⟩ := List.getElem?_eq_some_iff.1 hg'
    exact hj ((List.getElem?_inj hlt hnodup).1 (hg'.trans hg.symm))

/-- A pass over rejected messages and then, if `rest` is not empty, a match. -/
private theorem takesFirst_iff {before rest : List Fragment} (h : q.Ready fuel space)
    (hpred : Structural fuel pred) (halloc : q.Sound space alloc)
    (hsplit : q.mailbox = before ++ rest)
    (hreject : ∀ g ∈ before, pred q.mem g.root = false)
    (hmatch : ∀ f, rest.head? = some f → pred q.mem f.root = true)
    (hpass : q.pass fuel pred alloc deadline now = .ok (.returns r, s')) :
    q.TakesFirst fuel space pred deadline now r s' ↔
      ∀ f heap, rest.head? = some f →
        Receiver.behind fuel q.mem alloc 0 before q.heap = some heap →
        heap.cur.top + treeWords q.mem fuel f.root ≤ heap.cur.cap := by
  obtain ⟨res, heap, hscan, hres⟩ := pass_returns hpass
  have hnot : res ≠ .quota := by
    rcases hres with ⟨i, t, rfl, -⟩ | ⟨rfl, -⟩
    · simp
    · simp
  have hvalid := h.valid
  rw [hsplit] at hvalid hscan
  obtain ⟨hvalids, hvalidr⟩ := List.forall_mem_append.1 hvalid
  have hstart : Reached space q.mem q.heap q.mem := ⟨h.apart, fun a _ j _ => rfl⟩
  rcases scan_behind hpred h.apart.objects halloc hvalids hreject hstart with
    ⟨heap', mem', hquota⟩ | ⟨heap₁, mem₁, hbehind, hreached, hrest⟩
  · cases hquota.symm.trans hscan
    exact absurd rfl hnot
  rw [hrest, Nat.zero_add] at hscan
  cases rest with
  | nil =>
    cases hscan
    rcases hres with ⟨i, t, hne, -⟩ | ⟨-, hres⟩
    · cases hne
    · rw [List.append_nil] at hsplit
      exact iff_of_true (takesFirst_of_missed (hsplit ▸ hreject) hreached.agree hres)
        fun f heap hf => by cases hf
  | cons f after =>
    have hf := hvalidr f List.mem_cons_self
    have htrue := hmatch f rfl
    by_cases hfits : heap₁.cur.top + treeWords q.mem fuel f.root ≤ heap₁.cur.cap
    · obtain ⟨t, heap', mem', hnext, hvalue, hnew, hone⟩ :=
        scan_fits hpred h.apart.objects hf hreached hfits
      rw [hone, if_pos htrue] at hscan
      cases hscan
      rcases hres with ⟨i, u, heq, hr, hbox⟩ | ⟨hne, -⟩
      · cases heq
        refine iff_of_true (takesFirst_of_matched hsplit hreject htrue hvalue hnew hnext.agree hr
          hbox) fun g heap hg hb => ?_
        cases hg
        cases hbehind.symm.trans hb
        exact hfits
      · cases hne
    · rcases scan_full h.apart.objects (halloc _) hf hreached hfits with
        ⟨heap', mem', hquota⟩ | ⟨heap', mem', -, -, hone⟩
      · cases hquota.symm.trans hscan
        exact absurd rfl hnot
      · rw [hone] at hscan
        refine iff_of_false (not_takesFirst h.nodup hsplit htrue fun t ht => ?_)
          fun hall => hfits (hall f heap₁ rfl hbehind)
        rcases hres with ⟨i, u, rfl, -, hbox⟩ | ⟨-, hnone, -⟩
        · exact ⟨i, le_of_scan hscan, hbox⟩
        · cases hnone.symm.trans ht

/-- A receive by a process with well-formed messages takes the first match exactly when that
message fits the free words of the span that is current when the scan reaches it. -/
theorem recvWhere_first_iff (h : q.Ready fuel space) (hpred : Structural fuel pred)
    (halloc : q.Sound space alloc)
    (hrun : RecvWhere fuel pred deadline s q alloc now r s') :
    q.TakesFirst fuel space pred deadline now r s' ↔ q.FirstFits fuel pred alloc := by
  refine takesFirst_iff h hpred halloc List.takeWhile_append_dropWhile.symm (fun g hg => ?_)
    (fun f hf => ?_) hrun.last
  · have hall := List.all_eq_true.1 List.all_takeWhile g hg
    simpa using hall
  · have hhead := List.head?_dropWhile_not (fun g : Fragment => !pred q.mem g.root) q.mailbox
    rw [hf] at hhead
    simpa using hhead

end Receive

/-! ### A receive out of order -/

/-- A binary of one byte at word 100. -/
def letterMem : Mem := writeWords (fun _ => 0) 100 [Heap.headerWord 1 kindBinary, 65]

/-- A process whose span of one page has one free word, with the binary and an integer in its
mailbox. -/
def letters : Receiver where
  heap := ⟨⟨10240, 512, 511⟩, [⟨10240, 1⟩], 64, 1⟩
  mem := letterMem
  mailbox := [⟨100, 2, Term.ofAddr 100⟩, ⟨200, 1, Term.int 7⟩]
  dead := false

private theorem letter_header : letterMem 100 = Heap.headerWord 1 kindBinary := rfl

private theorem letter_region : Region letterMem 100 102 (insert 100 ∅) := by
  refine region_empty.insert ?_ (fun j hj => ?_) (fun j hj => ?_) (Nat.le_refl _) ?_ (by decide)
    fun a ha => ha.elim
  · rw [letter_header]
    decide
  · rw [letter_header] at hj
    have hlo : 1 ≤ j := hj.1
    have hhi : j < 1 + 0 := hj.2
    omega
  · rw [letter_header] at hj
    exact absurd hj.1 (by decide)
  · rw [sizeAt, letter_header]
    decide

private theorem letters_ready : letters.Ready 1 (insert 100 ∅) := by
  refine ⟨⟨letter_region.objects, fun a ha => .inl ?_, Nat.le_refl _, by decide, by decide⟩,
    fun f hf => ?_, by decide⟩
  · have hend := (letter_region.within a ha).2
    dsimp only [letters, Evac.next] at hend ⊢
    omega
  · rcases List.mem_cons.1 hf with rfl | hf
    · refine ⟨Term.valid_ofAddr (Set.mem_insert _ _) (by decide), fun _ i hi => ?_⟩
      have hnone : refCount (letterMem 100) = 0 := by
        rw [letter_header]
        decide
      rw [Term.addr_ofAddr (by decide)] at hi
      exact absurd (hi.trans_eq hnone) (Nat.not_lt_zero i)
    · rw [List.mem_singleton] at hf
      subst hf
      refine ⟨Term.valid_int 7, fun hbox => ?_⟩
      cases hbox

/-- An allocator that answers requests for one page. -/
def onePage : Answers := fun _ pages => if pages = 1 then some 20480 else none

private theorem letters_sound : letters.Sound (insert 100 ∅) onePage := by
  intro i pages base h
  rw [onePage, Option.ite_none_right_eq_some] at h
  obtain ⟨rfl, h⟩ := h
  cases h
  exact ⟨fun a ha => .inl ((letter_region.within a ha).2.trans (by decide)), by decide⟩

/-- With one free word, `recv` passes over the binary and returns the integer. -/
theorem recv_out_of_order : letters.Ready 1 (insert 100 ∅) ∧
    letters.Sound (insert 100 ∅) onePage ∧
    ∃ s', RecvWhere 1 (fun _ _ => true) none letters letters onePage 0
        (some (Term.int 7)) s' ∧
      s'.mailbox = [⟨100, 2, Term.ofAddr 100⟩] :=
  ⟨letters_ready, letters_sound, _, .returns rfl, rfl⟩

/-- The value is an immediate. -/
def Value.isImmediate : Value → Bool
  | .immediate _ => true
  | _ => false

/-- A receive of an immediate lets the heap grow at the binary and takes the integer behind it:
that is the first match, and it fits the new span. -/
theorem immediate_taken_first : ∃ s', RecvWhere 1 (fun mem t => (t.value mem 1).isImmediate) none
      letters letters onePage 0 (some (Term.int 7)) s' ∧
    s'.heap.totalPages = 2 ∧
    letters.TakesFirst 1 (insert 100 ∅) (fun mem t => (t.value mem 1).isImmediate) none 0
      (some (Term.int 7)) s' := by
  have hrun : RecvWhere 1 (fun mem t => (t.value mem 1).isImmediate) none letters letters
      onePage 0 (some (Term.int 7)) _ := .returns rfl
  refine ⟨_, hrun, rfl, (recvWhere_first_iff letters_ready
    (fun _ hvalue => congrArg Value.isImmediate hvalue) letters_sound hrun).2 ?_⟩
  intro f heap hf hheap
  have hseven : some (⟨200, 1, Term.int 7⟩ : Fragment) = some f := hf
  have hgrown : some (⟨Heap.new 20480 4096, [⟨10240, 1⟩, ⟨20480, 1⟩], 64, 2⟩ : ProcHeap) =
    some heap := hheap
  cases hseven
  cases hgrown
  decide

end Yggdrasil
