import Mathlib.Algebra.BigOperators.Ring.List
import Yggdrasil.Proc.Compact
import Yggdrasil.Term.Nested

/-!
# When compaction completes

The estimate counts shared structure once for every path to it, so it bounds the
distinct live words, unless the count wraps. A compaction completes exactly when the
span it asks for has room for the distinct live objects, and then it moves them all
into that span and keeps to the quota.
-/

namespace Yggdrasil

open Evac

/-- What a completed compaction of `p` to the span `sp` leaves. -/
structure Compaction.Completed (p : ProcHeap) (mem : Mem) (live : Finset ℕ) (ts : List Term)
    (sp : Span) (r : Compaction) : Prop where
  /-- The objects are moved to the start of the new span, the arguments with them. -/
  moved : ∃ φ, Evacuated mem live (Heap.new sp.base (sp.pages * 4096)) ts φ r.mem r.heap.cur r.roots
  /-- The new span is the only one. -/
  span : r.heap.spans = [sp]
  /-- Everything reachable from the arguments lies in it. -/
  inside : ∀ a, Reachable r.mem r.roots a → sp.Holds a (sizeAt r.mem a)
  /-- The page count is that of the span. -/
  pages : r.heap.totalPages = sp.pages
  /-- The quota is kept. -/
  quota : r.heap.totalPages ≤ r.heap.maxPages
  /-- Exactly the old spans are freed. -/
  freed : r.freed = p.spans

/-- The words asked for with an estimate of `words`, if the quota allows. -/
def askedWords (words : ℕ) : ℕ := 512 * max 4 ((8 * words % 2 ^ 64 + 4095) / 4096)

/-- A frame allocator hands out spans that overlap none of those in use. -/
def FreshFor (alloc : ℕ → Option ℕ) (spans : List Span) : Prop :=
  ∀ pages base, alloc pages = some base →
    (∀ sp ∈ spans, Span.Disjoint ⟨base, pages⟩ sp) ∧ base + 512 * pages ≤ 2 ^ 61

/-- A process heap with the objects in its spans, and arguments that lie in it. -/
structure Compactable (quota : ℕ) (p : ProcHeap) (mem : Mem) (space : Set ℕ) (ts : List Term) :
    Prop where
  /-- The heap has a history. -/
  reachable : p.Reachable quota
  /-- The quota is at least what a spawn passes. -/
  quota_ge : 64 ≤ quota
  /-- The objects are well formed and disjoint. -/
  objects : TermSpace mem space
  /-- They lie in the spans. -/
  held : ∀ a ∈ space, ∃ sp ∈ p.spans, sp.Holds a (sizeAt mem a)
  /-- The arguments are terms of the heap. -/
  valid : ∀ t ∈ ts, t.Valid space

section

variable {quota : ℕ} {p : ProcHeap} {mem : Mem} {space : Set ℕ} {live : Finset ℕ}
  {ts : List Term} {alloc : ℕ → Option ℕ}

/-- Without wrapping the span asked for has room for the estimate. -/
theorem le_askedWords {words : ℕ} (h : words < 2 ^ 61) : words ≤ askedWords words := by
  rw [askedWords]
  omega

private theorem targetPages_eq (p : ProcHeap) (words : ℕ) :
    p.targetPages (BitVec.ofNat 64 words) =
      max 4 (min ((8 * words % 2 ^ 64 + 4095) / 4096) p.maxPages) := by
  have hmul : (BitVec.ofNat 64 words * 8).toNat = 8 * words % 2 ^ 64 := by
    rw [BitVec.toNat_mul, BitVec.toNat_ofNat, show (8 : BitVec 64).toNat = 8 from rfl,
      Nat.mod_mul_mod, Nat.mul_comm]
  rw [ProcHeap.targetPages, hmul]

/-- The distinct live objects fit into the spans, hence into the quota. -/
theorem live_le_quota (hp : p.Ok quota) (hspace : Space mem space)
    (hheld : ∀ a ∈ space, ∃ sp ∈ p.spans, sp.Holds a (sizeAt mem a))
    (hsub : ∀ a ∈ live, a ∈ space) : ∑ a ∈ live, sizeAt mem a ≤ 512 * quota := by
  have hle : ∑ a ∈ live, sizeAt mem a ≤
      ((p.spans.map fun sp => (sp.base, 512 * sp.pages)).map Prod.snd).sum := by
    refine Layout.sum_size_le
      (fun a ha b hb => hspace.disjoint a (hsub a ha) b (hsub b hb)) fun a ha => ?_
    obtain ⟨sp, hsp, hin⟩ := hheld a (hsub a ha)
    exact ⟨_, List.mem_map_of_mem hsp, hin⟩
  have hsum : ((p.spans.map fun sp => (sp.base, 512 * sp.pages)).map Prod.snd).sum =
      512 * p.totalPages := by
    rw [hp.total_eq, List.map_map, ← List.sum_map_mul_left]
    rfl
  have htotal := hp.total_le
  omega

private theorem cap_new (base pages : ℕ) : (Heap.new base (pages * 4096)).cap = 512 * pages := by
  simp only [Heap.new]
  omega

private theorem Compactable.setup (h : Compactable quota p mem space ts)
    (hlive : ∀ a, a ∈ live ↔ Reachable mem ts a) (halloc : FreshFor alloc p.spans)
    {pages base : ℕ} (hspan : alloc pages = some base) :
    Setup mem space live (Heap.new base (pages * 4096)) := by
  obtain ⟨hdisj, hend⟩ := halloc pages base hspan
  refine setup_of_reachable h.objects.toSpace (fun t ht => (h.valid t ht).2) hlive
    (fun a ha => ?_) ?_
  · obtain ⟨sp, hsp, hlo, hhi⟩ := h.held a ha
    have hapart := hdisj sp hsp
    rw [cap_new]
    simp only [Span.Disjoint, Heap.new] at hapart ⊢
    omega
  · rw [cap_new]
    exact hend

private theorem Compactable.live_le (h : Compactable quota p mem space ts)
    (hlive : ∀ a, a ∈ live ↔ Reachable mem ts a) : ∑ a ∈ live, sizeAt mem a ≤ 512 * quota := by
  have hquota := h.quota_ge
  have hok := h.reachable.ok (by omega)
  exact live_le_quota hok h.objects.toSpace h.held fun a ha =>
    ((hlive a).mp ha).mem_space h.objects.toSpace fun t ht => (h.valid t ht).2

private theorem Compactable.fits_iff (h : Compactable quota p mem space ts)
    (hlive : ∀ a, a ∈ live ↔ Reachable mem ts a) (words : ℕ) :
    ∑ a ∈ live, sizeAt mem a ≤ 512 * p.targetPages (BitVec.ofNat 64 words) ↔
      ∑ a ∈ live, sizeAt mem a ≤ askedWords words := by
  have hquota := h.quota_ge
  have hmax := (h.reachable.ok (by omega)).max_eq
  have hle := h.live_le hlive
  rw [targetPages_eq, askedWords, hmax]
  omega

/-- How a compaction can return. -/
private theorem maybeCompact_cases {fuel : ℕ} {r : Compaction}
    (h : maybeCompact alloc fuel p mem ts = .ok r) :
    (¬p.Pressured ∧ r = ⟨p, mem, ts, []⟩) ∨
    ∃ w, liveWords mem fuel ts = .ok w ∧
      ((alloc (p.targetPages w) = none ∧ r = ⟨p, mem, ts, []⟩) ∨
      ∃ base ts' s', alloc (p.targetPages w) = some base ∧
        evacuate fuel ts ⟨mem, Heap.new base (p.targetPages w * 4096)⟩ = .ok ts' s' ∧
        r = ⟨⟨s'.heap, [⟨base, p.targetPages w⟩], p.maxPages, p.targetPages w⟩, s'.mem, ts',
          p.spans⟩) := by
  rw [maybeCompact] at h
  split at h
  · cases h
    exact .inl ⟨‹_›, rfl⟩
  · refine .inr ?_
    cases hw : liveWords mem fuel ts with
    | error e =>
      rw [hw] at h
      cases e <;> cases h
    | ok w =>
      refine ⟨w, rfl, ?_⟩
      rw [hw] at h
      cases hspan : alloc (p.targetPages w) with
      | none =>
        simp only [ProcHeap.beginCompact, hspan] at h
        cases h
        exact .inl ⟨rfl, rfl⟩
      | some base =>
        simp only [ProcHeap.beginCompact, hspan] at h
        cases hrun : evacuate fuel ts ⟨mem, Heap.new base (p.targetPages w * 4096)⟩ with
        | ok ts' s' =>
          rw [hrun] at h
          cases h
          exact .inr ⟨base, ts', s', rfl, hrun, rfl⟩
        | error e s' =>
          rw [hrun] at h
          cases e <;> cases h

private theorem maybeCompact_unpressured (h : ¬p.Pressured) (fuel : ℕ) :
    maybeCompact alloc fuel p mem ts = .ok ⟨p, mem, ts, []⟩ := by
  rw [maybeCompact, if_pos h]

private theorem maybeCompact_refused {fuel : ℕ} {w : Word}
    (hw : liveWords mem fuel ts = .ok w) (hspan : alloc (p.targetPages w) = none) :
    maybeCompact alloc fuel p mem ts = .ok ⟨p, mem, ts, []⟩ := by
  rw [maybeCompact, hw]
  simp only [ProcHeap.beginCompact, hspan, ite_self]

private theorem maybeCompact_moved (h : p.Pressured) {fuel base : ℕ} {w : Word}
    (hw : liveWords mem fuel ts = .ok w) (hspan : alloc (p.targetPages w) = some base)
    {ts' : List Term} {s' : Store}
    (hrun : evacuate fuel ts ⟨mem, Heap.new base (p.targetPages w * 4096)⟩ = .ok ts' s') :
    ∃ r, maybeCompact alloc fuel p mem ts = .ok r := by
  rw [maybeCompact, if_neg (not_not_intro h), hw]
  simp only [ProcHeap.beginCompact, hspan, hrun]
  exact ⟨_, rfl⟩

/-- Moving the live objects to a fresh span completes a compaction. -/
private theorem Compactable.completed (h : Compactable quota p mem space ts)
    (hlive : ∀ a, a ∈ live ↔ Reachable mem ts a) (halloc : FreshFor alloc p.spans)
    {w : Word} {base : ℕ} (hspan : alloc (p.targetPages w) = some base) {φ : ℕ → ℕ} {s' : Store}
    {ts' : List Term}
    (hmoved : Evacuated mem live (Heap.new base (p.targetPages w * 4096)) ts φ s'.mem s'.heap ts')
    (hfits : ∑ a ∈ live, sizeAt mem a ≤ 512 * p.targetPages w) :
    Compaction.Completed p mem live ts ⟨base, p.targetPages w⟩
      ⟨⟨s'.heap, [⟨base, p.targetPages w⟩], p.maxPages, p.targetPages w⟩, s'.mem, ts',
        p.spans⟩ := by
  have hsetup := h.setup hlive halloc hspan
  have hpos : ∀ a ∈ live, 0 < sizeAt mem a := fun a ha => hsetup.sizeAt_pos ha
  have hnext : next s'.heap ≤ base + 512 * p.targetPages w := by
    rw [hmoved.heap]
    simp only [next, Heap.new]
    omega
  have hend := (halloc _ _ hspan).2
  have hquota : p.targetPages w ≤ p.maxPages := by
    have hge := h.quota_ge
    have hmax := (h.reachable.ok (by omega)).max_eq
    rw [ProcHeap.targetPages]
    omega
  refine ⟨⟨φ, hmoved⟩, rfl, fun b hb => ?_, rfl, hquota, rfl⟩
  obtain ⟨a, ha, rfl⟩ := hmoved.of_reachable hpos (by omega) hlive hb
  have hbounds := hmoved.bounds ha (hpos a ha)
  have hsize : sizeAt s'.mem (φ a) = sizeAt mem a := by
    rw [sizeAt, hmoved.header ha (hpos a ha), sizeAt]
  simp only [next, Heap.new] at hbounds hnext
  simp only [Span.Holds, hsize]
  omega

/-- A compaction that returns leaves everything as it was or is completed. -/
theorem Compactable.of_maybeCompact (h : Compactable quota p mem space ts)
    (hlive : ∀ a, a ∈ live ↔ Reachable mem ts a) (halloc : FreshFor alloc p.spans) {fuel : ℕ}
    {r : Compaction} (hr : maybeCompact alloc fuel p mem ts = .ok r) :
    (r = ⟨p, mem, ts, []⟩ ∧ ¬p.Pressured) ∨
    ((∀ t ∈ ts, DepthLt mem fuel t) ∧
      ((r = ⟨p, mem, ts, []⟩ ∧
        alloc (p.targetPages (BitVec.ofNat 64 (estimate mem fuel ts))) = none) ∨
      ∃ sp, r.Completed p mem live ts sp ∧
        ∑ a ∈ live, sizeAt mem a ≤ askedWords (estimate mem fuel ts))) := by
  rcases maybeCompact_cases hr with ⟨hcalm, rfl⟩ | ⟨w, hw, hcase⟩
  · exact .inl ⟨rfl, hcalm⟩
  have hdepth := depth_of_liveWords h.objects h.valid hw
  rw [liveWords_ok h.objects h.valid hdepth] at hw
  cases hw
  refine .inr ⟨hdepth, ?_⟩
  rcases hcase with ⟨hnone, rfl⟩ | ⟨base, ts', s', hspan, hrun, rfl⟩
  · exact .inl ⟨rfl, hnone⟩
  obtain ⟨⟨φ, hmoved⟩, hroom⟩ :=
    ((h.setup hlive halloc hspan).evacuate_ends (Nat.zero_le _) hlive fuel).ok hrun
  have hfits : ∑ a ∈ live, sizeAt mem a ≤
      512 * p.targetPages (BitVec.ofNat 64 (estimate mem fuel ts)) := by
    rw [cap_new] at hroom
    simp only [Heap.new] at hroom
    omega
  exact .inr ⟨_, h.completed hlive halloc hspan hmoved hfits, (h.fits_iff hlive _).mp hfits⟩

/-- A compaction returns if the span it asks for is refused or has room. -/
theorem Compactable.maybeCompact_returns (h : Compactable quota p mem space ts)
    (hlive : ∀ a, a ∈ live ↔ Reachable mem ts a) (halloc : FreshFor alloc p.spans) {n : ℕ}
    (hdepth : ∀ t ∈ ts, DepthLt mem n t)
    (hroom : alloc (p.targetPages (BitVec.ofNat 64 (estimate mem n ts))) = none ∨
      ∑ a ∈ live, sizeAt mem a ≤ askedWords (estimate mem n ts)) :
    ∃ fuel r, maybeCompact alloc fuel p mem ts = .ok r := by
  by_cases hpressed : p.Pressured
  swap
  · exact ⟨0, _, maybeCompact_unpressured hpressed 0⟩
  have hle : n ≤ n + live.card + 1 := by omega
  have hw := liveWords_ok h.objects h.valid fun t ht => (hdepth t ht).mono hle
  rw [estimate_eq_of_le hdepth hle] at hw
  cases hspan : alloc (p.targetPages (BitVec.ofNat 64 (estimate mem n ts))) with
  | none => exact ⟨_, _, maybeCompact_refused hw hspan⟩
  | some base =>
    rw [hspan] at hroom
    have hfits := (h.fits_iff hlive _).mpr (hroom.resolve_left (by simp))
    have hcap := cap_new base (p.targetPages (BitVec.ofNat 64 (estimate mem n ts)))
    obtain ⟨φ, mem', dst', ts', hrun, -⟩ := (h.setup hlive halloc hspan).evacuate_ok hlive
      (by rw [hcap]; simpa [Heap.new] using hfits)
      (show live.card < n + live.card + 1 by omega)
    exact ⟨_, maybeCompact_moved hpressed hw hspan hrun⟩

/-- A compaction whose fresh span lacks room panics. -/
theorem Compactable.maybeCompact_panics (h : Compactable quota p mem space ts)
    (hlive : ∀ a, a ∈ live ↔ Reachable mem ts a) (halloc : FreshFor alloc p.spans)
    (hpressed : p.Pressured) {n base fuel : ℕ} (hdepth : ∀ t ∈ ts, DepthLt mem n t)
    (hspan : alloc (p.targetPages (BitVec.ofNat 64 (estimate mem n ts))) = some base)
    (hfull : askedWords (estimate mem n ts) < ∑ a ∈ live, sizeAt mem a) (hn : n ≤ fuel)
    (hcard : live.card < fuel) : maybeCompact alloc fuel p mem ts = .error .panic := by
  have hw := liveWords_ok h.objects h.valid fun t ht => (hdepth t ht).mono hn
  rw [estimate_eq_of_le hdepth hn] at hw
  have hends := (h.setup hlive halloc hspan).evacuate_ends (Nat.zero_le _) hlive fuel
  have hfits := h.fits_iff hlive (estimate mem n ts)
  rw [maybeCompact, if_neg (not_not_intro hpressed), hw]
  simp only [ProcHeap.beginCompact, hspan]
  cases hrun : evacuate fuel ts
      ⟨mem, Heap.new base (p.targetPages (BitVec.ofNat 64 (estimate mem n ts)) * 4096)⟩ with
  | ok ts' s' =>
    have hroom := (hends.ok hrun).2
    rw [cap_new] at hroom
    simp only [Heap.new] at hroom
    omega
  | error e s' =>
    rcases hends.error hrun with ⟨rfl, -⟩ | ⟨-, hshort⟩
    · rfl
    · omega

end

/-- The binary and 49 pairs. -/
def nestedSpace : Set ℕ := {a | ∃ k ≤ 49, a = nestedAddr k}

/-- A first span of a process, with the binary and the pairs in it. -/
def nestedHeap : ProcHeap := { ProcHeap.new 16 64 512 with cur.top := 4240 }

/-- The outermost pair. -/
def nestedRoot : Term := Term.ofAddr (nestedAddr 49)

private theorem nested_compactable {k : ℕ} (hk : k ≤ 49) :
    Compactable 64 nestedHeap nestedMem nestedSpace [Term.ofAddr (nestedAddr k)] where
  reachable := .use (.new 16 512) (by decide)
  quota_ge := le_rfl
  objects := nested_space (by decide)
  held := by
    rintro _ ⟨k, hk, rfl⟩
    have hend := nested_end k
    refine ⟨⟨512, 16⟩, by decide, ?_, ?_⟩
    · cases k with
      | zero => decide
      | succ k =>
        simp only [nestedAddr]
        omega
    · dsimp only
      omega
  valid := by
    intro t ht
    rw [List.mem_singleton.mp ht]
    exact nested_valid (by decide) hk

private theorem estimate_singleton (mem : Mem) (n : ℕ) (t : Term) :
    estimate mem n [t] = treeWords mem n t + 33 := by
  simp only [estimate, List.map_cons, List.map_nil, List.sum_cons, List.sum_nil,
    List.length_singleton]
  omega

private theorem nested_estimate : estimate nestedMem (49 + 1) [nestedRoot] = 2 ^ 61 + 30 := by
  have hwords := (nested_tree (k := 49) (by decide)).2
  rw [nestedRoot, estimate_singleton]
  generalize treeWords nestedMem (49 + 1) (Term.ofAddr (nestedAddr 49)) = w at hwords ⊢
  omega

private theorem nested_reachable {k : ℕ} (hk : k ≤ 49) :
    Reachable nestedMem [nestedRoot] (nestedAddr (49 - k)) := by
  induction k with
  | zero =>
    exact ⟨nestedRoot, by simp, Term.isBoxed_ofAddr _, nested_addr (k := 49) (by decide) ▸ .refl⟩
  | succ k ih =>
    obtain ⟨t, ht, hboxed, hpath⟩ := ih (by omega)
    refine ⟨t, ht, hboxed, hpath.tail ?_⟩
    rw [show 49 - k = 49 - (k + 1) + 1 by omega]
    exact nested_refersTo (by omega)

/-- An allocator that hands out frames far above the others. -/
def nestedAlloc (pages : ℕ) : Option ℕ := if pages ≤ 64 then some 100000 else none

private theorem nested_fresh : FreshFor nestedAlloc nestedHeap.spans := by
  intro pages base hspan
  have hfixed : pages ≤ 64 ∧ base = 100000 := by
    simpa [nestedAlloc, eq_comm] using hspan
  refine ⟨fun sp hsp => ?_, by omega⟩
  rw [show sp = ⟨512, 16⟩ from List.mem_singleton.mp hsp]
  simp only [Span.Disjoint]
  omega

/-- A heap in its first span whose compaction panics: the estimate of the shared pairs
wraps to 30 words, and the binary does not fit into the 4 pages asked for. -/
theorem nested_compaction_panics :
    Compactable 64 nestedHeap nestedMem nestedSpace [nestedRoot] ∧
      FreshFor nestedAlloc nestedHeap.spans ∧
      maybeCompact nestedAlloc 100 nestedHeap nestedMem [nestedRoot] = .error .panic := by
  have hcompactable := nested_compactable (le_refl 49)
  refine ⟨hcompactable, nested_fresh, ?_⟩
  have hrefs : ∀ t ∈ [nestedRoot], t.RefersTo nestedSpace := fun t ht =>
    (hcompactable.valid t ht).2
  obtain ⟨live, hlive⟩ := exists_live (nested_space (n := 49) (by decide)).toSpace hrefs
  have hcard : live.card ≤ 50 := by
    have hsub : live ⊆ (Finset.range 50).image nestedAddr := by
      intro a ha
      obtain ⟨k, hk, rfl⟩ :=
        ((hlive a).mp ha).mem_space (nested_space (n := 49) (by decide)).toSpace hrefs
      exact Finset.mem_image_of_mem _ (Finset.mem_range.mpr (by omega))
    have hle := (Finset.card_le_card hsub).trans Finset.card_image_le
    rwa [Finset.card_range] at hle
  have hbinary : 4093 ≤ ∑ a ∈ live, sizeAt nestedMem a := by
    have hmem : nestedAddr 0 ∈ live := (hlive _).mpr (nested_reachable (le_refl 49))
    have hle := Finset.single_le_sum (f := sizeAt nestedMem) (fun _ _ => Nat.zero_le _) hmem
    rwa [nested_size_zero] at hle
  have hdepth : ∀ t ∈ [nestedRoot], DepthLt nestedMem (49 + 1) t := by
    intro t ht
    rw [List.mem_singleton.mp ht]
    exact (nested_tree (k := 49) (by decide)).1
  have hspan : nestedAlloc (nestedHeap.targetPages
      (BitVec.ofNat 64 (estimate nestedMem (49 + 1) [nestedRoot]))) = some 100000 := by
    rw [nested_estimate]
    decide
  have hfull : askedWords (estimate nestedMem (49 + 1) [nestedRoot]) <
      ∑ a ∈ live, sizeAt nestedMem a := by
    rw [nested_estimate, askedWords]
    omega
  exact hcompactable.maybeCompact_panics hlive nested_fresh (by decide) hdepth hspan hfull
    (by decide) (by omega)

/-- Compaction of a process heap returns exactly when there is no pressure, or the
arguments have finite depth and the fresh span is refused or has room for the
distinct live objects. What returns is unchanged or completed, and there is room
whenever the estimate does not wrap. -/
theorem maybeCompact_completes_iff {quota : ℕ} {p : ProcHeap} {mem : Mem} {space : Set ℕ}
    {ts : List Term} (h : Compactable quota p mem space ts) {live : Finset ℕ}
    (hlive : ∀ a, a ∈ live ↔ Reachable mem ts a) {alloc : ℕ → Option ℕ}
    (halloc : FreshFor alloc p.spans) :
    ((∃ fuel r, maybeCompact alloc fuel p mem ts = .ok r) ↔
      ¬p.Pressured ∨ ∃ n, (∀ t ∈ ts, DepthLt mem n t) ∧
        (alloc (p.targetPages (BitVec.ofNat 64 (estimate mem n ts))) = none ∨
          ∑ a ∈ live, sizeAt mem a ≤ askedWords (estimate mem n ts))) ∧
    (∀ fuel r, maybeCompact alloc fuel p mem ts = .ok r →
      r = ⟨p, mem, ts, []⟩ ∨ ∃ sp, r.Completed p mem live ts sp) ∧
    ∀ n, (∀ t ∈ ts, DepthLt mem n t) → estimate mem n ts < 2 ^ 61 →
      ∑ a ∈ live, sizeAt mem a ≤ askedWords (estimate mem n ts) := by
  refine ⟨⟨?_, ?_⟩, ?_, ?_⟩
  · rintro ⟨fuel, r, hr⟩
    rcases h.of_maybeCompact hlive halloc hr with ⟨-, hcalm⟩ | ⟨hdepth, ⟨-, hnone⟩ | ⟨sp, -, hfits⟩⟩
    · exact .inl hcalm
    · exact .inr ⟨fuel, hdepth, .inl hnone⟩
    · exact .inr ⟨fuel, hdepth, .inr hfits⟩
  · rintro (hcalm | ⟨n, hdepth, hroom⟩)
    · exact ⟨0, _, maybeCompact_unpressured hcalm 0⟩
    · exact h.maybeCompact_returns hlive halloc hdepth hroom
  · intro fuel r hr
    rcases h.of_maybeCompact hlive halloc hr with ⟨rfl, -⟩ | ⟨-, ⟨rfl, -⟩ | ⟨sp, hdone, -⟩⟩
    · exact .inl rfl
    · exact .inl rfl
    · exact .inr ⟨sp, hdone⟩
  · intro n hdepth hsmall
    exact (live_le_estimate hlive hdepth).trans (le_askedWords hsmall)

/-- Of the same heap the binary alone can be compacted. -/
theorem binary_compaction_completes :
    ∃ (live : Finset ℕ) (fuel : ℕ) (r : Compaction),
      maybeCompact nestedAlloc fuel nestedHeap nestedMem [Term.ofAddr (nestedAddr 0)] = .ok r ∧
      (r = ⟨nestedHeap, nestedMem, [Term.ofAddr (nestedAddr 0)], []⟩ ∨
        ∃ sp, r.Completed nestedHeap nestedMem live [Term.ofAddr (nestedAddr 0)] sp) := by
  have hcompactable := nested_compactable (Nat.zero_le 49)
  obtain ⟨live, hlive⟩ := exists_live (nested_space (n := 49) (by decide)).toSpace
    fun t ht => (hcompactable.valid t ht).2
  obtain ⟨hiff, hdone, hroom⟩ := maybeCompact_completes_iff hcompactable hlive nested_fresh
  have hdepth : ∀ t ∈ [Term.ofAddr (nestedAddr 0)], DepthLt nestedMem (0 + 1) t := by
    intro t ht
    rw [List.mem_singleton.mp ht]
    exact (nested_tree (Nat.zero_le 64)).1
  have hestimate : estimate nestedMem (0 + 1) [Term.ofAddr (nestedAddr 0)] < 2 ^ 61 := by
    have hwords := (nested_tree (Nat.zero_le 64)).2
    rw [estimate_singleton]
    generalize treeWords nestedMem (0 + 1) (Term.ofAddr (nestedAddr 0)) = w at hwords ⊢
    omega
  obtain ⟨fuel, r, hr⟩ := hiff.mpr (.inr ⟨0 + 1, hdepth, .inr (hroom _ hdepth hestimate)⟩)
  exact ⟨live, fuel, r, hr, hdone fuel r hr⟩

end Yggdrasil
