import Yggdrasil.Alloc.Frames

/-!
# The frame allocator at boot

The allocator tracks memory up to the end of the highest usable region. Usable regions become
free, except for frame 0 and for the bitmap, which lies in the first region that can hold it.
-/

namespace Yggdrasil

namespace Pmm

/-- An entry of the boot loader's memory map. -/
structure Region where
  /-- Where it starts. -/
  base : ℕ
  /-- Its length. -/
  length : ℕ
  /-- Whether its type is `MEMMAP_USABLE`. -/
  usable : Bool

/-- Why the kernel stops in `init`. -/
inductive InitPanic where
  /-- No usable memory. -/
  | noUsable
  /-- No region can host the frame bitmap. -/
  | noHost
  /-- The bitmap asserts. -/
  | bitmap (e : AllocPanic)

variable (map : List Region)

/-- The end of the highest usable region. -/
def top : Option ℕ := ((map.filter (·.usable)).map fun e => e.base + e.length).max?

/-- The size of the bitmap in bytes, for memory up to `top`. -/
def storageBytes (top : ℕ) : ℕ := FrameBitmap.storageWords (top / frameSize) * 8

/-- The first usable region that can hold the bitmap. -/
def host (top : ℕ) : Option Region :=
  (map.filter (·.usable)).find? fun e => storageBytes top ≤ e.length

/-- What `init` tells the bitmap. -/
def marks (top : ℕ) (h : Region) : List Mark :=
  (map.filter (·.usable)).map (fun e => .free e.base e.length) ++
    [.used h.base (storageBytes top)] ++ if 0 < top / frameSize then [.used 0 frameSize] else []

/-- `init`; `mem` is what is in memory, by words. -/
def init (mem : ℕ → BitVec 64) : Except InitPanic FrameBitmap :=
  match top map with
  | none => .error .noUsable
  | some top =>
    match host map top with
    | none => .error .noHost
    | some h =>
      let storage := (List.range (storageBytes top / 8)).map fun i => mem (h.base / 8 + i)
      match FrameBitmap.new 0 (top / frameSize) storage >>= Mark.runAll (marks map top h) with
      | .ok b => .ok b
      | .error e => .error (.bitmap e)

/-- A frame that may be handed out: it is not frame 0, is inside a usable region, and has no
byte of the bitmap. -/
def Available (f : ℕ) : Prop :=
  f ≠ 0 ∧ (∃ e ∈ map, e.usable ∧ e.base ≤ f * frameSize ∧ (f + 1) * frameSize ≤ e.base + e.length) ∧
    ∀ t ∈ top map, ∀ h ∈ host map t,
      (f + 1) * frameSize ≤ h.base ∨ h.base + storageBytes t ≤ f * frameSize

variable {map} {mem : ℕ → BitVec 64}

private theorem mem_foldl_free (nframes f : ℕ) (es : List Region) (F : Finset ℕ) :
    f ∈ (es.map fun e => Mark.free e.base e.length).foldl (Mark.apply 0 nframes) F ↔
      f ∈ F ∨ f < nframes ∧ ∃ e ∈ es, e.base / 4096 ≤ f ∧ f < e.base / 4096 + e.length / 4096 := by
  induction es generalizing F with
  | nil => simp
  | cons e es ih =>
    simp only [List.map_cons, List.foldl_cons, ih, Mark.apply, frameSize, Nat.sub_zero,
      Finset.mem_union, Finset.mem_inter, Finset.mem_Ico, Finset.mem_range, List.mem_cons,
      exists_eq_or_imp]
    tauto

private theorem mem_marks {t : ℕ} {h : Region} (haligned : ∀ e ∈ map, e.usable → e.base % 4096 = 0)
    (ht : top map = some t) (hh : host map t = some h) (f : ℕ) :
    f ∈ (marks map t h).foldl (Mark.apply 0 (t / frameSize)) ∅ ↔ Available map f := by
  obtain ⟨hmem, husable⟩ := List.mem_filter.mp (List.mem_of_find?_eq_some hh)
  have hbase := haligned h hmem husable
  have hregion : (f < t / 4096 ∧ ∃ e ∈ map.filter (·.usable), e.base / 4096 ≤ f ∧
      f < e.base / 4096 + e.length / 4096) ↔
        ∃ e ∈ map, e.usable ∧ e.base ≤ f * 4096 ∧ (f + 1) * 4096 ≤ e.base + e.length := by
    constructor
    · rintro ⟨-, e, he, hlow, hhigh⟩
      obtain ⟨he, hu⟩ := List.mem_filter.mp he
      have := haligned e he hu
      exact ⟨e, he, hu, by omega, by omega⟩
    · rintro ⟨e, he, hu, hlow, hhigh⟩
      have := haligned e he hu
      have hin := List.mem_filter.mpr ⟨he, hu⟩
      have := (List.max?_eq_some_iff.mp ht).2 _ (List.mem_map_of_mem hin)
      exact ⟨by omega, e, hin, by omega, by omega⟩
  simp only [Available, ht, hh, Option.mem_some_iff, forall_eq', marks, List.foldl_append,
    List.foldl_cons, List.foldl_nil]
  split_ifs with hpos
  all_goals
    simp only [List.foldl_cons, List.foldl_nil, Mark.apply, Finset.mem_sdiff, mem_foldl_free,
      Finset.notMem_empty, false_or, frameSize, ← hregion, Finset.mem_Ico, Nat.sub_zero] at hpos ⊢
    clear hregion haligned
    grind

private theorem init_eq_ok {t : ℕ} {h : Region}
    (haligned : ∀ e ∈ map, e.usable → e.base % frameSize = 0) (ht : top map = some t)
    (hh : host map t = some h) :
    ∃ b, init map mem = .ok b ∧ b.Ok ∧ ∀ f, f ∈ b.freeSet ↔ Available map f := by
  obtain ⟨hmem, husable⟩ := List.mem_filter.mp (List.mem_of_find?_eq_some hh)
  have hmarks : ∀ m ∈ marks map t h, m.addr % frameSize = 0 ∧ 0 ≤ m.addr := by
    simp only [marks]
    grind [Mark.addr, frameSize]
  have hlen : FrameBitmap.storageWords (t / frameSize) ≤
      ((List.range (storageBytes t / 8)).map fun i => mem (h.base / 8 + i)).length := by
    simp [storageBytes]
  obtain ⟨b₀, hnew, hok, hbase, hframes, hempty⟩ := FrameBitmap.new_spec hlen (Nat.zero_mod _)
  obtain ⟨b, hrun, hb⟩ := Mark.runAll_spec hok (by rwa [hbase])
  refine ⟨b, ?_, hb.ok, fun f => ?_⟩
  · have hall : (Except.ok b₀ >>= Mark.runAll (marks map t h)) = .ok b := hrun
    simp only [init, ht, hh, hnew, hall]
  · rw [hb.freeSet_eq, hempty, hbase, hframes]
    exact mem_marks haligned ht hh f

private theorem ok_inj {b b₁ b₂ : FrameBitmap} {i j : ℕ}
    {x : Except AllocPanic (Option ℕ × FrameBitmap)} (h₁ : x = .ok (some (b.addrOf i), b₁))
    (h₂ : x = .ok (some (b.addrOf j), b₂)) : i = j ∧ b₁ = b₂ := by
  have h := h₁.symm.trans h₂
  simp only [Except.ok.injEq, Prod.mk.injEq, Option.some.injEq, FrameBitmap.addrOf, frameSize] at h
  exact ⟨by omega, h.2⟩

/-- Frames in use and free frames come from the frames that were free at boot. -/
private theorem step_within {F : Finset ℕ} {l l' : Ledger} (hinv : l.Inv)
    (h : l.bitmap.freeSet ⊆ F ∧ ∀ A ∈ l.live, A ⊆ F) (hs : l.Step l') :
    l'.bitmap.freeSet ⊆ F ∧ ∀ A ∈ l'.live, A ⊆ F := by
  obtain ⟨hfree, hlive⟩ := h
  cases hs with
  | @alloc i b halloc =>
    rcases hinv.sound.alloc with ⟨-, hnone⟩ | ⟨j, b', hsome, hj, hb⟩
    · cases hnone.symm.trans halloc
    · obtain ⟨rfl, rfl⟩ := ok_inj hsome halloc
      rw [List.forall_mem_cons, Finset.singleton_subset_iff]
      exact ⟨hb ▸ (Finset.erase_subset _ _).trans hfree, hfree hj, hlive⟩
  | @allocNone b halloc =>
    rcases hinv.sound.alloc with ⟨-, h⟩ | ⟨j, b', h, -⟩ <;> cases h.symm.trans halloc
    exact ⟨hfree, hlive⟩
  | @contig n align i b halloc =>
    obtain ⟨hn, halign⟩ := FrameBitmap.allocContig_args halloc
    rcases hinv.sound.contig n align hn halign with hnone | ⟨j, b', hsome, hj, hb⟩
    · cases hnone.symm.trans halloc
    · obtain ⟨rfl, rfl⟩ := ok_inj hsome halloc
      rw [List.forall_mem_cons]
      exact ⟨hb ▸ Finset.sdiff_subset.trans hfree, hj.trans hfree, hlive⟩
  | @contigNone n align b halloc =>
    obtain ⟨hn, halign⟩ := FrameBitmap.allocContig_args halloc
    rcases hinv.sound.contig n align hn halign with h | ⟨j, b', h, -⟩ <;>
      cases h.symm.trans halloc
    exact ⟨hfree, hlive⟩
  | @free i n b hheld hgive =>
    obtain ⟨b', hok, hb⟩ := hinv.sound.free i n hheld
    cases hok.symm.trans hgive
    refine ⟨hb ▸ Finset.union_subset hfree fun f hf => ?_, fun A hA => ?_⟩
    · obtain ⟨A, hA, hfA⟩ := hheld f hf
      exact hlive A hA hfA
    · obtain ⟨A', hA', rfl⟩ := List.mem_map.mp hA
      exact Finset.sdiff_subset.trans (hlive A' hA')

private theorem reached_within {b : FrameBitmap} (hok : b.Ok) {l : Ledger}
    (hl : Ledger.Reached b l) :
    l.Inv ∧ l.bitmap.freeSet ⊆ b.freeSet ∧ ∀ A ∈ l.live, A ⊆ b.freeSet := by
  refine Transition.Reaches.invariant (P := fun l => l.Inv ∧ l.bitmap.freeSet ⊆ b.freeSet ∧
    ∀ A ∈ l.live, A ⊆ b.freeSet) ?_ (fun _ _ h hs => ⟨h.1.step hs, step_within h.1 h.2 hs⟩) hl
  rintro _ rfl
  exact ⟨⟨hok, .nil, by simp⟩, Finset.Subset.refl _, by simp⟩

/-- When usable regions start at frames, `init` stops only for want of a region. Otherwise
exactly the available frames are free, and whatever is allocated and given back afterwards,
the allocator keeps its promises and hands out available frames only. -/
theorem boot_hands_out_available (haligned : ∀ e ∈ map, e.usable → e.base % frameSize = 0) :
    (∀ e ∈ map, e.usable = false) ∧ init map mem = .error .noUsable ∨
      (∃ t ∈ top map, ∀ e ∈ map, e.usable → e.length < storageBytes t) ∧
        init map mem = .error .noHost ∨
      ∃ b, init map mem = .ok b ∧ (∀ f, f ∈ b.freeSet ↔ Available map f) ∧
        ∀ l, Ledger.Reached b l → l.Sound ∧ ∀ A ∈ l.live, ∀ f ∈ A, Available map f := by
  cases ht : top map with
  | none =>
    refine .inl ⟨?_, by simp only [init, ht]⟩
    simpa [top, List.max?_eq_none_iff, List.filter_eq_nil_iff] using ht
  | some t =>
    cases hh : host map t with
    | none =>
      refine .inr (.inl ⟨⟨t, rfl, fun e he hu => ?_⟩, by simp only [init, ht, hh]⟩)
      simpa using List.find?_eq_none.mp hh e (List.mem_filter.mpr ⟨he, hu⟩)
    | some h =>
      obtain ⟨b, hb, hok, hfree⟩ := init_eq_ok haligned ht hh
      refine .inr (.inr ⟨b, hb, hfree, fun l hl => ?_⟩)
      obtain ⟨hinv, -, hlive⟩ := reached_within hok hl
      exact ⟨hinv.sound, fun A hA f hf => (hfree f).mp (hlive A hA hf)⟩

/-- Four frames of usable memory behind a hole. -/
def fourFrames : List Region := [⟨0, 8192, false⟩, ⟨8192, 16384, true⟩]

private theorem init_fourFrames : init fourFrames (fun _ => 0) =
    .ok ⟨[0xffffffffffffffc7#64], 0, 6, 0, 3⟩ := rfl

/-- The first of them has the bitmap, so the next one is handed out first. -/
theorem fourFrames_handed_out : ∃ b l, init fourFrames (fun _ => 0) = .ok b ∧
    Ledger.Reached b l ∧ l.live = [{3}] ∧ ∀ A ∈ l.live, ∀ f ∈ A, Available fourFrames f := by
  have haligned : ∀ e ∈ fourFrames, e.usable → e.base % frameSize = 0 := by decide
  have hl : Ledger.Reached ⟨[0xffffffffffffffc7#64], 0, 6, 0, 3⟩
      ⟨⟨[0xffffffffffffffcf#64], 0, 6, 4, 2⟩, [{3}]⟩ :=
    .step (.init rfl) (.alloc rfl)
  rcases boot_hands_out_available haligned with ⟨-, h⟩ | ⟨-, h⟩ | ⟨b, h, -, hlive⟩
  all_goals cases h.symm.trans init_fourFrames
  exact ⟨_, _, h, hl, rfl, (hlive _ hl).2⟩

end Pmm

end Yggdrasil
