import Yggdrasil.Alloc.Bitmap
import Yggdrasil.Proc.Heap
import Mathlib.Data.Multiset.Filter

/-!
# Frames in custody

The frames an allocator has given out are held as spans of frames, named by the word at
which the direct map shows their first frame. Every frame of the allocator is free, set
aside, or covered by exactly one of the spans held, and the history of each frame agrees:
it was taken once more often than it was given back exactly when it is held now.
-/

namespace Yggdrasil

/-- The span begins at or before frame `f` of an allocator at `base` and ends behind it. -/
def Span.Covers (base : ℕ) (sp : Span) (f : ℕ) : Prop :=
  sp.base ≤ base / 8 + 512 * f ∧ base / 8 + 512 * f < sp.base + 512 * sp.pages

instance (base : ℕ) (sp : Span) (f : ℕ) : Decidable (sp.Covers base f) :=
  inferInstanceAs (Decidable (_ ∧ _))

/-- The span of `n` frames at a physical address. -/
def Span.at (addr n : ℕ) : Span := ⟨addr / 8, n⟩

/-- The frames of a span, one by one. -/
def Span.split (sp : Span) : List Span := (List.range sp.pages).map fun k => ⟨sp.base + 512 * k, 1⟩

/-- The span is made of whole frames of the allocator. -/
def Span.Placed (b : FrameBitmap) (sp : Span) : Prop :=
  0 < sp.pages ∧ ∃ i, sp.base = b.addrOf i / 8

/-- The number of spans that cover a frame. -/
def cover (base : ℕ) (held : Multiset Span) (f : ℕ) : ℕ := held.countP (Span.Covers base · f)

/-- One for the members of a set. -/
def member (F : Finset ℕ) (f : ℕ) : ℕ := if f ∈ F then 1 else 0

/-- Frames given out and given back since boot, each by its number of times. -/
structure Uses where
  /-- How often a frame was taken. -/
  taken : ℕ → ℕ
  /-- How often it was given back. -/
  freed : ℕ → ℕ

/-- No frame was taken. -/
def Uses.none : Uses := ⟨fun _ => 0, fun _ => 0⟩

/-- The frames of a span are taken. -/
def Uses.take (base : ℕ) (sp : Span) (u : Uses) : Uses :=
  { u with taken := fun f => u.taken f + cover base {sp} f }

/-- The frames of a span are given back. -/
def Uses.give (base : ℕ) (sp : Span) (u : Uses) : Uses :=
  { u with freed := fun f => u.freed f + cover base {sp} f }

/-- Of the frames free at boot, the spans `held` hold all those that are neither free nor set
aside. -/
structure Custody (boot b : FrameBitmap) (aside : Multiset ℕ) (held : Multiset Span)
    (uses : Uses) : Prop where
  /-- The bitmap is in order. -/
  ok : b.Ok
  /-- It begins where it began. -/
  base_eq : b.base = boot.base
  /-- It tracks the frames it tracked. -/
  nframes_eq : b.nframes = boot.nframes
  /-- The spans are made of its frames. -/
  placed : ∀ sp ∈ held, sp.Placed boot
  /-- Every frame that was free is free, set aside or covered once; the others never are. -/
  law : ∀ f, member b.freeSet f + aside.count f + cover boot.base held f =
    member boot.freeSet f
  /-- A frame is covered as often as it was taken and not given back. -/
  history : ∀ f, uses.taken f = uses.freed f + cover boot.base held f
  /-- The number of frames is constant. -/
  count : b.free + aside.card + (held.map Span.pages).sum = boot.free

variable {boot b b' : FrameBitmap} {aside : Multiset ℕ} {held : Multiset Span} {uses : Uses}
  {sp sp' : Span} {f i n : ℕ}

/-- Nothing covers no frame. -/
@[simp] theorem cover_zero : cover b.base 0 f = 0 := rfl

/-- One more span covers its frames once more. -/
@[simp] theorem cover_cons :
    cover b.base (sp ::ₘ held) f = cover b.base held f + cover b.base {sp} f := by
  simp only [cover, Multiset.countP_cons, ← Multiset.cons_zero, Multiset.countP_zero, Nat.zero_add]

/-- A span covers its frames once. -/
theorem cover_singleton : cover b.base {sp} f = if sp.Covers b.base f then 1 else 0 := by
  simp only [cover, ← Multiset.cons_zero, Multiset.countP_cons, Multiset.countP_zero, Nat.zero_add]

/-- Spans together cover what each covers. -/
theorem cover_add {held' : Multiset Span} :
    cover b.base (held + held') f = cover b.base held f + cover b.base held' f :=
  Multiset.countP_add ..

private theorem addrOf_div (hok : b.Ok) : b.addrOf i / 8 = b.base / 8 + 512 * i := by
  have haligned := hok.aligned
  simp only [FrameBitmap.addrOf, frameSize] at haligned ⊢
  omega

private theorem addrOf_mul (hok : b.Ok) : 8 * (b.addrOf i / 8) = b.addrOf i := by
  have haligned := hok.aligned
  simp only [FrameBitmap.addrOf, frameSize] at haligned ⊢
  omega

/-- The frames that a span made of whole frames covers. -/
private theorem cover_placed (hok : b.Ok) (hbase : sp.base = b.addrOf i / 8) :
    cover b.base {sp} f = member (Finset.Ico i (i + sp.pages)) f := by
  have hiff : sp.Covers b.base f ↔ f ∈ Finset.Ico i (i + sp.pages) := by
    rw [Span.Covers, hbase, addrOf_div hok, Finset.mem_Ico]
    omega
  rw [cover_singleton, member]
  simp only [hiff]

private theorem cover_split : cover b.base (sp.split : Multiset Span) f = cover b.base {sp} f := by
  obtain ⟨base, pages⟩ := sp
  induction pages with
  | zero =>
    rw [cover_singleton, if_neg fun hcovers => by simp only [Span.Covers] at hcovers; omega]
    rfl
  | succ n ih =>
    have hsplit : (Span.split ⟨base, n + 1⟩ : Multiset Span) =
        ⟨base + 512 * n, 1⟩ ::ₘ (Span.split ⟨base, n⟩ : Multiset Span) := by
      rw [Span.split, List.range_succ, List.map_append, ← Multiset.coe_add, add_comm]
      rfl
    rw [hsplit, cover_cons, ih, cover_singleton, cover_singleton, cover_singleton]
    by_cases hlow : Span.Covers b.base ⟨base, n⟩ f
    · have hnot : ¬ Span.Covers b.base ⟨base + 512 * n, 1⟩ f := by
        simp only [Span.Covers] at hlow ⊢
        omega
      have hall : Span.Covers b.base ⟨base, n + 1⟩ f := by
        simp only [Span.Covers] at hlow ⊢
        omega
      rw [if_pos hlow, if_neg hnot, if_pos hall]
    · have hiff :
          Span.Covers b.base ⟨base + 512 * n, 1⟩ f ↔ Span.Covers b.base ⟨base, n + 1⟩ f := by
        simp only [Span.Covers] at hlow ⊢
        omega
      simp only [if_neg hlow, hiff, Nat.zero_add]

private theorem pages_split : ((sp.split : Multiset Span).map Span.pages).sum = sp.pages := by
  simp [Span.split, Function.comp_def]

private theorem member_sdiff {F G : Finset ℕ} (h : G ⊆ F) :
    member (F \ G) f + member G f = member F f := by
  by_cases hG : f ∈ G
  · simp [member, hG, h hG]
  · simp [member, hG]

private theorem member_union {F G : Finset ℕ} (h : Disjoint F G) :
    member (F ∪ G) f = member F f + member G f := by
  by_cases hG : f ∈ G
  · simp [member, hG, Finset.disjoint_right.1 h hG]
  · simp [member, hG]

namespace Custody

/-- The frames are those of boot. -/
private theorem addrOf_eq (h : Custody boot b aside held uses) : b.addrOf i = boot.addrOf i := by
  rw [FrameBitmap.addrOf, FrameBitmap.addrOf, h.base_eq]

private theorem cover_eq (h : Custody boot b aside held uses)
    (hbase : sp.base = boot.addrOf i / 8) :
    cover boot.base {sp} f = member (Finset.Ico i (i + sp.pages)) f := by
  rw [← h.addrOf_eq] at hbase
  rw [← h.base_eq, cover_placed h.ok hbase]

/-- Only the spans held matter, not their order or their owners. -/
theorem congr (h : Custody boot b aside held uses) {held' : Multiset Span} (heq : held' = held) :
    Custody boot b aside held' uses := heq ▸ h

/-- A successful `alloc_contig` adds a span. -/
theorem take (h : Custody boot b aside held uses) (hn : 0 < n) {addr : ℕ}
    (halloc : b.allocContig n 1 = .ok (some addr, b')) :
    Custody boot b' aside (Span.at addr n ::ₘ held) (uses.take boot.base (Span.at addr n)) := by
  have halign : 1 = 2 ^ Nat.log2 1 := rfl
  rcases h.ok.allocContig_spec hn halign with hnone | ⟨j, b₁, hsome, hsub, -, hb₁⟩
  · rw [hnone] at halloc
    cases halloc
  rw [hsome] at halloc
  cases halloc
  have hplace : (Span.at (b.addrOf j) n).base = boot.addrOf j / 8 := by rw [h.addrOf_eq]; rfl
  have hcover : ∀ f, cover boot.base {Span.at (b.addrOf j) n} f =
      member (Finset.Ico j (j + n)) f := fun f => h.cover_eq hplace
  refine ⟨hb₁.ok, hb₁.base_eq.trans h.base_eq, hb₁.nframes_eq.trans h.nframes_eq, ?_, ?_, ?_, ?_⟩
  · intro sp hsp
    rcases Multiset.mem_cons.1 hsp with rfl | hsp
    · exact ⟨hn, j, hplace⟩
    · exact h.placed sp hsp
  · intro f
    have hlaw := h.law f
    have hdiff := member_sdiff hsub (f := f)
    rw [hb₁.freeSet_eq, cover_cons, hcover]
    omega
  · intro f
    have hhistory := h.history f
    rw [cover_cons]
    dsimp only [Uses.take]
    omega
  · have hcount := h.count
    have hcard := Finset.card_sdiff_add_card_eq_card hsub
    have hfree := h.ok.free_eq
    rw [hb₁.ok.free_eq, hb₁.freeSet_eq, Multiset.map_cons, Multiset.sum_cons]
    rw [Nat.card_Ico] at hcard
    dsimp only [Span.at]
    omega

/-- The spans held can be given back. -/
theorem give (h : Custody boot b aside (sp ::ₘ held) uses) :
    ∃ b', b.freeFrames (8 * sp.base) sp.pages = .ok b' ∧
      Custody boot b' aside held (uses.give boot.base sp) := by
  obtain ⟨hpages, i, hbase⟩ := h.placed sp (Multiset.mem_cons_self sp held)
  have hcover : ∀ f, cover boot.base {sp} f = member (Finset.Ico i (i + sp.pages)) f :=
    fun f => h.cover_eq hbase
  -- A covered frame was free at boot, so it is tracked, and it is not free now.
  have hused : ∀ f ∈ Finset.Ico i (i + sp.pages), f ∈ boot.freeSet ∧ f ∉ b.freeSet := by
    intro f hf
    have hlaw := h.law f
    rw [cover_cons, hcover, member, member, member, if_pos hf] at hlaw
    constructor
    · by_contra hnot
      rw [if_neg hnot] at hlaw
      omega
    · intro hfree
      rw [if_pos hfree] at hlaw
      split at hlaw <;> omega
  have hdisj : Disjoint b.freeSet (Finset.Ico i (i + sp.pages)) :=
    Finset.disjoint_right.2 fun f hf => (hused f hf).2
  have hrange : i + sp.pages ≤ b.nframes := by
    have hlast := (hused (i + sp.pages - 1) (Finset.mem_Ico.2 ⟨by omega, by omega⟩)).1
    have hlt := (FrameBitmap.mem_freeSet.1 hlast).1
    rw [h.nframes_eq]
    omega
  obtain ⟨b', hfree, hb'⟩ := h.ok.freeFrames_spec hrange hdisj
  refine ⟨b', ?_, hb'.ok, hb'.base_eq.trans h.base_eq, hb'.nframes_eq.trans h.nframes_eq,
    fun sp' hsp' => h.placed sp' (Multiset.mem_cons_of_mem hsp'), fun f => ?_, fun f => ?_, ?_⟩
  · rw [hbase, ← h.addrOf_eq, addrOf_mul h.ok]
    exact hfree
  · have hlaw := h.law f
    rw [cover_cons, hcover] at hlaw
    rw [hb'.freeSet_eq, member_union hdisj]
    omega
  · have hhistory := h.history f
    rw [cover_cons] at hhistory
    dsimp only [Uses.give]
    omega
  · have hcount := h.count
    rw [Multiset.map_cons, Multiset.sum_cons, h.ok.free_eq] at hcount
    rw [hb'.ok.free_eq, hb'.freeSet_eq, Finset.card_union_of_disjoint hdisj, Nat.card_Ico]
    omega

/-- A frame is set aside. -/
theorem setAside (h : Custody boot b aside held uses)
    (halloc : b.alloc = .ok (some (b.addrOf i), b')) :
    Custody boot b' (i ::ₘ aside) held uses := by
  rcases h.ok.alloc_spec with ⟨-, hnone⟩ | ⟨j, b₁, hsome, hj, hb₁⟩
  · rw [hnone] at halloc
    cases halloc
  have hij : j = i := by
    have haddr : b.addrOf j = b.addrOf i := by
      rw [hsome] at halloc
      exact Option.some.inj (congrArg Prod.fst (Except.ok.inj halloc))
    simp only [FrameBitmap.addrOf, frameSize] at haddr
    omega
  subst hij
  rw [hsome] at halloc
  cases halloc
  refine ⟨hb₁.ok, hb₁.base_eq.trans h.base_eq, hb₁.nframes_eq.trans h.nframes_eq, h.placed, ?_,
    h.history, ?_⟩
  · intro f
    have hlaw := h.law f
    rw [hb₁.freeSet_eq, Multiset.count_cons, ← hlaw]
    by_cases hf : f = j
    · subst hf
      simp only [member, Finset.mem_erase, ne_eq, not_true_eq_false, false_and, if_false, hj,
        if_true]
      omega
    · simp only [member, Finset.mem_erase, ne_eq, hf, not_false_eq_true, true_and, if_false,
        Nat.add_zero]
  · have hcount := h.count
    have hcard := Finset.card_erase_add_one hj
    have hfree := h.ok.free_eq
    rw [hb₁.ok.free_eq, hb₁.freeSet_eq, Multiset.card_cons]
    omega

/-- A span may be held frame by frame. -/
theorem split (h : Custody boot b aside (sp ::ₘ held) uses) :
    Custody boot b aside (sp.split + held) uses := by
  obtain ⟨-, i, hbase⟩ := h.placed sp (Multiset.mem_cons_self sp held)
  refine ⟨h.ok, h.base_eq, h.nframes_eq, fun sp' hsp' => ?_, fun f => ?_, fun f => ?_, ?_⟩
  · rcases Multiset.mem_add.1 hsp' with hsp' | hsp'
    · obtain ⟨k, -, rfl⟩ := List.mem_map.1 (Multiset.mem_coe.1 hsp')
      have hdiv := addrOf_div h.ok (i := i)
      have hdiv' := addrOf_div h.ok (i := i + k)
      refine ⟨Nat.one_pos, i + k, ?_⟩
      dsimp only
      rw [hbase, ← h.addrOf_eq, ← h.addrOf_eq, hdiv, hdiv', Nat.mul_add, Nat.add_assoc]
    · exact h.placed sp' (Multiset.mem_cons_of_mem hsp')
  · have hlaw := h.law f
    rw [cover_cons] at hlaw
    rw [cover_add, cover_split]
    omega
  · have hhistory := h.history f
    rw [cover_cons] at hhistory
    rw [cover_add, cover_split]
    omega
  · have hcount := h.count
    rw [Multiset.map_cons, Multiset.sum_cons] at hcount
    rw [Multiset.map_add, Multiset.sum_add, pages_split, hcount]

/-- Every frame is covered at most once. -/
theorem cover_le_one (h : Custody boot b aside held uses) (f : ℕ) : cover boot.base held f ≤ 1 := by
  have hlaw := h.law f
  simp only [member] at hlaw
  split at hlaw <;> split at hlaw <;> omega

/-- Two of the spans held share no word. -/
theorem disjoint (h : Custody boot b aside (sp ::ₘ sp' ::ₘ held) uses) : sp.Disjoint sp' := by
  obtain ⟨hpages, i, hbase⟩ := h.placed sp (Multiset.mem_cons_self sp _)
  obtain ⟨hpages', j, hbase'⟩ :=
    h.placed sp' (Multiset.mem_cons_of_mem (Multiset.mem_cons_self sp' _))
  have hle := h.cover_le_one (max i j)
  rw [cover_cons, cover_cons, h.cover_eq hbase, h.cover_eq hbase'] at hle
  simp only [member, Finset.mem_Ico] at hle
  rw [← h.addrOf_eq, addrOf_div h.ok] at hbase hbase'
  rw [Span.Disjoint, hbase, hbase']
  by_contra hmeet
  rw [if_pos (by omega : i ≤ max i j ∧ max i j < i + sp.pages),
    if_pos (by omega : j ≤ max i j ∧ max i j < j + sp'.pages)] at hle
  omega

end Custody

end Yggdrasil
