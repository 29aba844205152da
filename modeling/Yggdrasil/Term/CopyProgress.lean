import Yggdrasil.Term.EvacuateInv
import Yggdrasil.Term.Value

/-!
# Copies in progress

A copy allocates behind the used part of its heap and writes there only. How many words it
needs is known beforehand, so its outcome is known too: with room for them it succeeds, and
without it stops. New objects stand in a region of their own.
-/

namespace Yggdrasil

open Evac

variable {mem mem' : Mem} {space space' : Set ℕ} {t : Term} {n : ℕ}

/-- The objects of `space` are complete, and clear of the words from `lo` to the end of the
arena, which lies in the address space. -/
structure Store.Apart (st : Store) (lo : ℕ) (space : Set ℕ) : Prop where
  /-- The objects hold only valid terms. -/
  objects : TermSpace st.mem space
  /-- Objects end before `lo` or begin behind the arena. -/
  clear : ∀ a ∈ space, a + sizeAt st.mem a ≤ lo ∨ st.heap.base + st.heap.cap ≤ a
  /-- The words from `lo` on are used or free. -/
  lo_le : lo ≤ next st.heap
  /-- The used part lies in the arena. -/
  top_le : st.heap.top ≤ st.heap.cap
  /-- The arena lies in the address space. -/
  bound : st.heap.base + st.heap.cap ≤ 2 ^ 61

/-- Store `st'` results from `st` by allocating `w` words and writing between `lo` and the new
end of the used part. -/
structure Store.Advanced (st : Store) (lo w : ℕ) (st' : Store) : Prop where
  /-- The used part has grown. -/
  heap : st'.heap = { st.heap with top := st.heap.top + w }
  /-- It still lies in the arena. -/
  fits : st.heap.top + w ≤ st.heap.cap
  /-- Nothing else was written. -/
  frame : ∀ c, c < lo ∨ next st.heap + w ≤ c → st'.mem c = st.mem c

/-- A copy stopped for lack of room: it has written behind `lo` only. -/
structure Store.Stuck (st : Store) (lo : ℕ) (st' : Store) : Prop where
  /-- The arena is where it was. -/
  base : st'.heap.base = st.heap.base
  /-- It has the size it had. -/
  cap : st'.heap.cap = st.heap.cap
  /-- The used part has not shrunk. -/
  top_ge : st.heap.top ≤ st'.heap.top
  /-- The used part lies in the arena. -/
  top_le : st'.heap.top ≤ st'.heap.cap
  /-- Only words from `lo` to the end of the arena were written. -/
  frame : ∀ c, c < lo ∨ st.heap.base + st.heap.cap ≤ c → st'.mem c = st.mem c

/-- The outcome of a computation that needs `w` words: with room for them it returns what `P`
says, and without it stops for lack of room. -/
def Store.Needs {α : Type} (st : Store) (lo w : ℕ) (P : α → Store → Prop)
    (r : EStateM.Result EvacError Store α) : Prop :=
  (st.heap.top + w ≤ st.heap.cap ∧ ∃ a st', r = .ok a st' ∧ P a st') ∨
    (st.heap.cap < st.heap.top + w ∧ ∃ st', r = .error .heapFull st' ∧ st.Stuck lo st')

section Progress

variable {st st₁ st₂ : Store} {lo w w₁ w₂ : ℕ}

/-- Where the used part ends then. -/
theorem Store.Advanced.next (h : st.Advanced lo w st₁) :
    next st₁.heap = Evac.next st.heap + w := by
  rw [h.heap, Evac.next, Evac.next, Nat.add_assoc]

/-- Two advances in a row take the words of both. -/
theorem Store.Advanced.trans (h : st.Advanced lo w₁ st₁) (h' : st₁.Advanced lo w₂ st₂) :
    st.Advanced lo (w₁ + w₂) st₂ where
  heap := by
    rw [h'.heap, h.heap, Nat.add_assoc]
  fits := by
    have hfits := h'.fits
    rw [h.heap] at hfits
    dsimp only at hfits
    omega
  frame c hc := by
    rw [h'.frame c (by rw [h.next]; omega), h.frame c (by omega)]

/-- To advance and then stop is to stop. -/
theorem Store.Advanced.stuck (h : st.Advanced lo w st₁) (h' : st₁.Stuck lo st₂) :
    st.Stuck lo st₂ where
  base := by rw [h'.base, h.heap]
  cap := by rw [h'.cap, h.heap]
  top_ge := by
    have hge := h'.top_ge
    rw [h.heap] at hge
    dsimp only at hge
    omega
  top_le := h'.top_le
  frame c hc := by
    have hheap := h.heap
    have hfits := h.fits
    rw [h'.frame c (by rw [hheap]; exact hc), h.frame c (by rw [Evac.next]; omega)]

/-- A lower bound may be lowered. -/
theorem Store.Advanced.mono {lo' : ℕ} (h : st.Advanced lo w st₁) (hle : lo' ≤ lo) :
    st.Advanced lo' w st₁ :=
  ⟨h.heap, h.fits, fun c hc => h.frame c (by omega)⟩

/-- A lower bound may be lowered. -/
theorem Store.Stuck.mono {lo' : ℕ} (h : st.Stuck lo st₁) (hle : lo' ≤ lo) : st.Stuck lo' st₁ :=
  ⟨h.base, h.cap, h.top_ge, h.top_le, fun c hc => h.frame c (by omega)⟩

/-- One computation after another. -/
theorem Store.Needs.bind {α β : Type} {P : α → Store → Prop} {Q : β → Store → Prop}
    {x : EvacM α} {f : α → EvacM β} (hx : st.Needs lo w₁ P (x st))
    (hP : ∀ a st', P a st' → st.Advanced lo w₁ st')
    (hf : ∀ a st', P a st' → st'.Needs lo w₂ Q (f a st')) :
    st.Needs lo (w₁ + w₂) Q ((x >>= f) st) := by
  rcases hx with ⟨hfits, a, st', hxs, ha⟩ | ⟨hfull, st', hxs, hstuck⟩
  · have hbind : (x >>= f) st = f a st' := by
      change EStateM.bind x f st = f a st'
      rw [EStateM.bind, hxs]
    have hadv := hP a st' ha
    have hheap := hadv.heap
    rw [hbind]
    rcases hf a st' ha with ⟨hfits', b, st'', hfs, hb⟩ | ⟨hfull', st'', hfs, hstuck⟩
    · rw [hheap] at hfits'
      exact .inl ⟨by dsimp only at hfits'; omega, b, st'', hfs, hb⟩
    · rw [hheap] at hfull'
      exact .inr ⟨by dsimp only at hfull'; omega, st'', hfs, hadv.stuck hstuck⟩
  · have hbind : (x >>= f) st = .error .heapFull st' := by
      change EStateM.bind x f st = .error .heapFull st'
      rw [EStateM.bind, hxs]
    exact .inr ⟨by omega, st', hbind, hstuck⟩

/-- Weaken what is known of the result. -/
theorem Store.Needs.imp {α : Type} {P Q : α → Store → Prop}
    {r : EStateM.Result EvacError Store α} (h : st.Needs lo w P r)
    (himp : ∀ a st', P a st' → Q a st') : st.Needs lo w Q r := by
  rcases h with ⟨hfits, a, st', hr, ha⟩ | hstuck
  · exact .inl ⟨hfits, a, st', hr, himp a st' ha⟩
  · exact .inr hstuck

/-- A computation that needs nothing. -/
theorem Store.Needs.pure {α : Type} {P : α → Store → Prop} {a : α}
    (hfits : st.heap.top ≤ st.heap.cap) (h : P a st₁) : st.Needs lo 0 P (.ok a st₁) :=
  .inl ⟨hfits, a, st₁, rfl, h⟩

/-- Return something else. -/
theorem Store.Needs.map {α β : Type} {P : α → Store → Prop} {Q : β → Store → Prop}
    {x : EvacM α} {g : α → β} (h : st.Needs lo w P (x st)) (hg : ∀ a st', P a st' → Q (g a) st') :
    st.Needs lo w Q ((x >>= fun a => Pure.pure (g a)) st) := by
  rcases h with ⟨hfits, a, st', hx, ha⟩ | ⟨hfull, st', hx, hstuck⟩
  · refine .inl ⟨hfits, g a, st', ?_, hg a st' ha⟩
    change EStateM.bind x _ st = _
    rw [EStateM.bind, hx]
    rfl
  · refine .inr ⟨hfull, st', ?_, hstuck⟩
    change EStateM.bind x _ st = _
    rw [EStateM.bind, hx]

/-- Writing to used words first does not matter. -/
theorem Store.Needs.after {α : Type} {P : α → Store → Prop}
    {r : EStateM.Result EvacError Store α} (h : st₁.Needs lo w P r)
    (hadv : st.Advanced lo 0 st₁) : st.Needs lo w P r := by
  have hheap := hadv.heap
  rcases h with ⟨hfits, hok⟩ | ⟨hfull, st', hr, hstuck⟩
  · rw [hheap] at hfits
    exact .inl ⟨hfits, hok⟩
  · rw [hheap] at hfull
    exact .inr ⟨hfull, st', hr, hadv.stuck hstuck⟩

/-- A word of the used part is written. -/
theorem Store.advanced_store {p : ℕ} {word : Word} (hlo : lo ≤ p) (hp : p < next st.heap)
    (htop : st.heap.top ≤ st.heap.cap) :
    st.Advanced lo 0 { st with mem := Function.update st.mem p word } :=
  ⟨rfl, htop, fun c hc => Function.update_of_ne (by omega) _ _⟩

/-- An allocation needs its words. -/
theorem Store.needs_alloc (words : ℕ) (htop : st.heap.top ≤ st.heap.cap) :
    st.Needs lo words (fun p st' => p = next st.heap ∧ st'.mem = st.mem ∧
      st.Advanced lo words st') (Evac.alloc words st) := by
  by_cases hfull : st.heap.top + words > st.heap.cap
  · refine .inr ⟨hfull, st, ?_, ⟨rfl, rfl, Nat.le_refl _, htop, fun c _ => rfl⟩⟩
    simp only [Evac.alloc, Heap.alloc, if_pos hfull]
  · refine .inl ⟨Nat.le_of_not_lt hfull, next st.heap,
      { st with heap.top := st.heap.top + words }, ?_, rfl, rfl,
      ⟨rfl, Nat.le_of_not_lt hfull, fun c _ => rfl⟩⟩
    simp only [Evac.alloc, Heap.alloc, if_neg hfull]
    rfl

/-- The objects are still there afterwards. -/
theorem Store.Apart.advance (h : st.Apart lo space) (hadv : st.Advanced lo w st₁) :
    Agree st.mem st₁.mem space ∧ st₁.Apart lo space := by
  have hfits := hadv.fits
  have hag : Agree st.mem st₁.mem space := by
    intro a ha j hj
    refine hadv.frame _ ?_
    rcases h.clear a ha with hclear | hclear
    · exact .inl (by omega)
    · exact .inr (by rw [Evac.next]; omega)
  refine ⟨hag, h.objects.congr hag, fun a ha => ?_, ?_, ?_, ?_⟩
  · rw [sizeAt, hag.header h.objects ha, hadv.heap]
    exact h.clear a ha
  · rw [hadv.next]
    exact Nat.le_add_right_of_le h.lo_le
  · rw [hadv.heap]
    exact hfits
  · rw [hadv.heap]
    exact h.bound

/-- The bound may be raised to the end of the used part. -/
theorem Store.Apart.raise (h : st.Apart lo space) : st.Apart (next st.heap) space :=
  { h with
    clear := fun a ha => (h.clear a ha).imp_left fun hle => hle.trans h.lo_le
    lo_le := Nat.le_refl _ }

/-- A lower bound may be lowered. -/
theorem Store.Needs.lower {α : Type} {P : α → Store → Prop} {lo' : ℕ}
    {r : EStateM.Result EvacError Store α} (h : st.Needs lo w P r) (hle : lo' ≤ lo) :
    st.Needs lo' w P r := by
  rcases h with hok | ⟨hfull, st', hr, hstuck⟩
  · exact .inl hok
  · exact .inr ⟨hfull, st', hr, hstuck.mono hle⟩

end Progress

/-! ### Regions of new objects -/

/-- The objects of a space are complete and stand between `lo` and `hi`. -/
structure Region (mem : Mem) (lo hi : ℕ) (space : Set ℕ) : Prop where
  /-- They hold only valid terms. -/
  objects : TermSpace mem space
  /-- They stand between the bounds. -/
  within : ∀ a ∈ space, lo ≤ a ∧ a + sizeAt mem a ≤ hi

section Region

variable {lo mid hi : ℕ}

/-- No objects at all fill a region. -/
theorem region_empty : Region mem lo hi ∅ :=
  ⟨⟨⟨fun _ h => h.elim, fun _ h => h.elim⟩, fun _ h => h.elim⟩, fun _ h => h.elim⟩

/-- Objects stay in a region whose bounds are wider. -/
theorem Region.mono {lo' hi' : ℕ} (h : Region mem lo hi space) (hlo : lo' ≤ lo)
    (hhi : hi ≤ hi') : Region mem lo' hi' space :=
  ⟨h.objects, fun a ha => ⟨hlo.trans (h.within a ha).1, (h.within a ha).2.trans hhi⟩⟩

/-- A region depends on the words between its bounds only. -/
theorem Region.congr (h : Region mem lo hi space)
    {m : Mem} (hmem : ∀ c, lo ≤ c → c < hi → m c = mem c) :
    Agree mem m space ∧ Region m lo hi space := by
  have hag : Agree mem m space := by
    intro a ha j hj
    have hwithin := h.within a ha
    exact hmem _ (by omega) (by omega)
  refine ⟨hag, h.objects.congr hag, fun a ha => ?_⟩
  rw [sizeAt, hag.header h.objects ha]
  exact h.within a ha

/-- Two regions, one behind the other. -/
theorem Region.union (h : Region mem lo mid space) (h' : Region mem mid hi space')
    (hlo : lo ≤ mid) (hhi : mid ≤ hi) : Region mem lo hi (space ∪ space') := by
  have hapart : ∀ a ∈ space, ∀ b ∈ space', a + sizeAt mem a ≤ b := fun a ha b hb =>
    (h.within a ha).2.trans (h'.within b hb).1
  refine ⟨h.objects.union h'.objects fun a ha b hb => .inl (hapart a ha b hb), ?_⟩
  rintro a (ha | ha)
  · exact ⟨(h.within a ha).1, (h.within a ha).2.trans hhi⟩
  · exact ⟨hlo.trans (h'.within a ha).1, (h'.within a ha).2⟩

/-- A complete object in front of, or behind, the objects it refers to. -/
theorem Region.insert {p : ℕ} (h : Region mem lo hi space)
    (hkind : (objWords (mem p)).isSome = true)
    (hrefs : ∀ j, IsRef (mem p) j → Term.Valid space ⟨mem (p + j)⟩)
    (hkeys : ∀ j, IsKey (mem p) j →
      Term.isBoxed ⟨mem (p + j)⟩ = false ∧ Term.tag ⟨mem (p + j)⟩ ≠ kindFwd)
    (hlo : lo ≤ p) (hhi : p + sizeAt mem p ≤ hi) (hbound : hi ≤ 2 ^ 61)
    (hapart : ∀ a ∈ space, p + sizeAt mem p ≤ a ∨ a + sizeAt mem a ≤ p) :
    Region mem lo hi (insert p space) := by
  refine ⟨⟨⟨?_, ?_⟩, ?_⟩, ?_⟩
  · rintro a (rfl | ha)
    · exact ⟨hkind, fun j hj hbox => .inr ((hrefs j hj).2 hbox), fun j hj => (hkeys j hj).1,
        hhi.trans hbound⟩
    · have hok := h.objects.ok a ha
      exact ⟨hok.kind, fun j hj hbox => .inr (hok.refs j hj hbox), hok.keys, hok.bound⟩
  · rintro a (rfl | ha) b (rfl | hb) hne
    · exact absurd rfl hne
    · exact hapart b hb
    · exact (hapart a ha).symm
    · exact h.objects.disjoint a ha b hb hne
  · rintro a (rfl | ha) j hj
    · rcases hj with hj | hj
      · exact (hrefs j hj).1
      · exact (hkeys j hj).2
    · exact h.objects.tags a ha j hj
  · rintro a (rfl | ha)
    · exact ⟨hlo, hhi⟩
    · exact h.within a ha

end Region

/-! ### Copying one term, and the fields of an object -/

/-- Term `t'` in `st'` is a copy of `t` in `st`, made of `w` new words. -/
structure Copied (st : Store) (w : ℕ) (t t' : Term) (st' : Store) : Prop where
  /-- The new words are behind the used part. -/
  advanced : st.Advanced (next st.heap) w st'
  /-- The copy says the same. -/
  value : ∀ m, DepthLt st.mem m t → t'.value st'.mem m = t.value st.mem m
  /-- It is made of new objects. -/
  made : ∃ new, Region st'.mem (next st.heap) (next st.heap + w) new ∧ t'.Valid new

/-- A way to copy the terms of a space that have paths shorter than `n`. -/
def Copier (space : Set ℕ) (n : ℕ) (f : Term → EvacM Term) : Prop :=
  ∀ (st : Store) (t : Term), st.Apart (next st.heap) space → t.Valid space →
    DepthLt st.mem n t →
    st.Needs (next st.heap) (treeWords st.mem n t)
      (fun t' st' => Copied st (treeWords st.mem n t) t t' st') (f t st)

/-- The `k` terms from `dst` on in `st'` are copies of those from `src` on in `st`. -/
structure FieldsCopied (st : Store) (lo w src dst k : ℕ) (st' : Store) : Prop where
  /-- The new words are behind the used part. -/
  advanced : st.Advanced lo w st'
  /-- The other words that were used stay. -/
  keep : ∀ c < next st.heap, c < dst ∨ dst + k ≤ c → st'.mem c = st.mem c
  /-- The copies say the same. -/
  value : ∀ i < k, ∀ m, DepthLt st.mem m ⟨st.mem (src + i)⟩ →
    Term.value st'.mem m ⟨st'.mem (dst + i)⟩ = Term.value st.mem m ⟨st.mem (src + i)⟩
  /-- They are made of new objects. -/
  made : ∃ new, Region st'.mem (next st.heap) (next st.heap + w) new ∧
    ∀ i < k, Term.Valid new ⟨st'.mem (dst + i)⟩

/-- The first field, and then the rest. -/
theorem Copy.fields_succ (f : Term → EvacM Term) (src dst k : ℕ) (st : Store) :
    Copy.fields f src dst (k + 1) st = (f ⟨st.mem src⟩ >>= fun c => (do
      Evac.store dst c.word
      Copy.fields f (src + 1) (dst + 1) k : EvacM Unit)) st := rfl

/-- A field is copied and stored, and then the rest. -/
private theorem FieldsCopied.cons {st st₁ st₃ : Store} {lo w₁ w₂ src dst k : ℕ} {c : Term}
    (h : st.Apart lo space) (hlo : lo ≤ dst) (hdst : dst + (k + 1) ≤ next st.heap)
    (hc : Copied st w₁ ⟨st.mem src⟩ c st₁)
    (hag : Agree st.mem (Function.update st₁.mem dst c.word) space)
    (hsrc : ∀ i < k, Function.update st₁.mem dst c.word (src + 1 + i) = st.mem (src + 1 + i))
    (hrest : ∀ i < k, Term.Valid space ⟨st.mem (src + 1 + i)⟩)
    (hdone : FieldsCopied { st₁ with mem := Function.update st₁.mem dst c.word } lo w₂
      (src + 1) (dst + 1) k st₃) :
    FieldsCopied st lo (w₁ + w₂) src dst (k + 1) st₃ := by
  have hnext : next st₁.heap = next st.heap + w₁ := hc.advanced.next
  have hkeep : ∀ c' < next st₁.heap, c' < dst + 1 ∨ dst + 1 + k ≤ c' →
      st₃.mem c' = Function.update st₁.mem dst c.word c' := hdone.keep
  obtain ⟨new₁, hreg₁, hval₁⟩ := hc.made
  obtain ⟨new₂, hreg₂, hval₂⟩ := hdone.made
  -- The first copy is still there.
  obtain ⟨hag₁, hreg₁'⟩ := hreg₁.congr (m := st₃.mem) fun c' hlo' hhi => by
    rw [hkeep c' (by omega) (by omega), Function.update_of_ne (by omega)]
  have hfirst : st₃.mem dst = c.word := by
    rw [hkeep dst (by omega) (by omega), Function.update_self]
  have hstore : st₁.Advanced lo 0 { st₁ with mem := Function.update st₁.mem dst c.word } :=
    Store.advanced_store hlo (by omega)
      (h.advance (hc.advanced.mono h.lo_le)).2.top_le
  refine ⟨((hc.advanced.mono h.lo_le).trans hstore).trans hdone.advanced, ?_, ?_,
    new₁ ∪ new₂, ?_, ?_⟩
  · intro c' hc' hout
    rw [hkeep c' (by omega) (by omega), Function.update_of_ne (by omega),
      hc.advanced.frame c' (.inl hc')]
  · intro i hi m hdepth
    cases i with
    | zero =>
      rw [Nat.add_zero, hfirst]
      exact (hag₁.value hreg₁.objects hval₁).trans (hc.value m hdepth)
    | succ i =>
      have hi : i < k := Nat.lt_of_succ_lt_succ hi
      rw [show src + (i + 1) = src + 1 + i by omega] at hdepth ⊢
      rw [show dst + (i + 1) = dst + 1 + i by omega]
      have hmem := hdone.value i hi m
      dsimp only at hmem
      rw [hsrc i hi] at hmem
      rw [hmem ((hag.depthLt h.objects (hrest i hi)).2 hdepth)]
      exact hag.value h.objects (hrest i hi)
  · have hreg₂' : Region st₃.mem (next st.heap + w₁) (next st.heap + (w₁ + w₂)) new₂ :=
      hreg₂.mono (by rw [← hnext]) (by rw [← Nat.add_assoc, ← hnext])
    exact hreg₁'.union hreg₂' (by omega) (by omega)
  · intro i hi
    cases i with
    | zero =>
      rw [Nat.add_zero, hfirst]
      exact hval₁.mono Set.subset_union_left
    | succ i =>
      rw [show dst + (i + 1) = dst + 1 + i by omega]
      exact (hval₂ i (Nat.lt_of_succ_lt_succ hi)).mono Set.subset_union_right

/-- Copying the parts of an object, from what copying a term does. -/
theorem Copier.fields {f : Term → EvacM Term} (hf : Copier space n f) {lo k src dst : ℕ}
    {st : Store} (h : st.Apart lo space)
    (hcell : ∀ i < k, ∃ a ∈ space, ∃ j < sizeAt st.mem a, src + i = a + j)
    (hterm : ∀ i < k, Term.Valid space ⟨st.mem (src + i)⟩ ∧ DepthLt st.mem n ⟨st.mem (src + i)⟩)
    (hlo : lo ≤ dst) (hdst : dst + k ≤ next st.heap) :
    st.Needs lo (∑ i ∈ Finset.range k, treeWords st.mem n ⟨st.mem (src + i)⟩)
      (fun _ st' => FieldsCopied st lo
        (∑ i ∈ Finset.range k, treeWords st.mem n ⟨st.mem (src + i)⟩) src dst k st')
      (Copy.fields f src dst k st) := by
  induction k generalizing src dst st with
  | zero =>
    refine .pure h.top_le
      ⟨⟨rfl, h.top_le, fun c _ => rfl⟩, fun c _ _ => rfl, ?_, ∅, region_empty, ?_⟩
    · intro i hi
      omega
    · intro i hi
      omega
  | succ k ih =>
    have hsum : ∑ i ∈ Finset.range (k + 1), treeWords st.mem n ⟨st.mem (src + i)⟩ =
        treeWords st.mem n ⟨st.mem src⟩ +
          ∑ i ∈ Finset.range k, treeWords st.mem n ⟨st.mem (src + 1 + i)⟩ := by
      rw [Finset.sum_range_succ', Nat.add_comm]
      simp only [Nat.add_zero, Nat.add_assoc, Nat.add_comm 1]
    obtain ⟨hvalid, hdepth⟩ := hterm 0 (Nat.succ_pos k)
    rw [Copy.fields_succ, hsum]
    refine ((hf st _ h.raise hvalid hdepth).lower h.lo_le).bind
      (fun c st₁ hc => hc.advanced.mono h.lo_le) fun c st₁ hc => ?_
    have hadv₁ := hc.advanced.mono h.lo_le
    have htop₁ := hc.advanced.next
    have hstore : st₁.Advanced lo 0 { st₁ with mem := Function.update st₁.mem dst c.word } :=
      Store.advanced_store hlo (by omega) (h.advance hadv₁).2.top_le
    set st₂ : Store := { st₁ with mem := Function.update st₁.mem dst c.word } with hst₂
    have hadv₂ := hadv₁.trans hstore
    obtain ⟨hag, hapart⟩ := h.advance hadv₂
    -- The source is still there.
    have hsrc : ∀ i < k, st₂.mem (src + 1 + i) = st.mem (src + 1 + i) := by
      intro i hi
      obtain ⟨a, ha, j, hj, heq⟩ := hcell (i + 1) (Nat.succ_lt_succ hi)
      rw [show src + 1 + i = a + j by omega]
      exact hag a ha j hj
    have hrest : ∀ i < k, Term.Valid space ⟨st.mem (src + 1 + i)⟩ ∧
        DepthLt st.mem n ⟨st.mem (src + 1 + i)⟩ := by
      intro i hi
      rw [show src + 1 + i = src + (i + 1) by omega]
      exact hterm (i + 1) (Nat.succ_lt_succ hi)
    have hwords : ∑ i ∈ Finset.range k, treeWords st₂.mem n ⟨st₂.mem (src + 1 + i)⟩ =
        ∑ i ∈ Finset.range k, treeWords st.mem n ⟨st.mem (src + 1 + i)⟩ := by
      refine Finset.sum_congr rfl fun i hi => ?_
      have hi := Finset.mem_range.1 hi
      rw [hsrc i hi]
      exact hag.treeWords h.objects (hrest i hi).1
    have hnext : next st₂.heap = next st₁.heap := rfl
    have hstep := @ih (src + 1) (dst + 1) st₂ hapart
      (fun i hi => by
        obtain ⟨a, ha, j, hj, heq⟩ := hcell (i + 1) (Nat.succ_lt_succ hi)
        refine ⟨a, ha, j, ?_, by omega⟩
        rwa [sizeAt, hag.header h.objects ha])
      (fun i hi => by
        rw [hsrc i hi]
        exact ⟨(hrest i hi).1, (hag.depthLt h.objects (hrest i hi).1).2 (hrest i hi).2⟩)
      (by omega) (by omega)
    rw [hwords] at hstep
    refine (hstep.after hstore).imp fun _ st₃ hdone => ?_
    exact .cons h hlo hdst hc hag hsrc (fun i hi => (hrest i hi).1) hdone

end Yggdrasil
