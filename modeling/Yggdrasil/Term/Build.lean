import Yggdrasil.Lib.Outcome
import Yggdrasil.Term.Valid

/-!
# Building valid terms

A store holds a space when the objects stand clear of the free part of the bump
arena. Every builder writes to the free part only and adds complete objects to the
space; when it runs out of room halfway, the objects it has finished stay behind.
-/

namespace Yggdrasil

/-- The objects of `space` are complete and stand clear of the free part of the
arena, which lies in the address space. -/
structure Store.Holds (st : Store) (space : Set ℕ) : Prop where
  /-- The objects hold only valid terms. -/
  objects : TermSpace st.mem space
  /-- Objects end before the free part or begin behind it. -/
  clear : ∀ a ∈ space, a + sizeAt st.mem a ≤ st.heap.base + st.heap.top ∨
    st.heap.base + st.heap.cap ≤ a
  /-- The used part lies in the arena. -/
  top_le : st.heap.top ≤ st.heap.cap
  /-- The arena lies in the address space. -/
  bound : st.heap.base + st.heap.cap ≤ 2 ^ 61
  /-- Byte lengths of objects in the arena fit a header. -/
  cap_lt : st.heap.cap < 2 ^ 58

/-- Store `st'` with `space'` results from `st` with `space` by allocation. -/
structure Store.Grows (st st' : Store) (space space' : Set ℕ) : Prop where
  /-- The arena stays where it is. -/
  base_eq : st'.heap.base = st.heap.base
  /-- The arena keeps its size. -/
  cap_eq : st'.heap.cap = st.heap.cap
  /-- The used part grows. -/
  top_le : st.heap.top ≤ st'.heap.top
  /-- Only the free part is written. -/
  frame : ∀ c, c < st.heap.base + st.heap.top ∨ st.heap.base + st.heap.cap ≤ c →
    st'.mem c = st.mem c
  /-- Objects are added. -/
  sub : space ⊆ space'
  /-- New objects stand in the free part. -/
  fresh : ∀ a ∈ space', a ∉ space → st.heap.base + st.heap.top ≤ a ∧
    a + sizeAt st'.mem a ≤ st.heap.base + st.heap.cap
  /-- The new store holds the new space. -/
  holds : st'.Holds space'

namespace Store

variable {st st' st'' : Store} {space space' space'' : Set ℕ}

/-- Nothing is allocated. -/
theorem Grows.refl (h : st.Holds space) : st.Grows st space space :=
  ⟨rfl, rfl, Nat.le_refl _, fun _ _ => rfl, subset_rfl, fun _ ha hna => absurd ha hna, h⟩

/-- The words of an object are outside the free part. -/
theorem Holds.outside (h : st.Holds space) {a j : ℕ} (ha : a ∈ space)
    (hj : j < sizeAt st.mem a) :
    a + j < st.heap.base + st.heap.top ∨ st.heap.base + st.heap.cap ≤ a + j := by
  rcases h.clear a ha with hclear | hclear
  · exact .inl (by omega)
  · exact .inr (by omega)

/-- Objects keep their size. -/
theorem Grows.sizeAt_eq (h : st.Grows st' space space') (hst : st.Holds space) {a : ℕ}
    (ha : a ∈ space) : sizeAt st'.mem a = sizeAt st.mem a := by
  have hpos := sizeAt_pos (hst.objects.ok a ha).kind
  have hhead := h.frame _ (hst.outside ha hpos)
  rw [sizeAt, sizeAt]
  rw [Nat.add_zero] at hhead
  rw [hhead]

/-- One allocation after the other. -/
theorem Grows.trans (h : st.Grows st' space space') (h' : st'.Grows st'' space' space'') :
    st.Grows st'' space space'' := by
  have hbase := h.base_eq
  have hcap := h.cap_eq
  have htop := h.top_le
  refine ⟨h'.base_eq.trans hbase, h'.cap_eq.trans hcap, htop.trans h'.top_le, fun c hc => ?_,
    h.sub.trans h'.sub, fun a ha hna => ?_, h'.holds⟩
  · rw [h'.frame c (by omega), h.frame c hc]
  · by_cases hmid : a ∈ space'
    · rw [h'.sizeAt_eq h.holds hmid]
      exact h.fresh a hmid hna
    · have hfresh := h'.fresh a ha hmid
      omega

/-- Add an object: reserve its words at the end of the used part and write them. -/
theorem Holds.add (h : st.Holds space) {n : ℕ} (hn : st.heap.top + n ≤ st.heap.cap) {mem' : Mem}
    (hmem : ∀ c, c < st.heap.base + st.heap.top ∨ st.heap.base + (st.heap.top + n) ≤ c →
      mem' c = st.mem c)
    (hsize : objWords (mem' (st.heap.base + st.heap.top)) = some n)
    (hrefs : ∀ j, IsRef (mem' (st.heap.base + st.heap.top)) j →
      Term.Valid space ⟨mem' (st.heap.base + st.heap.top + j)⟩)
    (hkeys : ∀ j, IsKey (mem' (st.heap.base + st.heap.top)) j →
      Term.isBoxed ⟨mem' (st.heap.base + st.heap.top + j)⟩ = false ∧
        Term.Valid space ⟨mem' (st.heap.base + st.heap.top + j)⟩) :
    st.Grows ⟨mem', { st.heap with top := st.heap.top + n }⟩ space
      (insert (st.heap.base + st.heap.top) space) := by
  have hbound := h.bound
  set p := st.heap.base + st.heap.top with hp
  have hsizeAt : sizeAt mem' p = n := by rw [sizeAt, hsize, Option.getD_some]
  have hpos : 0 < sizeAt mem' p := sizeAt_pos (by rw [hsize]; rfl)
  have hold : ∀ a ∈ space, ∀ j < sizeAt st.mem a, mem' (a + j) = st.mem (a + j) := by
    intro a ha j hj
    have hout := h.outside ha hj
    exact hmem _ (by omega)
  have hspace := h.objects.congr hold
  have hsame : ∀ a ∈ space, sizeAt mem' a = sizeAt st.mem a := by
    intro a ha
    have hhead := hold a ha 0 (sizeAt_pos (h.objects.ok a ha).kind)
    rw [sizeAt, sizeAt, ← Nat.add_zero a, hhead]
  have hapart : ∀ a ∈ space, a + sizeAt mem' a ≤ p ∨ p + sizeAt mem' p ≤ a := by
    intro a ha
    rw [hsame a ha, hsizeAt]
    rcases h.clear a ha with hclear | hclear
    · exact .inl hclear
    · exact .inr (by omega)
  refine ⟨rfl, rfl, by simp, fun c hc => hmem c (by omega), Set.subset_insert _ _,
    fun a ha hna => ?_, ⟨⟨⟨?_, ?_⟩, ?_⟩, ?_, hn, hbound, h.cap_lt⟩⟩
  · rcases ha with rfl | ha
    · dsimp only
      omega
    · exact absurd ha hna
  · rintro a (rfl | ha)
    · refine ⟨by dsimp only; rw [hsize]; rfl, fun j hj => ?_, fun j hj => (hkeys j hj).1, ?_⟩
      · exact fun hboxed => .inr ((hrefs j hj).2 hboxed)
      · dsimp only
        omega
    · have hok := hspace.ok a ha
      exact ⟨hok.kind, fun j hj hboxed => .inr (hok.refs j hj hboxed), hok.keys, hok.bound⟩
  · rintro a (rfl | ha) b (rfl | hb) hne
    · exact absurd rfl hne
    · exact (hapart b hb).symm
    · exact hapart a ha
    · exact hspace.disjoint a ha b hb hne
  · rintro a (rfl | ha) j hj
    · rcases hj with hj | hj
      · exact (hrefs j hj).1
      · exact (hkeys j hj).2.1
    · exact hspace.tags a ha j hj
  · rintro a (rfl | ha)
    · exact .inl (by dsimp only; omega)
    · dsimp only
      rw [hsame a ha]
      rcases h.clear a ha with hclear | hclear
      · exact .inl (by omega)
      · exact .inr hclear

end Store

/-- A store after building something with the terms of `space`: what was built, if
it was, is valid. -/
def Built (st : Store) (space : Set ℕ) (t : Option Term) (st' : Store) : Prop :=
  ∃ space', st.Grows st' space space' ∧ ∀ v ∈ t, v.Valid space'

/-- The builder turns stores that hold `space` into stores that hold more, whether
it succeeds or runs out of room. -/
def Builds (space : Set ℕ) (f : HeapM Term) : Prop :=
  ∀ st : Store, st.Holds space →
    EStateM.Ends (fun _ st' => Built st space none st')
      (fun t st' => Built st space (some t) st') f st

section Header

variable {n : ℕ}

private theorem toNat_headerWord {kind : Word} (hn : n < 2 ^ 61) (hkind : kind.toNat < 8) :
    (Heap.headerWord n kind).toNat = 8 * n + kind.toNat := by
  rw [Heap.headerWord, BitVec.toNat_or, BitVec.toNat_shiftLeft, BitVec.toNat_ofNat,
    Nat.mod_eq_of_lt (show n < 2 ^ 64 by omega), Nat.mod_eq_of_lt (by rw [Nat.shiftLeft_eq]; omega),
    ← Nat.shiftLeft_add_eq_or_of_lt (show kind.toNat < 2 ^ 3 by omega), Nat.shiftLeft_eq]
  omega

/-- The arity of a header is read back. -/
theorem headerArity_headerWord {kind : Word} (hn : n < 2 ^ 61) (hkind : kind.toNat < 8) :
    headerArity (Heap.headerWord n kind) = n := by
  rw [headerArity, BitVec.toNat_ushiftRight, toNat_headerWord hn hkind, Nat.shiftRight_eq_div_pow]
  omega

private theorem headerWord_and {kind : Word} (hkind : kind &&& tagMask = kind) :
    Heap.headerWord n kind &&& tagMask = kind :=
  Term.tag_shift _ _ hkind

/-- The header of a tuple. -/
theorem boxKind_tuple : boxKind (Heap.headerWord n kindTuple) = some .tuple := by
  rw [boxKind, headerWord_and (by decide), if_pos rfl]

/-- The header of a binary. -/
theorem boxKind_binary : boxKind (Heap.headerWord n kindBinary) = some .binary := by
  rw [boxKind, headerWord_and (by decide)]
  decide

/-- The header of a map says that it is one. -/
theorem boxKind_map : boxKind (Heap.headerWord n kindMap) = some .map := by
  rw [boxKind, headerWord_and (by decide)]
  decide

/-- The header of a list cell. -/
theorem boxKind_cons : boxKind kindCons = some .cons := by decide

end Header

section Builders

variable {space space' : Set ℕ}

/-- Words outside a written block stay. -/
theorem writeWords_outside {mem : Mem} {p c : ℕ} {ws : List Word}
    (h : c < p ∨ p + ws.length ≤ c) : writeWords mem p ws c = mem c := by
  rw [writeWords_apply]
  split
  · rw [List.getElem?_eq_none (by omega), Option.getD_none]
  · rfl

/-- Words of a written block are read back. -/
theorem writeWords_inside (mem : Mem) (p : ℕ) {ws : List Word} {j : ℕ} {w : Word}
    (h : ws[j]? = some w) : writeWords mem p ws (p + j) = w := by
  rw [writeWords_apply, if_pos (by omega), show p + j - p = j by omega, h, Option.getD_some]

/-- The first word of a written block is read back. -/
theorem writeWords_head (mem : Mem) (p : ℕ) (w : Word) (ws : List Word) :
    writeWords mem p (w :: ws) p = w :=
  writeWords_inside mem p (List.getElem?_cons_zero)

/-- Write a whole object of words at the end of the used part. -/
private theorem built_of_words {st : Store} (hst : st.Holds space) {n : ℕ}
    (hn : st.heap.top + n ≤ st.heap.cap) {header : Word} {ws : List Word}
    (hlen : 1 + ws.length = n) (hsize : objWords header = some n)
    (hrefs : ∀ j w, IsRef header (j + 1) → ws[j]? = some w → Term.Valid space ⟨w⟩)
    (hkeys : ∀ j w, IsKey header (j + 1) → ws[j]? = some w →
      Term.isBoxed ⟨w⟩ = false ∧ Term.Valid space ⟨w⟩) :
    Built st space (some (Term.ofAddr (st.heap.base + st.heap.top)))
      ⟨writeWords st.mem (st.heap.base + st.heap.top) (header :: ws),
        { st.heap with top := st.heap.top + n }⟩ := by
  have hbound := hst.bound
  have hheader : writeWords st.mem (st.heap.base + st.heap.top) (header :: ws)
      (st.heap.base + st.heap.top) = header := writeWords_head _ _ _ _
  have hsizeAt : sizeAt (fun _ => header) 0 = n := by rw [sizeAt, hsize, Option.getD_some]
  have hcell : ∀ j, 0 < j → j < n → ∃ i w, j = i + 1 ∧ ws[i]? = some w ∧
      writeWords st.mem (st.heap.base + st.heap.top) (header :: ws)
        (st.heap.base + st.heap.top + j) = w := by
    intro j hpos hlt
    obtain ⟨i, rfl⟩ : ∃ i, j = i + 1 := ⟨j - 1, by omega⟩
    refine ⟨i, ws.get ⟨i, by omega⟩, rfl, List.getElem?_eq_getElem (by omega), ?_⟩
    apply writeWords_inside
    rw [List.getElem?_cons_succ]
    exact List.getElem?_eq_getElem (by omega)
  have hrefBounds : ∀ j, IsRef header j → 0 < j ∧ j < n := by
    intro j hj
    have hb := @IsRef.bounds (fun _ => header) 0 j hj
    omega
  have hkeyBounds : ∀ j, IsKey header j → 0 < j ∧ j < n := by
    intro j hj
    have hle := @refs_le_sizeAt (fun _ => header) 0 (by rw [hsize]; rfl)
    have hlt := hj.2.2
    have hone := hj.2.1
    omega
  refine ⟨_, hst.add hn (fun c hc => writeWords_outside ?_) (by rw [hheader, hsize])
    (fun j hj => ?_) (fun j hj => ?_), ?_⟩
  · rw [List.length_cons]
    omega
  · rw [hheader] at hj
    obtain ⟨hpos, hlt⟩ := hrefBounds j hj
    obtain ⟨i, w, rfl, hw, hread⟩ := hcell j hpos hlt
    rw [hread]
    exact hrefs i w hj hw
  · rw [hheader] at hj
    obtain ⟨hpos, hlt⟩ := hkeyBounds j hj
    obtain ⟨i, w, rfl, hw, hread⟩ := hcell j hpos hlt
    rw [hread]
    exact hkeys i w hj hw
  · rintro v ⟨⟩
    have hpos : 0 < n := by omega
    exact Term.valid_ofAddr (Set.mem_insert _ _) (by omega)

private theorem built_none {st : Store} (hst : st.Holds space) : Built st space none st :=
  ⟨space, .refl hst, fun _ h => nomatch h⟩

/-- Tuples of valid terms are valid. -/
theorem builds_tuple {elems : List Term} (helems : ∀ t ∈ elems, t.Valid space) :
    Builds space (Heap.tuple elems) := by
  intro st hst
  by_cases hfull : st.heap.top + (1 + elems.length) > st.heap.cap
  · simp only [EStateM.Ends, Heap.tuple, Heap.alloc, bind, EStateM.bind, if_pos hfull]
    exact built_none hst
  · simp only [EStateM.Ends, Heap.tuple, Heap.alloc, bind, EStateM.bind, if_neg hfull, Heap.write,
      pure, EStateM.pure]
    have hcap := hst.cap_lt
    have harity : headerArity (Heap.headerWord elems.length kindTuple) = elems.length :=
      headerArity_headerWord (by omega) (by decide)
    refine built_of_words hst (by omega) (by simp) ?_ (fun j w _ hw => ?_) (fun j w hj => ?_)
    · rw [objWords, boxKind_tuple, Option.map_some, harity]
    · obtain ⟨e, he, rfl⟩ := List.mem_map.mp (List.mem_of_getElem? hw)
      exact helems e he
    · rw [IsKey, boxKind_tuple] at hj
      simp at hj

/-- List cells of valid terms are valid. -/
theorem builds_cons {h t : Term} (hh : h.Valid space) (ht : t.Valid space) :
    Builds space (Heap.cons h t) := by
  intro st hst
  by_cases hfull : st.heap.top + 3 > st.heap.cap
  · simp only [EStateM.Ends, Heap.cons, Heap.alloc, bind, EStateM.bind, if_pos hfull]
    exact built_none hst
  · simp only [EStateM.Ends, Heap.cons, Heap.alloc, bind, EStateM.bind, if_neg hfull, Heap.write,
      pure, EStateM.pure]
    refine built_of_words hst (by omega) rfl ?_ (fun j w _ hw => ?_) (fun j w hj => ?_)
    · rw [objWords, boxKind_cons, Option.map_some]
    · have hmem := List.mem_of_getElem? hw
      simp only [List.mem_cons, List.not_mem_nil, or_false] at hmem
      rcases hmem with rfl | rfl
      · exact hh
      · exact ht
    · rw [IsKey, boxKind_cons] at hj
      simp at hj

/-- `binary` builds a valid term. -/
theorem builds_binary (data : List UInt8) : Builds space (Heap.binary data) := by
  intro st hst
  by_cases hfull : st.heap.top + (1 + (data.length + 7) / 8) > st.heap.cap
  · simp only [EStateM.Ends, Heap.binary, Heap.alloc, bind, EStateM.bind, if_pos hfull]
    exact built_none hst
  · simp only [EStateM.Ends, Heap.binary, Heap.alloc, bind, EStateM.bind, if_neg hfull,
      Heap.write, Heap.writeData, pure, EStateM.pure]
    have hcap := hst.cap_lt
    have hbound := hst.bound
    set p := st.heap.base + st.heap.top with hp
    have hheader : writeBytes (writeWords st.mem p [Heap.headerWord data.length kindBinary])
        (p + 1) data p = Heap.headerWord data.length kindBinary := by
      rw [writeBytes, if_neg (by omega)]
      exact writeWords_head _ _ _ _
    have harity : headerArity (Heap.headerWord data.length kindBinary) = data.length :=
      headerArity_headerWord (by omega) (by decide)
    refine ⟨_, hst.add (by omega) (fun c hc => ?_) ?_ (fun j hj => ?_) (fun j hj => ?_), ?_⟩
    · rw [writeBytes, if_neg (by omega)]
      exact writeWords_outside (by simp only [List.length_singleton]; omega)
    · rw [← hp, hheader, objWords, boxKind_binary, Option.map_some, harity]
    · rw [← hp, hheader, IsRef, refStart, refCount, boxKind_binary] at hj
      simp only at hj
      omega
    · rw [← hp, hheader, IsKey, boxKind_binary] at hj
      simp at hj
    · rintro v ⟨⟩
      exact Term.valid_ofAddr (Set.mem_insert _ _) (by omega)

/-- A valid term needs no building. -/
theorem builds_pure {t : Term} (ht : t.Valid space) : Builds space (pure t) :=
  fun _ hst => ⟨space, .refl hst, fun _ h => by cases h; exact ht⟩

/-- Build one term, then another with it. -/
theorem Builds.bind {f : HeapM Term} {g : Term → HeapM Term} (hf : Builds space f)
    (hg : ∀ t space', space ⊆ space' → t.Valid space' → Builds space' (g t)) :
    Builds space (f >>= g) := by
  intro st hst
  refine (hf st hst).bind ?_
  rintro t st₁ ⟨space₁, hgrow, ht⟩
  refine (hg t space₁ hgrow.sub (ht t rfl) st₁ hgrow.holds).mono ?_ ?_
  · rintro _ st₂ ⟨space₂, hgrow', hnone⟩
    exact ⟨space₂, hgrow.trans hgrow', hnone⟩
  · rintro t' st₂ ⟨space₂, hgrow', ht'⟩
    exact ⟨space₂, hgrow.trans hgrow', ht'⟩

/-- Lists of valid terms are valid. -/
theorem builds_listOnto {rest : Term} (hrest : rest.Valid space) {elems : List Term}
    (helems : ∀ t ∈ elems, t.Valid space) : Builds space (Heap.listOnto rest elems) := by
  induction elems with
  | nil => exact builds_pure hrest
  | cons e es ih =>
    refine (ih fun t ht => helems t (by simp [ht])).bind fun t space' hsub ht => ?_
    exact builds_cons ((helems e (by simp)).mono hsub) ht

private theorem dedup_spec {rounds i n : ℕ} {ps : List (Term × Term)} (hn : n ≤ i)
    (hlen : i + rounds ≤ ps.length) :
    (Heap.dedup rounds i n ps).2 ≤ (Heap.dedup rounds i n ps).1.length ∧
      ∀ kv ∈ (Heap.dedup rounds i n ps).1, kv ∈ ps := by
  induction rounds generalizing i n ps with
  | zero => exact ⟨by simp only [Heap.dedup]; omega, fun _ h => h⟩
  | succ rounds ih =>
    have hset : ∀ k cur, ps[i]? = some cur → ∀ kv ∈ ps.set k cur, kv ∈ ps := by
      intro k cur hcur kv hkv
      rcases List.mem_or_eq_of_mem_set hkv with hmem | rfl
      · exact hmem
      · exact List.mem_of_getElem? hcur
    rw [Heap.dedup]
    split
    · rename_i cur last hcur hlast
      split
      · obtain ⟨hle, hmem⟩ := @ih (i + 1) n (ps.set (n - 1) cur) (by omega)
          (by rw [List.length_set]; omega)
        exact ⟨hle, fun kv hkv => hset _ _ hcur kv (hmem kv hkv)⟩
      · obtain ⟨hle, hmem⟩ := @ih (i + 1) (n + 1) (ps.set n cur) (by omega)
          (by rw [List.length_set]; omega)
        exact ⟨hle, fun kv hkv => hset _ _ hcur kv (hmem kv hkv)⟩
    · exact ⟨by dsimp only; omega, fun _ h => h⟩

private theorem sortPairs_spec (pairs : List (Term × Term)) :
    (Heap.sortPairs pairs).2 ≤ (Heap.sortPairs pairs).1.length ∧
      ∀ kv ∈ (Heap.sortPairs pairs).1, kv ∈ pairs := by
  obtain ⟨hle, hmem⟩ := @dedup_spec (pairs.insertionSort fun a b => a.1.word ≤ b.1.word).length
    0 0 (pairs.insertionSort fun a b => a.1.word ≤ b.1.word) (Nat.le_refl _) (by omega)
  exact ⟨hle, fun kv hkv => (List.mem_insertionSort _).mp (hmem kv hkv)⟩

/-- Only pairs that were there are left behind by map construction. -/
theorem mapFromPairs_pairs (pairs : List (Term × Term)) (st : Store) :
    ∀ kv ∈ (Heap.mapFromPairs pairs st).2, kv ∈ pairs := by
  intro kv hkv
  unfold Heap.mapFromPairs at hkv
  split at hkv
  · exact hkv
  · dsimp only at hkv
    split at hkv <;> exact (sortPairs_spec pairs).2 kv hkv

/-- Maps of valid terms are valid. -/
theorem mapFromPairs_built {pairs : List (Term × Term)} {st : Store} (hst : st.Holds space)
    (hpairs : ∀ kv ∈ pairs, kv.1.Valid space ∧ kv.2.Valid space) :
    EStateM.Ends (fun _ st' => Built st space none st')
      (fun t st' => Built st space (some t) st') (fun st => (Heap.mapFromPairs pairs st).1) st := by
  unfold EStateM.Ends Heap.mapFromPairs
  split
  · rename_i t st' hrun
    split at hrun
    · cases hrun
    · rename_i hboxed
      obtain ⟨hle, hmem⟩ := sortPairs_spec pairs
      generalize Heap.sortPairs pairs = sorted at *
      dsimp only at hrun
      by_cases hfull : st.heap.top + (1 + 2 * sorted.2) > st.heap.cap
      · simp [Heap.alloc, if_pos hfull] at hrun
      · simp only [Heap.alloc, if_neg hfull, EStateM.Result.ok.injEq, List.cons_append] at hrun
        obtain ⟨rfl, rfl⟩ := hrun
        have hcap := hst.cap_lt
        have hkept : ∀ kv ∈ sorted.1.take sorted.2, kv.1.isBoxed = false ∧
            kv.1.Valid space ∧ kv.2.Valid space := by
          intro kv hkv
          have hin := hmem kv (List.mem_of_mem_take hkv)
          simp only [List.any_eq_true, not_exists, not_and, Bool.not_eq_true] at hboxed
          exact ⟨hboxed kv hin, hpairs kv hin⟩
        have harity : headerArity (Heap.headerWord sorted.2 kindMap) = sorted.2 :=
          headerArity_headerWord (by omega) (by decide)
        have hlen : (sorted.1.take sorted.2).length = sorted.2 := by
          rw [List.length_take]
          omega
        refine built_of_words hst (by omega) (by simp; omega) ?_ (fun j w hj hw => ?_)
          (fun j w hj hw => ?_)
        · rw [objWords, boxKind_map, Option.map_some, harity]
        · rw [List.getElem?_append] at hw
          split at hw
          · obtain ⟨kv, hkv, rfl⟩ := List.mem_map.mp (List.mem_of_getElem? hw)
            exact (hkept kv hkv).2.1
          · obtain ⟨kv, hkv, rfl⟩ := List.mem_map.mp (List.mem_of_getElem? hw)
            exact (hkept kv hkv).2.2
        · have hlt : j < sorted.2 := by
            have := hj.2.2
            rw [refStart, boxKind_map] at this
            dsimp only at this
            omega
          rw [List.getElem?_append_left (by rw [List.length_map, hlen]; exact hlt)] at hw
          obtain ⟨kv, hkv, rfl⟩ := List.mem_map.mp (List.mem_of_getElem? hw)
          exact ⟨(hkept kv hkv).1, (hkept kv hkv).2.1⟩
  · rename_i e st' hrun
    split at hrun
    · cases hrun
      exact built_none hst
    · dsimp only [Heap.alloc] at hrun
      split at hrun
      · rename_i halloc
        split at halloc
        · cases halloc
          cases hrun
          exact built_none hst
        · cases halloc
      · cases hrun

/-- A map with a valid entry set is valid. -/
theorem mapPut_built {m k v : Term} {st : Store} (hst : st.Holds space) (hm : m.Valid space)
    (hmap : m.kind st.mem = some .map) (hk : k.Valid space) (hv : v.Valid space) :
    EStateM.Ends (fun _ st' => Built st space none st')
      (fun t st' => Built st space (some t) st') (Heap.mapPut m k v) st := by
  have hpairs : ∀ kv ∈ Heap.mapPairs st.mem m ++ [(k, v)], kv.1.Valid space ∧ kv.2.Valid space := by
    intro kv hkv
    rcases List.mem_append.mp hkv with hkv | hkv
    · obtain ⟨i, hi, rfl⟩ := List.mem_map.mp hkv
      rw [List.mem_range] at hi
      exact ⟨(hst.objects.mapKey_immediate hm hmap hi).2, hst.objects.valid_mapVal hm hmap hi⟩
    · cases List.mem_singleton.mp hkv
      exact ⟨hk, hv⟩
  have hbuilt := mapFromPairs_built hst hpairs
  unfold EStateM.Ends Heap.mapPut
  by_cases hboxed : k.isBoxed = true
  · rw [if_pos hboxed]
    exact built_none hst
  · rw [if_neg hboxed]
    exact hbuilt

end Builders

end Yggdrasil
