import Yggdrasil.Lib.LastWins
import Yggdrasil.Term.Build

/-!
# Flat maps

A map is two rows of words, its keys in increasing order and its values. Building one sorts
the pairs by key, compacts them in place so that the last pair of a key wins, and writes
what is kept. Looking a key up is a binary search.
-/

namespace Yggdrasil

open LastWins

namespace Heap

/-- Pairs are ordered by the raw words of their keys. -/
def pairKey (kv : Term × Term) : ℕ := kv.1.word.toNat

/-- The order `map_from_pairs` sorts by. -/
def pairLe (a b : Term × Term) : Prop := a.1.word ≤ b.1.word

instance : DecidableRel pairLe := fun a b => inferInstanceAs (Decidable (a.1.word ≤ b.1.word))

/-- The pairs that a map is made of. -/
def canonicalPairs (pairs : List (Term × Term)) : List (Term × Term) :=
  canonical pairKey pairLe pairs

variable {pairs : List (Term × Term)}

private theorem pairLe_iff (a b : Term × Term) : pairLe a b ↔ pairKey a ≤ pairKey b := Iff.rfl

private theorem pairKey_eq {a b : Term × Term} : pairKey a = pairKey b ↔ a.1.word = b.1.word :=
  BitVec.toNat_inj

/-- The compaction pass from scan index `i` on, when the pairs before it are compacted. -/
private theorem dedup_eq {s : List (Term × Term)} {rounds i : ℕ} (hi : i + rounds = s.length) :
    dedup rounds i (compact pairKey (s.take i)).length
      (compact pairKey (s.take i) ++ s.drop (compact pairKey (s.take i)).length) =
    (compact pairKey s ++ s.drop (compact pairKey s).length, (compact pairKey s).length) := by
  induction rounds generalizing i with
  | zero => rw [dedup, List.take_of_length_le (by omega)]
  | succ rounds ih =>
    have hlt : i < s.length := by omega
    have hle : (compact pairKey (s.take i)).length ≤ i := by
      refine length_compact_le.trans ?_
      rw [List.length_take]
      omega
    have hnext : compact pairKey (s.take (i + 1)) =
        push pairKey (compact pairKey (s.take i)) (s.get ⟨i, hlt⟩) := by
      rw [← compact_concat]
      congr 1
      exact (List.take_concat_get' s i hlt).symm
    have hrest := @ih (i + 1) (by omega)
    rw [hnext] at hrest
    generalize compact pairKey (s.take i) = kept at *
    have hcur : (kept ++ s.drop kept.length)[i]? = some (s.get ⟨i, hlt⟩) := by
      rw [List.getElem?_append_right hle, List.getElem?_drop, Nat.add_sub_cancel' hle]
      exact List.getElem?_eq_getElem hlt
    have hsome : (kept ++ s.drop kept.length).length = s.length := by
      rw [List.length_append, List.length_drop]
      omega
    rcases push_cases pairKey kept (s.get ⟨i, hlt⟩) with
      ⟨init, last, rfl, hkey, hpush⟩ | ⟨hne, hpush⟩
    · have hlast : (init ++ [last] ++ s.drop (init ++ [last]).length)[(init ++ [last]).length - 1]?
          = some last := by simp
      rw [hpush] at hrest
      simp only [dedup, hcur, hlast]
      rw [if_pos ⟨by simp, pairKey_eq.mp hkey⟩, ← hrest]
      simp
    · obtain ⟨last, hlast⟩ : ∃ last, (kept ++ s.drop kept.length)[kept.length - 1]? = some last :=
        ⟨_, List.getElem?_eq_getElem (by omega)⟩
      have hnot : ¬ (0 < kept.length ∧ last.1.word = (s.get ⟨i, hlt⟩).1.word) := by
        rintro ⟨hpos, hword⟩
        rw [List.getElem?_append_left (by omega), ← List.getLast?_eq_getElem?] at hlast
        exact hne last hlast (pairKey_eq.mpr hword)
      have hset : (kept ++ s.drop kept.length).set kept.length (s.get ⟨i, hlt⟩) =
          kept ++ [s.get ⟨i, hlt⟩] ++ s.drop (kept.length + 1) := by
        rw [List.set_append_right _ _ (Nat.le_refl _), Nat.sub_self,
          List.drop_eq_getElem_cons (show kept.length < s.length by omega), List.set_cons_zero,
          List.append_assoc]
        rfl
      rw [hpush, List.length_append, List.length_singleton] at hrest
      simp only [dedup, hcur, hlast]
      rw [if_neg hnot, hset, hrest]

/-- Sorting and compacting keeps the pairs of the map in front; the sorted pairs behind them
are left as they were. -/
theorem sortPairs_eq (pairs : List (Term × Term)) :
    sortPairs pairs = (canonicalPairs pairs ++
      (pairs.insertionSort pairLe).drop (canonicalPairs pairs).length,
        (canonicalPairs pairs).length) :=
  @dedup_eq (pairs.insertionSort pairLe) _ 0 (Nat.zero_add _)

/-- What a failed attempt leaves behind stands for the same map. -/
theorem canonicalPairs_sortPairs (pairs : List (Term × Term)) :
    canonicalPairs (sortPairs pairs).1 = canonicalPairs pairs := by
  refine canonical_congr pairLe_iff fun k => ?_
  rw [sortPairs_eq]
  exact find_leftover.trans (find_insertionSort pairLe_iff)

/-- The keys of the pairs of a map increase. -/
theorem increasing_canonicalPairs (pairs : List (Term × Term)) :
    Increasing pairKey (canonicalPairs pairs) :=
  increasing_canonical pairLe_iff

/-- The pairs of a map say what the pairs it is built from say. -/
theorem find_canonicalPairs (pairs : List (Term × Term)) (k : ℕ) :
    find pairKey k (canonicalPairs pairs) = find pairKey k pairs :=
  find_canonical pairLe_iff

/-- Some key is no immediate. -/
def HasBoxedKey (pairs : List (Term × Term)) : Prop := ∃ kv ∈ pairs, kv.1.isBoxed = true

instance (pairs : List (Term × Term)) : Decidable (HasBoxedKey pairs) :=
  inferInstanceAs (Decidable (∃ kv ∈ pairs, kv.1.isBoxed = true))

/-- The words of the map with some pairs. -/
def mapWords (kept : List (Term × Term)) : List Word :=
  headerWord kept.length kindMap :: (kept.map fun kv => kv.1.word) ++ kept.map fun kv => kv.2.word

/-- Only keys that are not immediate are refused. -/
theorem mapFromPairs_boxed (h : HasBoxedKey pairs) (st : Store) :
    mapFromPairs pairs st = (.error .nonImmediateKey st, pairs) := by
  rw [mapFromPairs, if_pos (List.any_eq_true.mpr h)]

private theorem take_sortPairs :
    (sortPairs pairs).1.take (sortPairs pairs).2 = canonicalPairs pairs := by
  rw [sortPairs_eq]
  exact List.take_left

section

variable (hkeys : ¬ HasBoxedKey pairs) {st : Store}

include hkeys

private theorem not_any : ¬ (pairs.any fun kv => kv.1.isBoxed) = true := fun h =>
  hkeys (List.any_eq_true.mp h)

/-- Without room for the map nothing happens. -/
theorem mapFromPairs_full
    (h : st.heap.cap < st.heap.top + (1 + 2 * (canonicalPairs pairs).length)) :
    mapFromPairs pairs st = (.error (.heap .heapFull) st, (sortPairs pairs).1) := by
  have halloc : alloc (1 + 2 * (sortPairs pairs).2) st = .error .heapFull st := by
    rw [sortPairs_eq]
    exact if_pos h
  rw [mapFromPairs, if_neg (not_any hkeys)]
  simp only [halloc]

/-- With room for it the map is written behind the used part. -/
theorem mapFromPairs_room
    (h : st.heap.top + (1 + 2 * (canonicalPairs pairs).length) ≤ st.heap.cap) :
    mapFromPairs pairs st =
      (.ok (Term.ofAddr (st.heap.base + st.heap.top))
        ⟨writeWords st.mem (st.heap.base + st.heap.top) (mapWords (canonicalPairs pairs)),
          { st.heap with top := st.heap.top + (1 + 2 * (canonicalPairs pairs).length) }⟩,
        (sortPairs pairs).1) := by
  have halloc : alloc (1 + 2 * (sortPairs pairs).2) st =
      .ok (st.heap.base + st.heap.top)
        { st with heap.top := st.heap.top + (1 + 2 * (sortPairs pairs).2) } := by
    refine if_neg ?_
    rw [sortPairs_eq]
    omega
  rw [mapFromPairs, if_neg (not_any hkeys)]
  simp only [halloc, take_sortPairs]
  rw [sortPairs_eq]
  rfl

end

/-- A retry with what a failed attempt left behind ends like the attempt with the pairs. -/
theorem mapFromPairs_leftover (pairs : List (Term × Term)) (st st' : Store) :
    (mapFromPairs (mapFromPairs pairs st).2 st').1 = (mapFromPairs pairs st').1 := by
  by_cases hkeys : HasBoxedKey pairs
  · rw [mapFromPairs_boxed hkeys st]
  · have hslice : (mapFromPairs pairs st).2 = (sortPairs pairs).1 := by
      rcases Nat.lt_or_ge st.heap.cap (st.heap.top + (1 + 2 * (canonicalPairs pairs).length))
        with h | h
      · rw [mapFromPairs_full hkeys h]
      · rw [mapFromPairs_room hkeys h]
    have hkeys' : ¬ HasBoxedKey (sortPairs pairs).1 := by
      rintro ⟨kv, hkv, hboxed⟩
      rw [← hslice] at hkv
      exact hkeys ⟨kv, mapFromPairs_pairs pairs st kv hkv, hboxed⟩
    have hsame := canonicalPairs_sortPairs pairs
    rw [hslice]
    rcases Nat.lt_or_ge st'.heap.cap (st'.heap.top + (1 + 2 * (canonicalPairs pairs).length))
      with h | h
    · rw [mapFromPairs_full hkeys h, mapFromPairs_full hkeys' (by rw [hsame]; exact h)]
    · rw [mapFromPairs_room hkeys h, mapFromPairs_room hkeys' (by rw [hsame]; exact h), hsame]

end Heap

/-- The value of the last pair with a key. -/
def lastValue {κ α : Type} [DecidableEq κ] (pairs : List (κ × α)) (k : κ) : Option α :=
  (pairs.reverse.find? fun kv => kv.1 = k).map Prod.snd

/-- The last pair wins. -/
theorem lastValue_concat {κ α : Type} [DecidableEq κ] (pairs : List (κ × α)) (k k' : κ) (v : α) :
    lastValue (pairs ++ [(k', v)]) k = if k' = k then some v else lastValue pairs k := by
  by_cases h : k' = k <;> simp [lastValue, h]

/-- The pairs of a map are told apart by the words of their keys. -/
theorem lastValue_eq_find (pairs : List (Term × Term)) (k : Term) :
    lastValue pairs k = (find Heap.pairKey k.word.toNat pairs).map Prod.snd := by
  have hkey : ∀ kv : Term × Term, kv.1 = k ↔ Heap.pairKey kv = k.word.toNat := fun kv =>
    ⟨fun h => by rw [← h]; rfl,
      fun h => by cases k; exact congrArg Term.mk (BitVec.eq_of_toNat_eq h)⟩
  simp only [lastValue, find, hkey]

/-! ### Reading maps -/

/-- A map whose keys increase by raw word. -/
structure SortedMap (mem : Mem) (t : Term) : Prop where
  /-- It is a map. -/
  kind : t.kind mem = some .map
  /-- Its keys increase. -/
  increasing : ∀ i j, i < j → j < t.mapArity mem →
    (t.mapKey mem i).word < (t.mapKey mem j).word

section Reading

variable {mem : Mem} {t key : Term}

/-- Pair `i` of a map. -/
theorem Heap.getElem?_mapPairs {i : ℕ} (hi : i < t.mapArity mem) :
    (Heap.mapPairs mem t)[i]? = some (t.mapKey mem i, t.mapVal mem i) := by
  rw [Heap.mapPairs, List.getElem?_map, List.getElem?_range hi, Option.map_some]

/-- A pair of a map stands somewhere. -/
theorem Heap.mem_mapPairs {kv : Term × Term} : kv ∈ Heap.mapPairs mem t ↔
    ∃ i < t.mapArity mem, kv = (t.mapKey mem i, t.mapVal mem i) := by
  simp only [Heap.mapPairs, List.mem_map, List.mem_range, eq_comm]

/-- The keys increase if the pairs do. -/
theorem sortedMap_of_increasing (hkind : t.kind mem = some .map)
    (h : Increasing Heap.pairKey (Heap.mapPairs mem t)) : SortedMap mem t := by
  refine ⟨hkind, fun i j hij hj => ?_⟩
  have hi : i < (Heap.mapPairs mem t).length := by
    rw [Heap.mapPairs, List.length_map, List.length_range]
    omega
  have hj' : j < (Heap.mapPairs mem t).length := by
    rw [Heap.mapPairs, List.length_map, List.length_range]
    exact hj
  have hlt := List.pairwise_iff_getElem.mp h i j hi hj' hij
  rw [BitVec.lt_def]
  simpa [Heap.mapPairs, Heap.pairKey] using hlt

namespace SortedMap

variable (h : SortedMap mem t)

include h

/-- The pairs of a map are in the order of their keys. -/
theorem pairs_increasing : Increasing Heap.pairKey (Heap.mapPairs mem t) := by
  refine List.pairwise_iff_getElem.mpr fun i j hi hj hij => ?_
  have hlt : j < t.mapArity mem := by
    rwa [Heap.mapPairs, List.length_map, List.length_range] at hj
  have hinc := BitVec.lt_def.mp (h.increasing i j hij hlt)
  simpa [Heap.mapPairs, Heap.pairKey] using hinc

private theorem index_eq {i j : ℕ} (hi : i < t.mapArity mem) (hj : j < t.mapArity mem)
    (heq : (t.mapKey mem i).word = (t.mapKey mem j).word) : i = j := by
  rcases Nat.lt_trichotomy i j with hlt | rfl | hgt
  · have := h.increasing i j hlt hj
    rw [heq] at this
    exact absurd this (BitVec.lt_irrefl _)
  · rfl
  · have := h.increasing j i hgt hi
    rw [heq] at this
    exact absurd this (BitVec.lt_irrefl _)

private theorem mapSearch_found {n lo hi i : ℕ} (hn : hi < lo + n) (hhi : hi ≤ t.mapArity mem)
    (hlo : lo ≤ i) (hlt : i < hi) (hkey : (t.mapKey mem i).word = key.word) :
    t.mapSearch mem key n lo hi = some (t.mapVal mem i) := by
  induction n generalizing lo hi with
  | zero => omega
  | succ n ih =>
    rw [Term.mapSearch, if_pos (by omega)]
    have hmid : (lo + hi) / 2 < t.mapArity mem := by omega
    dsimp only
    by_cases heq : (t.mapKey mem ((lo + hi) / 2)).word = key.word
    · rw [if_pos heq, h.index_eq hmid (by omega) (heq.trans hkey.symm)]
    · rw [if_neg heq]
      by_cases hless : (t.mapKey mem ((lo + hi) / 2)).word < key.word
      · rw [if_pos hless]
        refine ih (by omega) hhi ?_ (by omega)
        by_contra hle
        rcases Nat.lt_or_eq_of_le (show i ≤ (lo + hi) / 2 by omega) with hbefore | rfl
        · have := h.increasing i _ hbefore hmid
          rw [hkey] at this
          exact absurd this (BitVec.not_lt.mpr (BitVec.le_of_lt hless))
        · exact heq hkey
      · rw [if_neg hless]
        refine ih (by omega) (by omega) hlo ?_
        by_contra hge
        rcases Nat.lt_or_eq_of_le (show (lo + hi) / 2 ≤ i by omega) with hafter | heq'
        · have := h.increasing _ i hafter (by omega)
          rw [hkey] at this
          exact hless this
        · exact heq (heq' ▸ hkey)

omit h in
private theorem mapSearch_none {n lo hi : ℕ}
    (hkeys : ∀ i < hi, (t.mapKey mem i).word ≠ key.word) :
    t.mapSearch mem key n lo hi = none := by
  induction n generalizing lo hi with
  | zero => rfl
  | succ n ih =>
    rw [Term.mapSearch]
    split
    · dsimp only
      rw [if_neg (hkeys _ (by omega))]
      split
      · exact ih hkeys
      · exact ih fun i hi => hkeys i (by omega)
    · rfl

/-- The binary search finds what the pairs of the map say. -/
theorem mapGet_eq (key : Term) :
    t.mapGet mem key =
      (find Heap.pairKey key.word.toNat (Heap.mapPairs mem t)).map Prod.snd := by
  cases hfound : find Heap.pairKey key.word.toNat (Heap.mapPairs mem t) with
  | none =>
    refine mapSearch_none fun i hi heq => ?_
    refine find_eq_none.mp hfound _ (Heap.mem_mapPairs.mpr ⟨i, hi, rfl⟩) ?_
    exact congrArg BitVec.toNat heq
  | some kv =>
    obtain ⟨hmem, hkey⟩ := find_some hfound
    obtain ⟨i, hi, rfl⟩ := Heap.mem_mapPairs.mp hmem
    refine h.mapSearch_found ?_ (Nat.le_refl _) (Nat.zero_le i) hi (BitVec.eq_of_toNat_eq hkey)
    omega

/-- Each key of the map is found. -/
theorem mapGet_key {i : ℕ} (hi : i < t.mapArity mem) :
    t.mapGet mem (t.mapKey mem i) = some (t.mapVal mem i) := by
  have hmem := Heap.mem_mapPairs.mpr ⟨i, hi, rfl⟩
  rw [h.mapGet_eq]
  exact congrArg (Option.map Prod.snd) (h.pairs_increasing.find_key hmem)

/-- Nothing else is found. -/
theorem mapGet_cases (key : Term) :
    (∃ i < t.mapArity mem, key = t.mapKey mem i ∧ t.mapGet mem key = some (t.mapVal mem i)) ∨
      (∀ i < t.mapArity mem, key ≠ t.mapKey mem i) ∧ t.mapGet mem key = none := by
  by_cases hkey : ∃ i < t.mapArity mem, key = t.mapKey mem i
  · obtain ⟨i, hi, rfl⟩ := hkey
    exact .inl ⟨i, hi, rfl, h.mapGet_key hi⟩
  · have hne : ∀ i < t.mapArity mem, key ≠ t.mapKey mem i := fun i hi heq => hkey ⟨i, hi, heq⟩
    refine .inr ⟨hne, mapSearch_none fun i hi heq => hne i hi ?_⟩
    cases key
    exact congrArg Term.mk heq.symm

end SortedMap

/-- The words of a map are read back. -/
theorem Heap.read_mapWords (mem : Mem) {p : ℕ} {kept : List (Term × Term)} (hp : p < 2 ^ 61)
    (hlen : kept.length < 2 ^ 61) :
    (Term.ofAddr p).kind (writeWords mem p (Heap.mapWords kept)) = some .map ∧
      Heap.mapPairs (writeWords mem p (Heap.mapWords kept)) (Term.ofAddr p) = kept := by
  have haddr := Term.addr_ofAddr hp
  have hhead : writeWords mem p (Heap.mapWords kept) p = Heap.headerWord kept.length kindMap :=
    writeWords_head _ _ _ _
  have harity : Term.mapArity (writeWords mem p (Heap.mapWords kept)) (Term.ofAddr p) =
      kept.length := by
    rw [Term.mapArity, Term.headerLen, Term.header, haddr, hhead]
    exact headerArity_headerWord hlen (by decide)
  refine ⟨?_, List.ext_getElem? fun i => ?_⟩
  · rw [Term.kind_boxed _ (Term.isBoxed_ofAddr p), Term.header, haddr, hhead, boxKind_map]
    rfl
  · rcases Nat.lt_or_ge i kept.length with hi | hi
    · have hkv := List.getElem?_eq_getElem hi
      have hkey : writeWords mem p (Heap.mapWords kept) (p + (1 + i)) = kept[i].1.word := by
        apply writeWords_inside
        rw [Heap.mapWords, List.cons_append, Nat.add_comm 1 i, List.getElem?_cons_succ,
          List.getElem?_append_left (by rwa [List.length_map]), List.getElem?_map, hkv,
          Option.map_some]
      have hval : writeWords mem p (Heap.mapWords kept) (p + (1 + kept.length + i)) =
          kept[i].2.word := by
        apply writeWords_inside
        rw [Heap.mapWords, List.cons_append,
          show 1 + kept.length + i = kept.length + i + 1 by omega,
          List.getElem?_cons_succ, List.getElem?_append_right (by rw [List.length_map]; omega),
          List.length_map, Nat.add_sub_cancel_left, List.getElem?_map, hkv, Option.map_some]
      rw [Heap.getElem?_mapPairs (by rwa [harity]), hkv, Term.mapKey, Term.mapVal, harity, haddr,
        Nat.add_assoc, hkey, Nat.add_assoc, Nat.add_assoc, ← Nat.add_assoc 1, hval]
    · rw [List.getElem?_eq_none hi, List.getElem?_eq_none]
      rwa [Heap.mapPairs, List.length_map, List.length_range, harity]

end Reading

/-- A map that was built has the canonical pairs, and no other word of it matters. -/
theorem Heap.mapFromPairs_ok {pairs : List (Term × Term)} {st st' : Store} {t : Term}
    (hbound : st.heap.base + st.heap.cap ≤ 2 ^ 61)
    (h : (Heap.mapFromPairs pairs st).1 = .ok t st') :
    ¬ Heap.HasBoxedKey pairs ∧ SortedMap st'.mem t ∧
      Heap.mapPairs st'.mem t = Heap.canonicalPairs pairs := by
  have hkeys : ¬ Heap.HasBoxedKey pairs := fun hboxed => by
    rw [Heap.mapFromPairs_boxed hboxed] at h
    cases h
  have hroom : st.heap.top + (1 + 2 * (Heap.canonicalPairs pairs).length) ≤ st.heap.cap := by
    by_contra hfull
    rw [Heap.mapFromPairs_full hkeys (by omega)] at h
    cases h
  rw [Heap.mapFromPairs_room hkeys hroom] at h
  cases h
  obtain ⟨hkind, hpairs⟩ := @Heap.read_mapWords st.mem (st.heap.base + st.heap.top)
    (Heap.canonicalPairs pairs) (by omega) (by omega)
  refine ⟨hkeys, sortedMap_of_increasing hkind ?_, hpairs⟩
  rw [hpairs]
  exact Heap.increasing_canonicalPairs pairs

/-- A map finds the value of the last pair with a key. -/
theorem Heap.mapGet_of_mapFromPairs {pairs : List (Term × Term)} {st st' : Store} {t : Term}
    (hbound : st.heap.base + st.heap.cap ≤ 2 ^ 61)
    (h : (Heap.mapFromPairs pairs st).1 = .ok t st') (k : Term) :
    t.mapGet st'.mem k = lastValue pairs k := by
  obtain ⟨-, hs, hpairs⟩ := Heap.mapFromPairs_ok hbound h
  rw [hs.mapGet_eq, hpairs, lastValue_eq_find, Heap.find_canonicalPairs]

/-- A sorted map finds what its pairs say. -/
theorem SortedMap.mapGet_eq_lastValue {mem : Mem} {t : Term} (h : SortedMap mem t) (k : Term) :
    t.mapGet mem k = lastValue (Heap.mapPairs mem t) k := by
  rw [h.mapGet_eq, lastValue_eq_find]

end Yggdrasil
