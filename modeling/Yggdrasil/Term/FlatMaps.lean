import Yggdrasil.Term.Makes

/-!
# Flat maps are finite maps

A map finds the value of the last pair of each key, and a map with one more pair finds that
value and otherwise what the map found. Maps keep this wherever they are copied or moved.
-/

namespace Yggdrasil

open Evac LastWins

/-- The result of building a map from store `st`, whose objects are `space`: there are
`count` keys, and `get` says what is to be found. -/
structure BuildsMap (st : Store) (space : Set ℕ) (boxed : Prop) (count : ℕ)
    (get : Term → Option Term) (r : EStateM.Result MapError Store Term) : Prop where
  /-- Only boxed keys are refused. -/
  refused : (∃ st', r = .error .nonImmediateKey st') ↔ boxed
  /-- Otherwise the map is built if there is room for it. -/
  room : ¬ boxed → st.heap.top + (1 + 2 * count) ≤ st.heap.cap → ∃ t st', r = .ok t st'
  /-- A failure changes nothing. -/
  failed : ∀ e st', r = .error e st' → st' = st
  /-- The keys of the map increase. -/
  sorted : ∀ t st', r = .ok t st' → SortedMap st'.mem t
  /-- The map finds what it is to find. -/
  found : ∀ t st', r = .ok t st' → ∀ k, t.mapGet st'.mem k = get k
  /-- No object changes. -/
  kept : ∀ t st', r = .ok t st' → Agree st.mem st'.mem space

section Building

variable {st : Store} {space : Set ℕ} {pairs : List (Term × Term)}

private theorem mem_keys_iff {k : Term} :
    k ∈ pairs.map Prod.fst ↔ find Heap.pairKey k.word.toNat pairs ≠ none := by
  rw [Ne, find_eq_none, not_forall]
  constructor
  · intro hk
    obtain ⟨kv, hkv, rfl⟩ := List.mem_map.mp hk
    exact ⟨kv, fun h => h hkv rfl⟩
  · rintro ⟨kv, h⟩
    rw [Classical.not_imp, not_not] at h
    refine List.mem_map.mpr ⟨kv, h.1, ?_⟩
    cases k
    exact congrArg Term.mk (BitVec.eq_of_toNat_eq h.2)

/-- A map has as many pairs as there are keys. -/
private theorem length_canonicalPairs (pairs : List (Term × Term)) :
    (Heap.canonicalPairs pairs).length = (pairs.map Prod.fst).toFinset.card := by
  have hnodup : ((Heap.canonicalPairs pairs).map Prod.fst).Nodup := by
    rw [List.Nodup, List.pairwise_map]
    refine (Heap.increasing_canonicalPairs pairs).imp fun hlt heq => ?_
    exact absurd (congrArg (fun k : Term => k.word.toNat) heq) (ne_of_lt hlt)
  have hmem : ((Heap.canonicalPairs pairs).map Prod.fst).toFinset =
      (pairs.map Prod.fst).toFinset := by
    ext k
    rw [List.mem_toFinset, List.mem_toFinset, mem_keys_iff, mem_keys_iff,
      Heap.find_canonicalPairs]
  rw [← hmem, List.toFinset_card_of_nodup hnodup, List.length_map]

/-- Building a map from pairs. -/
theorem buildsMap_mapFromPairs (hst : st.Holds space) (pairs : List (Term × Term)) :
    BuildsMap st space (Heap.HasBoxedKey pairs) (pairs.map Prod.fst).toFinset.card
      (lastValue pairs) (Heap.mapFromPairs pairs st).1 := by
  have hbuilt := fun t st' => @Heap.mapFromPairs_ok pairs st st' t hst.bound
  rw [← length_canonicalPairs]
  by_cases hboxed : Heap.HasBoxedKey pairs
  · have hrun : (Heap.mapFromPairs pairs st).1 = .error .nonImmediateKey st := by
      rw [Heap.mapFromPairs_boxed hboxed]
    refine ⟨⟨fun _ => hboxed, fun _ => ⟨st, hrun⟩⟩, fun h => absurd hboxed h,
      fun e st' h => ?_, fun t st' h => (hbuilt t st' h).2.1,
      fun t st' h => Heap.mapGet_of_mapFromPairs hst.bound h, fun t st' h => ?_⟩
    · rw [hrun] at h
      cases h
      rfl
    · rw [hrun] at h
      cases h
  · have hcases := Nat.lt_or_ge st.heap.cap
      (st.heap.top + (1 + 2 * (Heap.canonicalPairs pairs).length))
    refine ⟨⟨fun h => ?_, fun h => absurd h hboxed⟩, fun _ hroom => ?_, fun e st' h => ?_,
      fun t st' h => (hbuilt t st' h).2.1,
      fun t st' h => Heap.mapGet_of_mapFromPairs hst.bound h, fun t st' h => ?_⟩
    · obtain ⟨st', h⟩ := h
      rcases hcases with hfull | hroom
      · rw [Heap.mapFromPairs_full hboxed hfull] at h
        cases h
      · rw [Heap.mapFromPairs_room hboxed hroom] at h
        cases h
    · rw [Heap.mapFromPairs_room hboxed hroom]
      exact ⟨_, _, rfl⟩
    · rcases hcases with hfull | hroom
      · rw [Heap.mapFromPairs_full hboxed hfull] at h
        cases h
        rfl
      · rw [Heap.mapFromPairs_room hboxed hroom] at h
        cases h
    · rcases hcases with hfull | hroom
      · rw [Heap.mapFromPairs_full hboxed hfull] at h
        cases h
      · rw [Heap.mapFromPairs_room hboxed hroom] at h
        cases h
        intro a ha j hj
        have hout := hst.outside ha hj
        refine writeWords_outside ?_
        simp only [Heap.mapWords, List.length_append, List.length_cons, List.length_map]
        omega

/-- The keys of a map. -/
def mapKeys (mem : Mem) (m : Term) : Finset Term := ((Heap.mapPairs mem m).map Prod.fst).toFinset

/-- Building a map with one more pair. -/
theorem buildsMap_mapPut (hst : st.Holds space) {m : Term} (hm : m.Valid space)
    (hs : SortedMap st.mem m) (k v : Term) :
    BuildsMap st space (k.isBoxed = true) (insert k (mapKeys st.mem m)).card
      (Function.update (m.mapGet st.mem) k (some v)) (Heap.mapPut m k v st) := by
  have hbuilds := buildsMap_mapFromPairs hst (Heap.mapPairs st.mem m ++ [(k, v)])
  have hboxed : Heap.HasBoxedKey (Heap.mapPairs st.mem m ++ [(k, v)]) ↔ k.isBoxed = true := by
    constructor
    · rintro ⟨kv, hkv, hbox⟩
      rcases List.mem_append.mp hkv with hkv | hkv
      · obtain ⟨i, hi, rfl⟩ := Heap.mem_mapPairs.mp hkv
        rw [(hst.objects.mapKey_immediate hm hs.kind hi).1] at hbox
        cases hbox
      · cases List.mem_singleton.mp hkv
        exact hbox
    · exact fun hbox => ⟨(k, v), by simp, hbox⟩
  have hcount : ((Heap.mapPairs st.mem m ++ [(k, v)]).map Prod.fst).toFinset =
      insert k (mapKeys st.mem m) := by
    rw [mapKeys, List.map_append, List.toFinset_append, Finset.union_comm]
    rfl
  have hget : lastValue (Heap.mapPairs st.mem m ++ [(k, v)]) =
      Function.update (m.mapGet st.mem) k (some v) := by
    funext k'
    rw [lastValue_concat, Function.update_apply, hs.mapGet_eq_lastValue]
    simp only [eq_comm]
  have hrun : Heap.mapPut m k v st =
      (Heap.mapFromPairs (Heap.mapPairs st.mem m ++ [(k, v)]) st).1 := by
    rw [Heap.mapPut]
    split
    · rename_i hbox
      rw [Heap.mapFromPairs_boxed (hboxed.mpr hbox)]
    · rfl
  rw [hboxed.eq, hcount, hget] at hbuilds
  rw [hrun]
  exact hbuilds

end Building

/-- What a call returns, if it does, is well-formed, and only objects were added. -/
def GivesWellFormed {ε : Type} (st : Store) (space : Set ℕ)
    (r : EStateM.Result ε Store Term) : Prop :=
  ∀ t st', r = .ok t st' → ∃ space', st.Grows st' space space' ∧ t.WellFormed st'.mem space'

section Closed

variable {st : Store} {space : Set ℕ}

/-- What makes something gives well-formed terms. -/
theorem Makes.givesWellFormed {ε : Type} {d : Datum} {f : EStateM ε Store Term}
    (h : Makes space d f st) : GivesWellFormed st space (f st) := by
  intro t st' hrun
  obtain ⟨space', hgrow, hmeans⟩ := EStateM.Ends.ok h hrun
  exact ⟨space', hgrow, d, hmeans⟩

private theorem exists_pairMeans {pairs : List (Term × Term)}
    (h : ∀ kv ∈ pairs, kv.1.Valid space ∧ kv.2.WellFormed st.mem space) :
    ∃ wds, List.Forall₂ (PairMeans st.mem space) pairs wds := by
  induction pairs with
  | nil => exact ⟨[], .nil⟩
  | cons kv pairs ih =>
    obtain ⟨wds, hwds⟩ := ih fun kv hkv => h kv (List.mem_cons_of_mem _ hkv)
    obtain ⟨hkey, dv, hv⟩ := h kv List.mem_cons_self
    exact ⟨(kv.1.word, dv) :: wds, .cons ⟨hkey, rfl, hv⟩ hwds⟩

/-- Evacuation moves well-formed terms to well-formed terms. -/
private theorem evacuate_wellFormed {mem : Mem} (hobjects : TermSpace mem space) {dst : Heap}
    (htop : dst.top ≤ dst.cap) (hbound : dst.base + dst.cap ≤ 2 ^ 61) (hcap : dst.cap < 2 ^ 58)
    (hapart : ∀ a ∈ space, a + sizeAt mem a ≤ dst.base ∨ dst.base + dst.cap ≤ a)
    {fuel : ℕ} {ts ts' : List Term} {st' : Store}
    (hts : ∀ t ∈ ts, t.WellFormed mem space)
    (hrun : evacuate fuel ts ⟨mem, dst⟩ = .ok ts' st') :
    ∃ space', st'.Holds space' ∧ ∀ t ∈ ts', t.WellFormed st'.mem space' := by
  have hvalid : ∀ t ∈ ts, t.Valid space := fun t ht => (hts t ht).elim fun _ h => h.valid
  obtain ⟨space', hst', himages⟩ :=
    evacuate_images hobjects htop hbound hcap hapart hvalid hrun
  refine ⟨space', hst', fun t' ht' => ?_⟩
  obtain ⟨i, hi', rfl⟩ := List.mem_iff_getElem.mp ht'
  have hi : i < ts.length := himages.length_eq ▸ hi'
  have himage := himages.get hi hi'
  obtain ⟨d, hmeans⟩ := hts _ (List.getElem_mem hi)
  exact ⟨d, himage.1, (himage.2 d).mpr hmeans.denotes⟩

/-- Flat maps are finite maps. Building one from pairs refuses boxed keys only, and gives a
map that finds the value of the last pair of each key. Putting a pair into a well-formed map
changes what it finds under that key and nothing else. Whatever fails changes nothing, and
what succeeds changes no object. Maps built from well-formed terms, copies and images of
well-formed terms, and their parts are well-formed again. -/
theorem flat_maps_are_finite_maps (hst : st.Holds space) :
    (∀ pairs : List (Term × Term),
      BuildsMap st space (Heap.HasBoxedKey pairs) (pairs.map Prod.fst).toFinset.card
        (lastValue pairs) (Heap.mapFromPairs pairs st).1 ∧
      ((∀ kv ∈ pairs, kv.1.Valid space ∧ kv.2.WellFormed st.mem space) →
        GivesWellFormed st space (Heap.mapFromPairs pairs st).1)) ∧
    (∀ m k v : Term, m.WellFormed st.mem space → m.kind st.mem = some .map →
      BuildsMap st space (k.isBoxed = true) (insert k (mapKeys st.mem m)).card
        (Function.update (m.mapGet st.mem) k (some v)) (Heap.mapPut m k v st) ∧
      (k.Valid space → v.WellFormed st.mem space →
        GivesWellFormed st space (Heap.mapPut m k v st))) ∧
    (∀ (n : ℕ) (t : Term), t.WellFormed st.mem space → DepthLt st.mem n t →
      GivesWellFormed st space (copyTerm n t st)) ∧
    (∀ (dst : Heap) (fuel : ℕ) (ts ts' : List Term) (st' : Store), dst.top ≤ dst.cap →
      dst.base + dst.cap ≤ 2 ^ 61 → dst.cap < 2 ^ 58 →
      (∀ a ∈ space, a + sizeAt st.mem a ≤ dst.base ∨ dst.base + dst.cap ≤ a) →
      (∀ t ∈ ts, t.WellFormed st.mem space) →
      evacuate fuel ts ⟨st.mem, dst⟩ = .ok ts' st' →
      ∃ space', st'.Holds space' ∧ ∀ t ∈ ts', t.WellFormed st'.mem space') ∧
    ∀ (t : Term) (i : ℕ), t.WellFormed st.mem space → t.isBoxed = true →
      i < refCount (st.mem t.addr) → (t.child st.mem i).WellFormed st.mem space := by
  refine ⟨fun pairs => ⟨buildsMap_mapFromPairs hst pairs, fun hpairs => ?_⟩,
    fun m k v hm hmap => ?_, fun n t ⟨d, hmeans⟩ hdepth => ?_,
    fun dst fuel ts ts' st' htop hbound hcap hapart hts hrun => ?_,
    fun t i ht hbox hi => ?_⟩
  · obtain ⟨wds, hwds⟩ := exists_pairMeans hpairs
    exact (makes_mapFromPairs hst hwds).givesWellFormed
  · obtain ⟨d, hmeans⟩ := hm
    obtain ⟨get, rfl⟩ := hmeans.denotes.of_map hmap
    refine ⟨buildsMap_mapPut hst hmeans.valid (hmeans.denotes.map_inv hmeans.valid).1 k v, ?_⟩
    rintro hk ⟨dv, hv⟩
    exact (makes_mapPut hst hmeans hk hv).givesWellFormed
  · exact (makes_copyTerm hst hmeans hdepth).givesWellFormed
  · exact evacuate_wellFormed hst.objects htop hbound hcap hapart hts hrun
  · exact ht.child hst.objects (ht.elim fun _ h => h.valid) hbox hi

end Closed

/-- Three pairs with two keys. -/
def threePairs : List (Term × Term) :=
  [(Term.int 2, Term.int 20), (Term.int 1, Term.int 10), (Term.int 2, Term.int 21)]

/-- A map of two keys, and the same map with a third one. -/
theorem threePairs_found :
    ∃ m st m' st', (Heap.mapFromPairs threePairs sixteenWords).1 = .ok m st ∧
      m.mapGet st.mem (Term.int 2) = some (Term.int 21) ∧
      Heap.mapPut m (Term.int 3) (Term.int 30) st = .ok m' st' ∧
      m'.mapGet st'.mem (Term.int 3) = some (Term.int 30) ∧
      m'.mapGet st'.mem (Term.int 2) = some (Term.int 21) := by
  have hint : ∀ w, (Term.int w).isBoxed = false → (Term.int w).Valid ∅ ∧
      (Term.int w).WellFormed sixteenWords.mem ∅ := fun w hbox =>
    have hvalid : (Term.int w).Valid ∅ := Term.valid_int w
    ⟨hvalid, _, hvalid, Term.denotes_immediate hvalid.1 hbox⟩
  have hpairs : ∀ kv ∈ threePairs, kv.1.Valid ∅ ∧ kv.2.WellFormed sixteenWords.mem ∅ := by
    simp only [threePairs, List.forall_mem_cons]
    exact ⟨⟨(hint 2 rfl).1, (hint 20 rfl).2⟩, ⟨(hint 1 rfl).1, (hint 10 rfl).2⟩,
      ⟨(hint 2 rfl).1, (hint 21 rfl).2⟩, fun _ h => absurd h List.not_mem_nil⟩
  obtain ⟨hbuilds, hgives⟩ := (flat_maps_are_finite_maps sixteenWords_holds).1 threePairs
  obtain ⟨m, st, hrun⟩ := hbuilds.room (by decide) (by decide)
  have hfound := hbuilds.found m st hrun
  obtain ⟨space, hgrow, hm⟩ := hgives hpairs m st hrun
  have hput := ((flat_maps_are_finite_maps hgrow.holds).2.1 m (Term.int 3) (Term.int 30) hm
    (hbuilds.sorted m st hrun).kind).1
  have hroom : st.heap.top + (1 + 2 * (insert (Term.int 3) (mapKeys st.mem m)).card) ≤
      st.heap.cap := by
    have hexact := @Heap.mapFromPairs_room threePairs (by decide) sixteenWords (by decide)
    rw [hexact] at hrun
    cases hrun
    decide
  obtain ⟨m', st', hrun'⟩ := hput.room (by decide) hroom
  refine ⟨m, st, m', st', hrun, (hfound _).trans (by decide), hrun', ?_, ?_⟩
  · rw [hput.found m' st' hrun', Function.update_self]
  · rw [hput.found m' st' hrun', Function.update_of_ne (by decide), hfound]
    decide

end Yggdrasil
