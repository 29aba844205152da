import Mathlib.Data.List.GetD
import Yggdrasil.Term.Images

/-!
# What the builders make

Every builder leaves the existing objects alone, whether it succeeds or not. What it returns
denotes what its arguments say.
-/

namespace Yggdrasil

open Evac

variable {st st' : Store} {space space' : Set ℕ} {t : Term} {d : Datum}

/-- Allocation leaves the existing objects alone. -/
theorem Store.Grows.agree (h : st.Grows st' space space') (hst : st.Holds space) :
    Agree st.mem st'.mem space := fun _ ha _ hj => h.frame _ (hst.outside ha hj)

/-- A computation that adds objects at most, and returns a term that means `d`. -/
def Makes {ε : Type} (space : Set ℕ) (d : Datum) (f : EStateM ε Store Term) (st : Store) : Prop :=
  EStateM.Ends (fun _ st' => ∃ space', st.Grows st' space space')
    (fun t st' => ∃ space', st.Grows st' space space' ∧ t.Means st'.mem space' d) f st

/-- A builder makes what can be read back from its result. -/
private theorem Builds.makes {f : HeapM Term} (hf : Builds space f) (hst : st.Holds space)
    (h : ∀ t st' space', f st = .ok t st' → st.Grows st' space space' → t.Valid space' →
      t.Denotes st'.mem d) : Makes space d f st := by
  have hends := hf st hst
  unfold Makes EStateM.Ends
  cases hrun : f st with
  | ok t st' =>
    obtain ⟨space', hgrow, hvalid⟩ := hends.ok hrun
    exact ⟨space', hgrow, hvalid t rfl, h t st' space' hrun hgrow (hvalid t rfl)⟩
  | error e st' =>
    obtain ⟨space', hgrow, -⟩ := hends.error hrun
    exact ⟨space', hgrow⟩

/-- What a successful builder of one object of words has done. -/
private theorem write_ok {n : ℕ} {ws : List Word}
    (h : (do let p ← Heap.alloc n; Heap.write p ws; return Term.ofAddr p : HeapM Term) st =
      .ok t st') :
    st.heap.top + n ≤ st.heap.cap ∧ t = Term.ofAddr (st.heap.base + st.heap.top) ∧
      st'.mem = writeWords st.mem (st.heap.base + st.heap.top) ws := by
  simp only [bind, EStateM.bind, Heap.alloc, Heap.write, pure, EStateM.pure] at h
  split at h
  · rename_i hok
    split at hok
    · cases hok
    · cases hok
      cases h
      exact ⟨by omega, rfl, rfl⟩
  · cases h

private theorem kind_ofAddr {mem : Mem} {p : ℕ} (hp : p < 2 ^ 61) {b : Box}
    (hb : boxKind (mem p) = some b) : (Term.ofAddr p).kind mem = some b.kind :=
  Term.kind_of_boxKind (Term.isBoxed_ofAddr p) (by rwa [Term.addr_ofAddr hp])

private theorem valid_of_means {ts : List Term} {ds : List Datum}
    (h : List.Forall₂ (Term.Means st.mem space) ts ds) : ∀ t ∈ ts, t.Valid space := by
  induction h with
  | nil => exact fun t ht => absurd ht List.not_mem_nil
  | cons hmeans _ ih =>
    intro t ht
    rcases List.mem_cons.mp ht with rfl | ht
    · exact hmeans.valid
    · exact ih t ht

/-- `tuple` makes the tuple of its elements. -/
theorem makes_tuple (hst : st.Holds space) {elems : List Term} {ds : List Datum}
    (h : List.Forall₂ (Term.Means st.mem space) elems ds) :
    Makes space (.tuple ds) (Heap.tuple elems) st := by
  have hlen := h.length_eq
  refine (builds_tuple (valid_of_means h)).makes hst fun t st' space' hrun hgrow ht => ?_
  obtain ⟨hroom, rfl, hmem⟩ := write_ok hrun
  have hcap := hst.cap_lt
  have hbound := hst.bound
  have hp : st.heap.base + st.heap.top < 2 ^ 61 := by omega
  have haddr := Term.addr_ofAddr hp
  have hhead : st'.mem (st.heap.base + st.heap.top) = Heap.headerWord elems.length kindTuple := by
    rw [hmem, writeWords_head]
  have hkind : (Term.ofAddr (st.heap.base + st.heap.top)).kind st'.mem = some .tuple :=
    kind_ofAddr hp (hhead ▸ boxKind_tuple)
  have harity : (Term.ofAddr (st.heap.base + st.heap.top)).tupleArity st'.mem = ds.length := by
    rw [Term.tupleArity, Term.headerLen, Term.header, haddr, hhead, ← hlen]
    exact headerArity_headerWord (by omega) (by decide)
  have helem : ∀ i (hi : i < elems.length),
      (Term.ofAddr (st.heap.base + st.heap.top)).tupleElem st'.mem i = elems[i] := by
    intro i hi
    rw [Term.tupleElem, haddr, Nat.add_assoc, Nat.add_comm 1 i, hmem,
      writeWords_inside _ _ (by
        rw [List.getElem?_cons_succ, List.getElem?_map, List.getElem?_eq_getElem hi,
          Option.map_some])]
  have hparts : ∀ i < (Term.ofAddr (st.heap.base + st.heap.top)).tupleArity st'.mem,
      ((Term.ofAddr (st.heap.base + st.heap.top)).tupleElem st'.mem i).Denotes st'.mem
        (ds.getD i default) := by
    intro i hi
    rw [harity] at hi
    rw [helem i (by omega), List.getD_eq_getElem _ _ hi]
    have hmeans := h.get (i := i) (by omega) hi
    exact ((hgrow.agree hst).denotes hst.objects hmeans.valid).mpr hmeans.denotes
  have hden := Term.denotes_tuple hgrow.holds.objects ht hkind hparts
  have hds : (List.range ds.length).map (ds.getD · default) = ds :=
    List.ext_getElem (by simp) fun i _ hi => by
      rw [List.getElem_map, List.getElem_range, List.getD_eq_getElem _ _ hi]
  rwa [harity, hds] at hden

/-- `cons` makes the list with one more element. -/
theorem makes_cons (hst : st.Holds space) {hd tl : Term} {dh dt : Datum}
    (hh : hd.Means st.mem space dh) (hl : tl.Means st.mem space dt) :
    Makes space (.cons dh dt) (Heap.cons hd tl) st := by
  refine (builds_cons hh.valid hl.valid).makes hst fun t st' space' hrun hgrow ht => ?_
  obtain ⟨hroom, rfl, hmem⟩ := write_ok hrun
  have hbound := hst.bound
  have hag := hgrow.agree hst
  have hp : st.heap.base + st.heap.top < 2 ^ 61 := by omega
  have haddr := Term.addr_ofAddr hp
  have hkind : (Term.ofAddr (st.heap.base + st.heap.top)).kind st'.mem = some .cons :=
    @kind_ofAddr st'.mem _ hp .cons (by rw [hmem, writeWords_head, boxKind_cons])
  have hhead : (Term.ofAddr (st.heap.base + st.heap.top)).head st'.mem = hd := by
    rw [Term.head, haddr, hmem, writeWords_inside _ _ (by rfl)]
  have htail : (Term.ofAddr (st.heap.base + st.heap.top)).tail st'.mem = tl := by
    rw [Term.tail, haddr, hmem, writeWords_inside _ _ (by rfl)]
  refine Term.denotes_cons hgrow.holds.objects ht hkind ?_ ?_
  · rw [hhead]
    exact (hag.denotes hst.objects hh.valid).mpr hh.denotes
  · rw [htail]
    exact (hag.denotes hst.objects hl.valid).mpr hl.denotes

/-- `binary` makes the binary of its bytes. -/
theorem makes_binary (hst : st.Holds space) (data : List UInt8) :
    Makes space (.binary data) (Heap.binary data) st := by
  refine (builds_binary data).makes hst fun t st' space' hrun hgrow ht => ?_
  have hcap := hst.cap_lt
  have hbound := hst.bound
  by_cases hfull : st.heap.top + (1 + (data.length + 7) / 8) > st.heap.cap
  · simp [Heap.binary, Heap.alloc, bind, EStateM.bind, if_pos hfull] at hrun
  · simp only [Heap.binary, Heap.alloc, bind, EStateM.bind, if_neg hfull, Heap.write,
      Heap.writeData, pure, EStateM.pure, EStateM.Result.ok.injEq] at hrun
    obtain ⟨rfl, rfl⟩ := hrun
    dsimp only
    set p := st.heap.base + st.heap.top with hp
    have hlt : p < 2 ^ 61 := by omega
    have haddr := Term.addr_ofAddr hlt
    set mem' := writeBytes (writeWords st.mem p [Heap.headerWord data.length kindBinary]) (p + 1)
      data with hmem'
    have hhead : mem' p = Heap.headerWord data.length kindBinary := by
      rw [hmem', writeBytes, if_neg (by omega), writeWords_head]
    have hkind : (Term.ofAddr p).kind mem' = some .binary :=
      kind_ofAddr hlt (hhead ▸ boxKind_binary)
    have hlen : (Term.ofAddr p).headerLen mem' = data.length := by
      rw [Term.headerLen, Term.header, haddr, hhead]
      exact headerArity_headerWord (by omega) (by decide)
    have hbytes : (Term.ofAddr p).binBytes mem' = data := by
      rw [Term.binBytes, haddr, hlen, hmem', readBytes_writeBytes]
    have hden := Term.denotes_binary ht hkind
    rwa [hbytes] at hden

/-- Make one term, then another with it. -/
theorem Makes.bind {ε : Type} {f : EStateM ε Store Term} {g : Term → EStateM ε Store Term}
    {d' : Datum} (hst : st.Holds space) (hf : Makes space d f st)
    (hg : ∀ t st₁ space₁, st.Grows st₁ space space₁ → Agree st.mem st₁.mem space →
      t.Means st₁.mem space₁ d → Makes space₁ d' (g t) st₁) : Makes space d' (f >>= g) st := by
  refine EStateM.Ends.bind hf ?_
  rintro t st₁ ⟨space₁, hgrow, ht⟩
  refine (hg t st₁ space₁ hgrow (hgrow.agree hst) ht).mono ?_ ?_
  · rintro _ st₂ ⟨space₂, hgrow'⟩
    exact ⟨space₂, hgrow.trans hgrow'⟩
  · rintro t' st₂ ⟨space₂, hgrow', ht'⟩
    exact ⟨space₂, hgrow.trans hgrow', ht'⟩

/-- The list with some elements. -/
def Datum.list (ds : List Datum) : Datum := ds.foldr .cons (.immediate Term.nil.word)

/-- `list` makes the list of its elements. -/
theorem makes_list (hst : st.Holds space) {elems : List Term} {ds : List Datum}
    (h : List.Forall₂ (Term.Means st.mem space) elems ds) :
    Makes space (.list ds) (Heap.list elems) st := by
  induction h with
  | nil =>
    have hnil : Term.nil.Valid space := Term.valid_nil
    exact ⟨space, .refl hst, hnil, Term.denotes_immediate hnil.1 rfl⟩
  | cons hmeans _ ih =>
    refine Makes.bind hst ih fun t st₁ space₁ hgrow hag ht => ?_
    exact makes_cons hgrow.holds (hmeans.mono hst.objects hag hgrow.sub) ht

/-! ### Maps -/

/-- Builders that fail with map errors as well. -/
private theorem makes_of_built {f : MapM Term}
    (hf : EStateM.Ends (fun _ st' => Built st space none st')
      (fun t st' => Built st space (some t) st') f st)
    (h : ∀ t st' space', f st = .ok t st' → st.Grows st' space space' → t.Valid space' →
      t.Denotes st'.mem d) : Makes space d f st := by
  unfold Makes EStateM.Ends
  cases hrun : f st with
  | ok t st' =>
    obtain ⟨space', hgrow, hvalid⟩ := hf.ok hrun
    exact ⟨space', hgrow, hvalid t rfl, h t st' space' hrun hgrow (hvalid t rfl)⟩
  | error e st' =>
    obtain ⟨space', hgrow, -⟩ := hf.error hrun
    exact ⟨space', hgrow⟩

/-- The pair of a valid key and a term that means the second part of `wd`. -/
structure PairMeans (mem : Mem) (space : Set ℕ) (kv : Term × Term) (wd : Word × Datum) : Prop where
  /-- The key is valid. -/
  key : kv.1.Valid space
  /-- It has the given word. -/
  word : kv.1.word = wd.1
  /-- The value means the datum. -/
  value : kv.2.Means mem space wd.2

private theorem rel_lastValue {mem : Mem} {pairs : List (Term × Term)} {wds : List (Word × Datum)}
    (h : List.Forall₂ (PairMeans mem space) pairs wds) (w : Word) :
    Option.Rel (Term.Means mem space) (lastValue pairs ⟨w⟩) (lastValue wds w) := by
  have hrev : List.Forall₂ (PairMeans mem space) pairs.reverse wds.reverse := List.rel_reverse h
  rw [lastValue, lastValue]
  generalize pairs.reverse = pairs at hrev
  generalize wds.reverse = wds at hrev
  induction hrev with
  | nil => exact .none
  | @cons kv wd pairs wds hpair _ ih =>
    have hkey : kv.1 = ⟨w⟩ ↔ wd.1 = w := by
      rw [← hpair.word]
      exact ⟨fun h => by rw [h], fun h => congrArg Term.mk h⟩
    by_cases heq : wd.1 = w
    · rw [List.find?_cons_of_pos (by simpa using hkey.mpr heq),
        List.find?_cons_of_pos (by simpa using heq)]
      exact .some hpair.value
    · rw [List.find?_cons_of_neg (by simpa using fun h => heq (hkey.mp h)),
        List.find?_cons_of_neg (by simpa using heq)]
      exact ih

private theorem valid_of_pairMeans {mem : Mem} {pairs : List (Term × Term)}
    {wds : List (Word × Datum)} (h : List.Forall₂ (PairMeans mem space) pairs wds) :
    ∀ kv ∈ pairs, kv.1.Valid space ∧ kv.2.Valid space := by
  induction h with
  | nil => exact fun kv hkv => absurd hkv List.not_mem_nil
  | cons hpair _ ih =>
    intro kv hkv
    rcases List.mem_cons.mp hkv with rfl | hkv
    · exact ⟨hpair.key, hpair.value.valid⟩
    · exact ih kv hkv

private theorem Store.Grows.rel_denotes {v : Option Term} {o : Option Datum}
    (hgrow : st.Grows st' space space') (hst : st.Holds space)
    (h : Option.Rel (Term.Means st.mem space) v o) :
    Option.Rel (Term.Denotes st'.mem) v o := by
  cases h with
  | none => exact .none
  | some hmeans =>
    exact .some (((hgrow.agree hst).denotes hst.objects hmeans.valid).mpr hmeans.denotes)

/-- `map_from_pairs` makes the map of its pairs, where the last one for a key wins. -/
theorem makes_mapFromPairs (hst : st.Holds space) {pairs : List (Term × Term)}
    {wds : List (Word × Datum)} (h : List.Forall₂ (PairMeans st.mem space) pairs wds) :
    Makes space (.map (lastValue wds)) (fun st => (Heap.mapFromPairs pairs st).1) st := by
  refine makes_of_built (mapFromPairs_built hst (valid_of_pairMeans h))
    fun t st' space' hrun hgrow ht => ?_
  obtain ⟨-, hs, -⟩ := Heap.mapFromPairs_ok hst.bound hrun
  refine Term.denotes_map hgrow.holds.objects ht hs fun w => ?_
  rw [Heap.mapGet_of_mapFromPairs hst.bound hrun]
  exact hgrow.rel_denotes hst (rel_lastValue h w)

/-- What a map finds means what the map says. -/
theorem Term.Means.mapGet {mem : Mem} {get : Word → Option Datum} (hspace : TermSpace mem space)
    (h : t.Means mem space (.map get)) (w : Word) :
    Option.Rel (Term.Means mem space) (t.mapGet mem ⟨w⟩) (get w) := by
  obtain ⟨hs, hrel⟩ := h.denotes.map_inv h.valid
  have hrel := hrel w
  have hvalid := fun v => @TermSpace.valid_mapGet mem space t hspace h.valid hs.kind ⟨w⟩ v
  generalize t.mapGet mem ⟨w⟩ = v at hrel hvalid
  generalize get w = o at hrel
  cases hrel with
  | none => exact .none
  | some hd => exact .some ⟨hvalid _ rfl, hd⟩

/-- Maps with one more pair. -/
theorem makes_mapPut (hst : st.Holds space) {m k v : Term} {get : Word → Option Datum}
    {dv : Datum} (hm : m.Means st.mem space (.map get)) (hk : k.Valid space)
    (hv : v.Means st.mem space dv) :
    Makes space (.map (Function.update get k.word (some dv))) (Heap.mapPut m k v) st := by
  obtain ⟨hsm, -⟩ := hm.denotes.map_inv hm.valid
  refine makes_of_built (mapPut_built hst hm.valid hsm.kind hk hv.valid)
    fun t st' space' hrun hgrow ht => ?_
  rw [Heap.mapPut] at hrun
  split at hrun
  · cases hrun
  · obtain ⟨-, hs, -⟩ := Heap.mapFromPairs_ok hst.bound hrun
    refine Term.denotes_map hgrow.holds.objects ht hs fun w => hgrow.rel_denotes hst ?_
    rw [Heap.mapGet_of_mapFromPairs hst.bound hrun, lastValue_concat]
    by_cases heq : k = ⟨w⟩
    · rw [if_pos heq, show w = k.word by rw [heq], Function.update_self]
      exact .some hv
    · rw [if_neg heq, Function.update_of_ne (fun h => heq (by rw [h])), ← hsm.mapGet_eq_lastValue]
      exact hm.mapGet hst.objects w

/-- A copy adds the objects it is made of. -/
private theorem Copied.grows {w : ℕ} {t' : Term} (h : Copied st w t t' st')
    (hst : st.Holds space) : ∃ new, t'.Valid new ∧ st.Grows st' space (space ∪ new) := by
  obtain ⟨new, hregion, hvalid⟩ := h.made
  have hheap := h.advanced.heap
  have hfits := h.advanced.fits
  have hnext : next st.heap = st.heap.base + st.heap.top := rfl
  have hframe : ∀ c, c < st.heap.base + st.heap.top ∨ st.heap.base + st.heap.cap ≤ c →
      st'.mem c = st.mem c := fun c hc => h.advanced.frame c (by omega)
  have hag : Agree st.mem st'.mem space := fun _ ha _ hj => hframe _ (hst.outside ha hj)
  have hsize : ∀ a ∈ space, sizeAt st'.mem a = sizeAt st.mem a := fun a ha => by
    rw [sizeAt, hag.header hst.objects ha, sizeAt]
  refine ⟨new, hvalid, by rw [hheap], by rw [hheap], by simp [hheap], hframe,
    Set.subset_union_left, fun a ha hna => ?_, ⟨?_, fun a ha => ?_, ?_, ?_, ?_⟩⟩
  · have hin := hregion.within a (ha.resolve_left hna)
    omega
  · refine (hst.objects.congr hag).union hregion.objects fun a ha b hb => ?_
    have hclear := hst.clear a ha
    have hin := hregion.within b hb
    rw [hsize a ha]
    omega
  · rw [hheap]
    dsimp only
    rcases ha with ha | ha
    · have hclear := hst.clear a ha
      rw [hsize a ha]
      omega
    · have hin := hregion.within a ha
      omega
  · rw [hheap]
    exact hfits
  · rw [hheap]
    exact hst.bound
  · rw [hheap]
    exact hst.cap_lt

/-- A copy that ran out of room has added nothing. -/
private theorem Store.Stuck.grows (h : st.Stuck (next st.heap) st') (hst : st.Holds space) :
    st.Grows st' space space := by
  have hag : Agree st.mem st'.mem space := fun _ ha _ hj => h.frame _ (hst.outside ha hj)
  have htop := h.top_ge
  refine ⟨h.base, h.cap, h.top_ge, h.frame, subset_rfl, fun a ha hna => absurd ha hna,
    ⟨hst.objects.congr hag, fun a ha => ?_, h.top_le, ?_, ?_⟩⟩
  · have hclear := hst.clear a ha
    rw [sizeAt, hag.header hst.objects ha, h.base, h.cap]
    rw [sizeAt] at hclear
    omega
  · rw [h.base, h.cap]
    exact hst.bound
  · rw [h.cap]
    exact hst.cap_lt

/-- `copy_term` makes the value of the term that is copied. -/
theorem makes_copyTerm (hst : st.Holds space) {n : ℕ} {t : Term} (ht : t.Means st.mem space d)
    (hdepth : DepthLt st.mem n t) : Makes space d (copyTerm n t) st := by
  have hapart : st.Apart (next st.heap) space :=
    ⟨hst.objects, hst.clear, Nat.le_refl _, hst.top_le, hst.bound⟩
  unfold Makes EStateM.Ends
  rcases copyTerm_copier space n st t hapart ht.valid hdepth with
    ⟨-, t', st', hrun, hcopied⟩ | ⟨-, st', hrun, hstuck⟩
  · rw [hrun]
    obtain ⟨new, hvalid, hgrow⟩ := hcopied.grows hst
    refine ⟨_, hgrow, hvalid.mono Set.subset_union_right, ?_⟩
    exact hcopied.denotes hst.objects ht.valid ht.denotes
  · rw [hrun]
    exact ⟨space, hstuck.grows hst⟩

/-- An empty arena of sixteen words. -/
def sixteenWords : Store := ⟨fun _ => 0, ⟨100, 16, 0⟩⟩

/-- Nothing stands in the empty arena. -/
theorem sixteenWords_holds : sixteenWords.Holds ∅ :=
  ⟨(@region_empty sixteenWords.mem 0 0).objects, fun _ h => h.elim, by decide, by decide,
    by decide⟩

end Yggdrasil
