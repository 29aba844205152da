import Yggdrasil.Term.Maps
import Yggdrasil.Term.Value

/-!
# What terms denote

The value of a term says how it is laid out: a map is a row of keys and a row of values. What
it denotes is more abstract: a map is the function from its keys to what its values denote.
The two agree on canonical values, in which the keys of every map increase.
-/

namespace Yggdrasil

open LastWins

/-- The data of programs. -/
inductive Datum where
  /-- An immediate. -/
  | immediate (w : Word)
  /-- A tuple. -/
  | tuple (elems : List Datum)
  /-- A list cell. -/
  | cons (head tail : Datum)
  /-- A binary. -/
  | binary (bytes : List UInt8)
  /-- A map, from the words of its keys. -/
  | map (get : Word → Option Datum)
  deriving Inhabited

/-- What stands in the second row where the first has `k`. -/
def rowLookup {α : Type} (keys : List Word) (vals : List α) (k : Word) : Option α :=
  ((keys.zip vals).find? fun kv => kv.1 = k).map Prod.snd

namespace Value

/-- What a value denotes. -/
def datum : Value → Datum
  | .immediate w => .immediate w
  | .tuple elems => .tuple (elems.map datum)
  | .cons head tail => .cons head.datum tail.datum
  | .binary bytes => .binary bytes
  | .map keys vals => .map (rowLookup keys (vals.map datum))

/-- The keys of every map in the value increase, and each has a value. -/
inductive Canonical : Value → Prop
  /-- Immediates. -/
  | immediate (w : Word) : Canonical (.immediate w)
  /-- Tuples of canonical values. -/
  | tuple {elems : List Value} : (∀ v ∈ elems, Canonical v) → Canonical (.tuple elems)
  /-- List cells of canonical values. -/
  | cons {head tail : Value} : Canonical head → Canonical tail → Canonical (.cons head tail)
  /-- Binaries. -/
  | binary (bytes : List UInt8) : Canonical (.binary bytes)
  /-- Maps with increasing keys and canonical values. -/
  | map {keys : List Word} {vals : List Value} : keys.Pairwise (· < ·) →
    keys.length = vals.length → (∀ v ∈ vals, Canonical v) → Canonical (.map keys vals)

end Value

section Rows

variable {α : Type} {keys keys' : List Word} {vals vals' : List α} {k : Word}

private theorem rowLookup_isSome (hlen : keys.length = vals.length) :
    (rowLookup keys vals k).isSome ↔ k ∈ keys := by
  rw [rowLookup, Option.isSome_map, List.find?_isSome]
  constructor
  · rintro ⟨⟨k', v⟩, hmem, hk⟩
    cases of_decide_eq_true hk
    exact (List.of_mem_zip hmem).1
  · intro hk
    obtain ⟨i, hi, rfl⟩ := List.mem_iff_getElem.mp hk
    refine ⟨(keys[i], vals[i]), ?_, by simp⟩
    exact List.mem_iff_getElem.mpr ⟨i, by simp; omega, by simp⟩

private theorem rowLookup_getElem (hkeys : keys.Pairwise (· < ·)) {i : ℕ} {v : α}
    (hk : keys[i]? = some k) (hv : vals[i]? = some v) : rowLookup keys vals k = some v := by
  obtain ⟨hi, rfl⟩ := List.getElem?_eq_some_iff.mp hk
  obtain ⟨hi', rfl⟩ := List.getElem?_eq_some_iff.mp hv
  have hfind : (keys.zip vals).find? (fun kv => kv.1 = keys[i]) = some (keys[i], vals[i]) := by
    refine List.find?_eq_some_iff_getElem.mpr ⟨by simp, i, by simp; omega, by simp, ?_⟩
    intro j hj
    have hlt := List.pairwise_iff_getElem.mp hkeys j i (by omega) hi hj
    have hne : keys[j] ≠ keys[i] := fun heq => BitVec.lt_irrefl _ (heq ▸ hlt)
    simpa using hne
  rw [rowLookup, hfind, Option.map_some]

private theorem keys_eq (hkeys : keys.Pairwise (· < ·)) (hkeys' : keys'.Pairwise (· < ·))
    (h : ∀ k, k ∈ keys ↔ k ∈ keys') : keys = keys' := by
  have hinc : ∀ {keys : List Word}, keys.Pairwise (· < ·) → Increasing BitVec.toNat keys :=
    fun h => h.imp BitVec.lt_def.mp
  exact (hinc hkeys).ext_mem (hinc hkeys') h

end Rows

namespace Value

/-- Canonical values that denote the same are the same. -/
theorem Canonical.datum_inj {v v' : Value} (h : v.Canonical) (h' : v'.Canonical)
    (heq : v.datum = v'.datum) : v = v' := by
  have hlist : ∀ {vs vs' : List Value},
      (∀ v ∈ vs, ∀ v', v'.Canonical → v.datum = v'.datum → v = v') →
      (∀ v' ∈ vs', v'.Canonical) → vs.map datum = vs'.map datum → vs = vs' := by
    intro vs
    induction vs with
    | nil =>
      intro vs' _ _ hmap
      exact (List.map_eq_nil_iff.mp hmap.symm).symm
    | cons v vs ih =>
      intro vs' hinj hcanon hmap
      cases vs' with
      | nil => cases hmap
      | cons v' vs' =>
        obtain ⟨hhead, htail⟩ := List.cons.inj hmap
        rw [hinj v List.mem_cons_self v' (hcanon v' List.mem_cons_self) hhead,
          ih (fun v hv => hinj v (List.mem_cons_of_mem _ hv))
            (fun v hv => hcanon v (List.mem_cons_of_mem _ hv)) htail]
  induction h generalizing v' with
  | immediate w =>
    cases h' <;> simp only [datum, reduceCtorEq, Datum.immediate.injEq] at heq
    rw [heq]
  | tuple helems ih =>
    cases h' with
    | tuple helems' =>
      simp only [datum, Datum.tuple.injEq] at heq
      rw [hlist (fun v hv v' hv' hd => ih v hv hv' hd) helems' heq]
    | _ => simp only [datum, reduceCtorEq] at heq
  | cons hh ht ihh iht =>
    cases h' with
    | cons hh' ht' =>
      simp only [datum, Datum.cons.injEq] at heq
      rw [ihh hh' heq.1, iht ht' heq.2]
    | _ => simp only [datum, reduceCtorEq] at heq
  | binary bytes =>
    cases h' <;> simp only [datum, reduceCtorEq, Datum.binary.injEq] at heq
    rw [heq]
  | @map keys vals hkeys hlen hvals ih =>
    cases h' with
    | @map keys' vals' hkeys' hlen' hvals' =>
      simp only [datum, Datum.map.injEq] at heq
      have hmem : ∀ k, k ∈ keys ↔ k ∈ keys' := fun k => by
        rw [← @rowLookup_isSome _ keys (vals.map datum) k (by simpa using hlen), heq,
          rowLookup_isSome (by simpa using hlen')]
      cases keys_eq hkeys hkeys' hmem
      have hmap : vals.map datum = vals'.map datum := by
        refine List.ext_getElem (by simp; omega) fun i hi hi' => ?_
        have hk : keys[i]? = some _ := List.getElem?_eq_getElem (by simp at hi; omega)
        have hv := rowLookup_getElem hkeys hk (List.getElem?_eq_getElem hi)
        have hv' := rowLookup_getElem hkeys hk (List.getElem?_eq_getElem hi')
        rw [heq, hv'] at hv
        exact (Option.some.inj hv).symm
      rw [hlist (fun v hv v' hv' hd => ih v hv hv' hd) hvals' hmap]
    | _ => simp only [datum, reduceCtorEq] at heq

end Value

/-- Reading the term back gives a canonical value that denotes `d`. -/
def Term.Denotes (mem : Mem) (t : Term) (d : Datum) : Prop :=
  ∃ n, DepthLt mem n t ∧ (t.value mem n).Canonical ∧ (t.value mem n).datum = d

/-- A valid term that denotes `d`. -/
structure Term.Means (mem : Mem) (space : Set ℕ) (t : Term) (d : Datum) : Prop where
  /-- It is an immediate or points into the space. -/
  valid : t.Valid space
  /-- It is read back as `d`. -/
  denotes : t.Denotes mem d

/-- A valid term that denotes something: reading it ends, and the keys of its maps increase. -/
def Term.WellFormed (mem : Mem) (space : Set ℕ) (t : Term) : Prop := ∃ d, t.Means mem space d

section Denotes

variable {mem mem' : Mem} {space : Set ℕ} {t : Term} {d d' : Datum}

/-- Immediates denote themselves. -/
theorem Term.denotes_immediate (htag : t.tag ≠ kindFwd) (hbox : t.isBoxed = false) :
    t.Denotes mem (.immediate t.word) := by
  refine ⟨1, fun hboxed => ?_, ?_⟩
  · rw [hbox] at hboxed
    cases hboxed
  · rw [Term.value_immediate hbox htag]
    exact ⟨.immediate _, by rw [Value.datum]⟩

variable (hspace : TermSpace mem space) (ht : t.Valid space)

include hspace ht

/-- Reading further than necessary gives the same. -/
private theorem Term.Denotes.eventually (h : t.Denotes mem d) :
    ∃ n, ∀ k, n ≤ k →
      DepthLt mem k t ∧ (t.value mem k).Canonical ∧ (t.value mem k).datum = d := by
  obtain ⟨n, hdepth, hcanon, hdatum⟩ := h
  refine ⟨n, fun k hk => ?_⟩
  rw [Term.value_eq_of_le hspace ht hdepth hk]
  exact ⟨hdepth.mono hk, hcanon, hdatum⟩

/-- A term denotes one datum only. -/
theorem Term.Denotes.unique (h : t.Denotes mem d) (h' : t.Denotes mem d') : d = d' := by
  obtain ⟨n, hn⟩ := h.eventually hspace ht
  obtain ⟨n', hn'⟩ := h'.eventually hspace ht
  rw [← (hn (max n n') (Nat.le_max_left ..)).2.2, ← (hn' (max n n') (Nat.le_max_right ..)).2.2]

/-- Terms denote the same as long as their objects keep their words. -/
theorem Agree.denotes (hag : Agree mem mem' space) : t.Denotes mem' d ↔ t.Denotes mem d := by
  refine exists_congr fun n => ?_
  rw [hag.depthLt hspace ht, hag.value hspace ht]

omit ht in
/-- They mean the same in a larger space then. -/
theorem Term.Means.mono {space' : Set ℕ} (h : t.Means mem space d)
    (hag : Agree mem mem' space) (hsub : space ⊆ space') : t.Means mem' space' d :=
  ⟨h.valid.mono hsub, (hag.denotes hspace h.valid).mpr h.denotes⟩

omit ht in
/-- Finitely many terms can be read together. -/
private theorem exists_depth {f : ℕ → Term} {data : ℕ → Datum} {len : ℕ}
    (hvalid : ∀ i < len, (f i).Valid space) (h : ∀ i < len, (f i).Denotes mem (data i)) :
    ∃ n, ∀ i < len, DepthLt mem n (f i) ∧ ((f i).value mem n).Canonical ∧
      ((f i).value mem n).datum = data i := by
  suffices hall : ∃ n, ∀ k, n ≤ k → ∀ i < len, DepthLt mem k (f i) ∧
      ((f i).value mem k).Canonical ∧ ((f i).value mem k).datum = data i by
    obtain ⟨n, hn⟩ := hall
    exact ⟨n, hn n (Nat.le_refl n)⟩
  induction len with
  | zero => exact ⟨0, fun k _ i hi => absurd hi (Nat.not_lt_zero i)⟩
  | succ len ih =>
    obtain ⟨n, hn⟩ := ih (fun i hi => hvalid i (by omega)) fun i hi => h i (by omega)
    obtain ⟨n', hn'⟩ := (h len (by omega)).eventually hspace (hvalid len (by omega))
    refine ⟨max n n', fun k hk i hi => ?_⟩
    rcases Nat.lt_or_eq_of_le (Nat.le_of_lt_succ hi) with hlt | rfl
    · exact hn k (by omega) i hlt
    · exact hn' k (by omega)

/-- A tuple denotes the tuple of what its elements denote. -/
theorem Term.denotes_tuple (hkind : t.kind mem = some .tuple) {data : ℕ → Datum}
    (h : ∀ i < t.tupleArity mem, (t.tupleElem mem i).Denotes mem (data i)) :
    t.Denotes mem (.tuple ((List.range (t.tupleArity mem)).map data)) := by
  obtain ⟨-, hb⟩ := @TermSpace.box_of_kind mem space t ht .tuple hkind
  have hbox := @TermSpace.isBoxed_of_kind mem space t ht .tuple hkind
  obtain ⟨n, hn⟩ := exists_depth hspace
    (fun i hi => hspace.valid_tupleElem ht hkind hi) h
  refine ⟨n + 1, (Term.depthLt_tuple hbox hb).mpr fun i hi => (hn i hi).1, ?_⟩
  rw [Term.value, hkind]
  refine ⟨.tuple fun v hv => ?_, ?_⟩
  · obtain ⟨i, hi, rfl⟩ := List.mem_map.mp hv
    exact (hn i (List.mem_range.mp hi)).2.1
  · rw [Value.datum, List.map_map]
    refine congrArg Datum.tuple (List.map_congr_left fun i hi => ?_)
    exact (hn i (List.mem_range.mp hi)).2.2

/-- A list cell denotes the cell of what its parts denote. -/
theorem Term.denotes_cons (hkind : t.kind mem = some .cons)
    (hh : (t.head mem).Denotes mem d) (hl : (t.tail mem).Denotes mem d') :
    t.Denotes mem (.cons d d') := by
  obtain ⟨-, hb⟩ := @TermSpace.box_of_kind mem space t ht .cons hkind
  obtain ⟨n, hn⟩ := hh.eventually hspace (hspace.valid_head ht hkind)
  obtain ⟨n', hn'⟩ := hl.eventually hspace (hspace.valid_tail ht hkind)
  obtain ⟨hdh, hch, hdatumh⟩ := hn (max n n') (Nat.le_max_left ..)
  obtain ⟨hdl, hcl, hdatuml⟩ := hn' (max n n') (Nat.le_max_right ..)
  have hbox := @TermSpace.isBoxed_of_kind mem space t ht .cons hkind
  refine ⟨max n n' + 1, (Term.depthLt_cons hbox hb).mpr ⟨hdh, hdl⟩, ?_⟩
  rw [Term.value, hkind]
  exact ⟨.cons hch hcl, by rw [Value.datum, hdatumh, hdatuml]⟩

omit hspace in
/-- A binary denotes its bytes. -/
theorem Term.denotes_binary (hkind : t.kind mem = some .binary) :
    t.Denotes mem (.binary (t.binBytes mem)) := by
  obtain ⟨-, hb⟩ := @TermSpace.box_of_kind mem space t ht .binary hkind
  refine ⟨1, fun _ i hi => ?_, ?_⟩
  · simp only [refCount, hb] at hi
    exact absurd hi (Nat.not_lt_zero i)
  · rw [Term.value, hkind]
    exact ⟨.binary _, by rw [Value.datum]⟩

omit hspace in
/-- What denotes a tuple is a tuple, whose elements denote the elements. -/
theorem Term.Denotes.tuple_inv {ds : List Datum} (h : t.Denotes mem (.tuple ds)) :
    t.kind mem = some .tuple ∧ t.tupleArity mem = ds.length ∧
      ∀ i d, ds[i]? = some d → (t.tupleElem mem i).Denotes mem d := by
  obtain ⟨n, hdepth, hcanon, hdatum⟩ := h
  obtain ⟨n, rfl⟩ := hdepth.exists_succ
  rw [Term.value] at hcanon hdatum
  split at hdatum <;> rename_i hkind
  case h_1 =>
    obtain ⟨-, hb⟩ := @TermSpace.box_of_kind mem space t ht .tuple hkind
    have hbox := @TermSpace.isBoxed_of_kind mem space t ht .tuple hkind
    rw [hkind] at hcanon
    rw [Value.datum, List.map_map, Datum.tuple.injEq] at hdatum
    subst hdatum
    refine ⟨hkind, by simp, fun i d hd => ?_⟩
    cases hcanon with
    | tuple helems =>
      have hi : i < t.tupleArity mem := by simpa using (List.getElem?_eq_some_iff.mp hd).1
      rw [List.getElem?_map, List.getElem?_range hi] at hd
      cases hd
      refine ⟨n, (Term.depthLt_tuple hbox hb).mp hdepth i hi, helems _ ?_, rfl⟩
      exact List.mem_map_of_mem (List.mem_range.mpr hi)
  all_goals simp [Value.datum] at hdatum

omit hspace in
/-- What denotes a list cell is a list cell, whose parts denote the parts. -/
theorem Term.Denotes.cons_inv (h : t.Denotes mem (.cons d d')) :
    t.kind mem = some .cons ∧ (t.head mem).Denotes mem d ∧ (t.tail mem).Denotes mem d' := by
  obtain ⟨n, hdepth, hcanon, hdatum⟩ := h
  obtain ⟨n, rfl⟩ := hdepth.exists_succ
  rw [Term.value] at hcanon hdatum
  split at hdatum <;> rename_i hkind
  case h_2 =>
    obtain ⟨-, hb⟩ := @TermSpace.box_of_kind mem space t ht .cons hkind
    have hbox := @TermSpace.isBoxed_of_kind mem space t ht .cons hkind
    obtain ⟨hdh, hdl⟩ := (Term.depthLt_cons hbox hb).mp hdepth
    rw [hkind] at hcanon
    rw [Value.datum, Datum.cons.injEq] at hdatum
    obtain ⟨rfl, rfl⟩ := hdatum
    cases hcanon with
    | cons hh hl => exact ⟨hkind, ⟨n, hdh, hh, rfl⟩, ⟨n, hdl, hl, rfl⟩⟩
  all_goals simp [Value.datum] at hdatum

/-- The parts of a well-formed term are well-formed. -/
theorem Term.WellFormed.child (h : t.WellFormed mem space) (hbox : t.isBoxed = true) {i : ℕ}
    (hi : i < refCount (mem t.addr)) : (t.child mem i).WellFormed mem space := by
  obtain ⟨-, -, n, hdepth, hcanon, -⟩ := h
  obtain ⟨n, rfl⟩ := hdepth.exists_succ
  refine ⟨_, hspace.valid_child ht hbox hi, n, hdepth hbox i hi, ?_, rfl⟩
  obtain ⟨b, hb⟩ := hspace.exists_box ht hbox
  have hkind := Term.kind_of_boxKind hbox hb
  rw [Term.value, hkind] at hcanon
  simp only [refCount, hb] at hi
  cases b with
  | tuple =>
    simp only [Term.child, refStart, hb, ← Nat.add_assoc]
    cases hcanon with
    | tuple hparts => exact hparts _ (List.mem_map_of_mem (List.mem_range.mpr hi))
  | cons =>
    simp only [Term.child, refStart, hb]
    cases hcanon with
    | cons hh hl =>
      have hi : i < 2 := hi
      obtain rfl | rfl : i = 0 ∨ i = 1 := by omega
      · exact hh
      · exact hl
  | binary => exact absurd hi (Nat.not_lt_zero i)
  | map =>
    simp only [Term.child, refStart, hb, ← Nat.add_assoc]
    cases hcanon with
    | map _ _ hvals => exact hvals _ (List.mem_map_of_mem (List.mem_range.mpr hi))

/-! ### Maps -/

omit hspace ht in
private theorem mapKeys_increasing (hs : SortedMap mem t) :
    ((List.range (t.mapArity mem)).map fun i => (t.mapKey mem i).word).Pairwise (· < ·) := by
  rw [List.pairwise_map, List.pairwise_iff_getElem]
  intro i j hi hj hij
  rw [List.length_range] at hi hj
  rw [List.getElem_range, List.getElem_range]
  exact hs.increasing i j hij hj

omit hspace ht in
/-- Looking a key up in the rows of a map is looking it up in the map. -/
private theorem rowLookup_map {α : Type} (hs : SortedMap mem t) (f : Term → α) (w : Word) :
    rowLookup ((List.range (t.mapArity mem)).map fun i => (t.mapKey mem i).word)
      ((List.range (t.mapArity mem)).map fun i => f (t.mapVal mem i)) w =
      (t.mapGet mem ⟨w⟩).map f := by
  rcases hs.mapGet_cases ⟨w⟩ with ⟨i, hi, hkey, hget⟩ | ⟨hne, hget⟩
  · rw [hget, Option.map_some]
    refine @rowLookup_getElem _ _ _ _ (mapKeys_increasing hs) i _ ?_ ?_
    · rw [List.getElem?_map, List.getElem?_range hi, Option.map_some, ← hkey]
    · rw [List.getElem?_map, List.getElem?_range hi, Option.map_some]
  · rw [hget, Option.map_none, ← Option.not_isSome_iff_eq_none,
      rowLookup_isSome (by simp only [List.length_map])]
    intro hmem
    obtain ⟨i, hi, hkey⟩ := List.mem_map.mp hmem
    exact hne i (List.mem_range.mp hi) (congrArg Term.mk hkey.symm)

/-- A sorted map denotes the function from its keys to what its values denote. -/
theorem Term.denotes_map (hs : SortedMap mem t) {get : Word → Option Datum}
    (h : ∀ w, Option.Rel (Term.Denotes mem) (t.mapGet mem ⟨w⟩) (get w)) :
    t.Denotes mem (.map get) := by
  obtain ⟨-, hb⟩ := @TermSpace.box_of_kind mem space t ht .map hs.kind
  have hval : ∀ i < t.mapArity mem, ∃ d, get (t.mapKey mem i).word = some d ∧
      (t.mapVal mem i).Denotes mem d := by
    intro i hi
    have hrel := h (t.mapKey mem i).word
    rw [hs.mapGet_key hi] at hrel
    generalize get (t.mapKey mem i).word = got at hrel
    cases hrel with
    | some hd => exact ⟨_, rfl, hd⟩
  choose! data hget hdenotes using hval
  obtain ⟨n, hn⟩ := exists_depth hspace (fun i hi => hspace.valid_mapVal ht hs.kind hi) hdenotes
  have hbox := @TermSpace.isBoxed_of_kind mem space t ht .map hs.kind
  refine ⟨n + 1, (Term.depthLt_map hbox hb).mpr fun i hi => (hn i hi).1, ?_⟩
  rw [Term.value, hs.kind]
  refine ⟨.map (mapKeys_increasing hs) (by simp) fun v hv => ?_, ?_⟩
  · obtain ⟨i, hi, rfl⟩ := List.mem_map.mp hv
    exact (hn i (List.mem_range.mp hi)).2.1
  · rw [Value.datum, List.map_map]
    refine congrArg Datum.map (funext fun w => ?_)
    refine (rowLookup_map hs (fun v => (v.value mem n).datum) w).trans ?_
    rcases hs.mapGet_cases ⟨w⟩ with ⟨i, hi, hkey, hfound⟩ | ⟨-, hnone⟩
    · rw [hfound, Option.map_some, (hn i hi).2.2, ← hget i hi, ← hkey]
    · have hrel := h w
      rw [hnone] at hrel ⊢
      generalize get w = got at hrel
      cases hrel
      rfl

omit hspace in
/-- What denotes a function is a sorted map, whose values denote what the function says. -/
theorem Term.Denotes.map_inv {get : Word → Option Datum} (h : t.Denotes mem (.map get)) :
    SortedMap mem t ∧ ∀ w, Option.Rel (Term.Denotes mem) (t.mapGet mem ⟨w⟩) (get w) := by
  obtain ⟨n, hdepth, hcanon, hdatum⟩ := h
  obtain ⟨n, rfl⟩ := hdepth.exists_succ
  rw [Term.value] at hcanon hdatum
  split at hdatum <;> rename_i hkind
  case h_4 =>
    obtain ⟨-, hb⟩ := @TermSpace.box_of_kind mem space t ht .map hkind
    have hbox := @TermSpace.isBoxed_of_kind mem space t ht .map hkind
    rw [hkind] at hcanon
    cases hcanon with
    | map hkeys _ hvals =>
      have hs : SortedMap mem t := by
        refine ⟨hkind, fun i j hij hj => ?_⟩
        have hlt := List.pairwise_iff_getElem.mp hkeys i j (by simp; omega) (by simpa) hij
        simpa using hlt
      rw [Value.datum, List.map_map] at hdatum
      cases hdatum
      refine ⟨hs, fun w => ?_⟩
      have hrow := rowLookup_map hs (fun v => (v.value mem n).datum) w
      rw [Function.comp_def, hrow]
      rcases hs.mapGet_cases ⟨w⟩ with ⟨i, hi, -, hfound⟩ | ⟨-, hnone⟩
      · rw [hfound, Option.map_some]
        refine .some ⟨n, (Term.depthLt_map hbox hb).mp hdepth i hi, hvals _ ?_, rfl⟩
        exact List.mem_map_of_mem (List.mem_range.mpr hi)
      · rw [hnone]
        exact .none
  all_goals simp [Value.datum] at hdatum

omit hspace ht in
/-- What a well-formed map denotes. -/
theorem Term.Denotes.of_map (hkind : t.kind mem = some .map) (h : t.Denotes mem d) :
    ∃ get, d = .map get := by
  obtain ⟨n, hdepth, -, rfl⟩ := h
  cases n with
  | zero => exact hdepth.elim
  | succ n =>
    rw [Term.value, hkind, Value.datum]
    exact ⟨_, rfl⟩

end Denotes

end Yggdrasil
