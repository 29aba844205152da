import Yggdrasil.Term.Copy

/-!
# What a term says

The value of a term depends on the words of its objects only. Two memories agree on a space
when its objects have the same words in both; all that can be read from a valid term is then
the same.
-/

namespace Yggdrasil

variable {mem mem' : Mem} {space space' : Set ℕ} {t : Term} {n : ℕ}

section Kinds

variable (hbox : t.isBoxed = true)

include hbox

/-- The kind of a pointer to an object of a known kind. -/
theorem Term.kind_of_boxKind {b : Box} (hb : boxKind (mem t.addr) = some b) :
    t.kind mem = some b.kind := by
  rw [Term.kind_boxed mem hbox, Term.header, hb, Option.map_some]

private theorem value_tuple (hb : boxKind (mem t.addr) = some .tuple) :
    t.value mem (n + 1) = .tuple ((List.range (refCount (mem t.addr))).map fun i =>
      (t.child mem i).value mem n) := by
  rw [Term.value, Term.kind_of_boxKind hbox hb]
  simp only [Box.kind, refCount, Term.child, refStart, hb, Term.tupleElem, Nat.add_assoc]
  rfl

private theorem value_cons (hb : boxKind (mem t.addr) = some .cons) :
    t.value mem (n + 1) = .cons ((t.child mem 0).value mem n) ((t.child mem 1).value mem n) := by
  rw [Term.value, Term.kind_of_boxKind hbox hb]
  simp only [Box.kind, Term.child, refStart, hb]
  rfl

private theorem value_binary (hb : boxKind (mem t.addr) = some .binary) :
    t.value mem (n + 1) = .binary (t.binBytes mem) := by
  rw [Term.value, Term.kind_of_boxKind hbox hb]
  rfl

private theorem value_map (hb : boxKind (mem t.addr) = some .map) :
    t.value mem (n + 1) = .map ((List.range (refCount (mem t.addr))).map fun i =>
        mem (t.addr + (1 + i)))
      ((List.range (refCount (mem t.addr))).map fun i => (t.child mem i).value mem n) := by
  rw [Term.value, Term.kind_of_boxKind hbox hb]
  simp only [Box.kind, refCount, Term.child, refStart, hb, Term.mapVal, Term.mapKey,
    Nat.add_assoc]
  rfl

/-- The paths of a tuple. -/
theorem Term.depthLt_tuple (hb : boxKind (mem t.addr) = some .tuple) :
    DepthLt mem (n + 1) t ↔ ∀ i < t.tupleArity mem, DepthLt mem n (t.tupleElem mem i) := by
  rw [DepthLt, forall_prop_of_true hbox]
  simp only [refCount, Term.child, refStart, hb, ← Nat.add_assoc]
  rfl

/-- The paths of a list cell. -/
theorem Term.depthLt_cons (hb : boxKind (mem t.addr) = some .cons) :
    DepthLt mem (n + 1) t ↔ DepthLt mem n (t.head mem) ∧ DepthLt mem n (t.tail mem) := by
  rw [DepthLt, forall_prop_of_true hbox]
  simp only [refCount, Term.child, refStart, hb]
  refine ⟨fun h => ⟨h 0 (by omega), h 1 (by omega)⟩, fun h i hi => ?_⟩
  obtain rfl | rfl : i = 0 ∨ i = 1 := by omega
  · exact h.1
  · exact h.2

/-- A map is as deep as its deepest value. -/
theorem Term.depthLt_map (hb : boxKind (mem t.addr) = some .map) :
    DepthLt mem (n + 1) t ↔ ∀ i < t.mapArity mem, DepthLt mem n (t.mapVal mem i) := by
  rw [DepthLt, forall_prop_of_true hbox]
  simp only [refCount, Term.child, refStart, hb, ← Nat.add_assoc]
  rfl

end Kinds

/-- An immediate says its word. -/
theorem Term.value_immediate (hbox : t.isBoxed = false) (htag : t.tag ≠ kindFwd) :
    t.value mem n = .immediate t.word := by
  cases n with
  | zero => rfl
  | succ n =>
    obtain ⟨k, hk, htuple, hcons, hbinary, hmap⟩ := Term.kind_immediate mem hbox htag
    rw [Term.value, hk]
    cases k <;> first | rfl | contradiction

/-- Two objects of one kind have the same value when their keys, bytes and parts agree. -/
theorem Term.value_congr {t' : Term} {m : ℕ} (hbox : t.isBoxed = true)
    (hbox' : t'.isBoxed = true) (hkind : (objWords (mem t.addr)).isSome = true)
    (hk : boxKind (mem' t'.addr) = boxKind (mem t.addr))
    (hcount : refCount (mem' t'.addr) = refCount (mem t.addr))
    (hkeys : ∀ i, IsKey (mem t.addr) (1 + i) →
      mem' (t'.addr + (1 + i)) = mem (t.addr + (1 + i)))
    (hbytes : boxKind (mem t.addr) = some .binary → t'.binBytes mem' = t.binBytes mem)
    (hparts : ∀ i < refCount (mem t.addr),
      (t'.child mem' i).value mem' m = (t.child mem i).value mem n) :
    t'.value mem' (m + 1) = t.value mem (n + 1) := by
  obtain ⟨b, hb⟩ : ∃ b, boxKind (mem t.addr) = some b := by
    rw [objWords, Option.isSome_map] at hkind
    exact Option.isSome_iff_exists.1 hkind
  have hb' := hk.trans hb
  have hvals : (List.range (refCount (mem' t'.addr))).map
      (fun i => (t'.child mem' i).value mem' m) =
      (List.range (refCount (mem t.addr))).map fun i => (t.child mem i).value mem n := by
    rw [hcount]
    exact List.map_congr_left fun i hi => hparts i (List.mem_range.1 hi)
  cases b with
  | tuple => rw [value_tuple hbox hb, value_tuple hbox' hb', hvals]
  | cons =>
    have htwo : refCount (mem t.addr) = 2 := by simp only [refCount, hb]
    rw [value_cons hbox hb, value_cons hbox' hb', hparts 0 (by omega), hparts 1 (by omega)]
  | binary => rw [value_binary hbox hb, value_binary hbox' hb', hbytes hb]
  | map =>
    rw [value_map hbox hb, value_map hbox' hb', hvals, hcount]
    congr 1
    refine List.map_congr_left fun i hi => hkeys i ⟨hb, by omega, ?_⟩
    have hi := List.mem_range.1 hi
    simp only [refCount, refStart, hb] at hi ⊢
    omega

/-- The value does not depend on the depth bound. -/
theorem Term.value_eq_of_le {k : ℕ} (hspace : TermSpace mem space) (ht : t.Valid space)
    (h : DepthLt mem n t) (hle : n ≤ k) : t.value mem k = t.value mem n := by
  induction n generalizing k t with
  | zero => exact h.elim
  | succ n ih =>
    obtain ⟨k, rfl⟩ : ∃ k', k = k' + 1 := ⟨k - 1, by omega⟩
    cases hbox : t.isBoxed with
    | false => rw [Term.value_immediate hbox ht.1, Term.value_immediate hbox ht.1]
    | true =>
      refine Term.value_congr hbox hbox (hspace.ok _ (ht.2 hbox)).kind rfl rfl (fun _ _ => rfl)
        (fun _ => rfl) fun i hi => ?_
      exact ih (hspace.valid_child ht hbox hi) (h hbox i hi) (by omega)

/-- A term that says the same when it is read further has been read to its end. -/
theorem Term.depthLt_of_value (hspace : TermSpace mem space) (ht : t.Valid space)
    (h : t.value mem (n + 1) = t.value mem n) : DepthLt mem (n + 1) t := by
  induction n generalizing t with
  | zero =>
    intro hbox
    obtain ⟨b, hb⟩ := hspace.exists_box ht hbox
    cases b with
    | tuple => rw [value_tuple hbox hb] at h; cases h
    | cons => rw [value_cons hbox hb] at h; cases h
    | binary => rw [value_binary hbox hb] at h; cases h
    | map => rw [value_map hbox hb] at h; cases h
  | succ n ih =>
    intro hbox i hi
    obtain ⟨b, hb⟩ := hspace.exists_box ht hbox
    refine ih (hspace.valid_child ht hbox hi) ?_
    cases b with
    | tuple =>
      rw [value_tuple hbox hb, value_tuple hbox hb, Value.tuple.injEq, List.map_inj_left] at h
      exact h i (List.mem_range.mpr hi)
    | cons =>
      rw [value_cons hbox hb, value_cons hbox hb, Value.cons.injEq] at h
      simp only [refCount, hb] at hi
      obtain rfl | rfl : i = 0 ∨ i = 1 := by omega
      · exact h.1
      · exact h.2
    | binary =>
      simp only [refCount, hb] at hi
      exact absurd hi (Nat.not_lt_zero i)
    | map =>
      rw [value_map hbox hb, value_map hbox hb, Value.map.injEq] at h
      exact List.map_inj_left.mp h.2 i (List.mem_range.mpr hi)

/-! ### Bytes -/

/-- Bytes depend on the words they stand in. -/
theorem readBytes_congr {p q len : ℕ}
    (h : ∀ j < (len + 7) / 8, mem' (q + j) = mem (p + j)) :
    readBytes mem' q len = readBytes mem p len := by
  refine List.map_congr_left fun j hj => ?_
  have hj := List.mem_range.1 hj
  rw [h (j / 8) (by omega)]

private theorem getLsbD_byteOf (w : Word) {j i : ℕ} (hi : i < 8) :
    (byteOf w j).toBitVec.getLsbD i = w.getLsbD (8 * j + i) := by
  simp [byteOf, hi]

private theorem byteOf_packWord {bs : List UInt8} (hlen : bs.length ≤ 8) (old : Word) {j : ℕ}
    {b : UInt8} (hb : bs[j]? = some b) : byteOf (packWord old bs) j = b := by
  induction bs generalizing old j with
  | nil => simp at hb
  | cons c bs ih =>
    have hj := (List.getElem?_eq_some_iff.1 hb).1
    rw [List.length_cons] at hlen hj
    apply UInt8.toBitVec_inj.1
    apply BitVec.eq_of_getLsbD_eq
    intro i hi
    rw [getLsbD_byteOf _ hi, packWord, BitVec.getLsbD_or, BitVec.getLsbD_shiftLeft,
      BitVec.getLsbD_setWidth]
    cases j with
    | zero =>
      cases hb
      simp [hi, show i < 64 by omega]
    | succ j =>
      rw [List.getElem?_cons_succ] at hb
      have hrec := ih (by omega) (old >>> 8) hb
      have hbit := getLsbD_byteOf (packWord (old >>> 8) bs) (j := j) hi
      rw [hrec] at hbit
      rw [hbit, BitVec.getLsbD_of_ge c.toBitVec _ (by omega), decide_eq_true (by omega),
        decide_eq_false (by omega), show 8 * (j + 1) + i - 8 = 8 * j + i by omega]
      simp

/-- Written bytes are read back. -/
theorem readBytes_writeBytes (mem : Mem) (p : ℕ) (data : List UInt8) :
    readBytes (writeBytes mem p data) p data.length = data := by
  apply List.ext_getElem?
  intro j
  rw [readBytes, List.getElem?_map]
  rcases Nat.lt_or_ge j data.length with hlt | hge
  · rw [List.getElem?_range hlt, Option.map_some, writeBytes, if_pos (by omega)]
    rw [List.getElem?_eq_getElem hlt, Option.some.injEq]
    apply byteOf_packWord
    · exact List.length_take_le ..
    · rw [List.getElem?_take_of_lt (by omega), List.getElem?_drop]
      rw [show 8 * (p + j / 8 - p) + j % 8 = j by omega]
      exact List.getElem?_eq_getElem hlt
  · rw [List.getElem?_eq_none (by simpa using hge), List.getElem?_eq_none hge, Option.map_none]

/-! ### Terms depend on the words of their objects only -/

/-- The objects of a space have the same words in both memories. -/
def Agree (mem mem' : Mem) (space : Set ℕ) : Prop :=
  ∀ a ∈ space, ∀ j < sizeAt mem a, mem' (a + j) = mem (a + j)

section Agree

variable (hag : Agree mem mem' space) (hspace : TermSpace mem space) (ht : t.Valid space)

include hag hspace

/-- Memories that agree have the same headers. -/
theorem Agree.header {a : ℕ} (ha : a ∈ space) : mem' a = mem a :=
  hag a ha 0 (sizeAt_pos (hspace.ok a ha).kind)

/-- Memories that agree give objects the same size. -/
theorem Agree.sizeAt_eq {a : ℕ} (ha : a ∈ space) : sizeAt mem' a = sizeAt mem a := by
  rw [sizeAt, hag.header hspace ha, sizeAt]

/-- What agrees with something that agrees. -/
theorem Agree.trans {mem'' : Mem} (hag' : Agree mem' mem'' space) : Agree mem mem'' space := by
  intro a ha j hj
  rw [hag' a ha j (hag.sizeAt_eq hspace ha ▸ hj), hag a ha j hj]

omit hspace in
/-- Fewer objects agree as well. -/
theorem Agree.mono (hsub : space' ⊆ space) : Agree mem mem' space' :=
  fun a ha => hag a (hsub ha)

omit hspace in
/-- Memories that agree have the same references. -/
theorem Agree.ref {a j : ℕ} (ha : a ∈ space) (hj : IsRef (mem a) j) :
    mem' (a + j) = mem (a + j) :=
  hag a ha j hj.bounds.2

include ht

/-- It has the same parts. -/
theorem Agree.child (hbox : t.isBoxed = true) {i : ℕ} (hi : i < refCount (mem t.addr)) :
    t.child mem' i = t.child mem i := by
  have ha := ht.2 hbox
  rw [Term.child, Term.child, hag.header hspace ha, hag.ref ha ⟨by omega, by omega⟩]

omit ht in
/-- It has the same depth. -/
theorem Agree.depthLt (ht : t.Valid space) : DepthLt mem' n t ↔ DepthLt mem n t := by
  induction n generalizing t with
  | zero => exact Iff.rfl
  | succ n ih =>
    refine forall_congr' fun hbox => ?_
    rw [hag.header hspace (ht.2 hbox)]
    refine forall₂_congr fun i hi => ?_
    rw [hag.child hspace ht hbox hi]
    exact ih (hspace.valid_child ht hbox hi)

omit ht in
/-- It has the same size. -/
theorem Agree.treeWords (ht : t.Valid space) : treeWords mem' n t = treeWords mem n t := by
  induction n generalizing t with
  | zero => rfl
  | succ n ih =>
    rw [Yggdrasil.treeWords, Yggdrasil.treeWords]
    by_cases hbox : t.isBoxed = true
    · have ha := ht.2 hbox
      rw [if_pos hbox, if_pos hbox, sizeAt, sizeAt, hag.header hspace ha]
      congr 1
      refine Finset.sum_congr rfl fun i hi => ?_
      have hi := Finset.mem_range.1 hi
      rw [hag.child hspace ht hbox hi]
      exact ih (hspace.valid_child ht hbox hi)
    · rw [if_neg hbox, if_neg hbox]

omit ht in
/-- Memories that agree give a valid term the same value. -/
theorem Agree.value (ht : t.Valid space) : t.value mem' n = t.value mem n := by
  induction n generalizing t with
  | zero => rfl
  | succ n ih =>
    cases hbox : t.isBoxed with
    | false => rw [Term.value_immediate hbox ht.1, Term.value_immediate hbox ht.1]
    | true =>
      have ha := ht.2 hbox
      have hhead := hag.header hspace ha
      refine Term.value_congr hbox hbox (hspace.ok _ ha).kind (by rw [hhead]) (by rw [hhead])
        (fun i hi => ?_) (fun hb => ?_) fun i hi => ?_
      · have hle := refs_le_sizeAt (hspace.ok _ ha).kind
        exact hag _ ha _ (by have := hi.2.2; omega)
      · have hlen : t.headerLen mem' = t.headerLen mem := by
          rw [Term.headerLen, Term.headerLen, Term.header, Term.header, hhead]
        rw [Term.binBytes, Term.binBytes, hlen]
        refine readBytes_congr fun j hj => ?_
        rw [Nat.add_assoc]
        refine hag _ ha _ ?_
        rw [sizeAt, objWords, hb]
        simp only [Option.map_some, Option.getD_some]
        have : t.headerLen mem = headerArity (mem t.addr) := rfl
        omega
      · rw [hag.child hspace ht hbox hi]
        exact ih (hspace.valid_child ht hbox hi)

end Agree

end Yggdrasil
