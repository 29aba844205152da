import Yggdrasil.Term.Size

/-!
# Reading valid terms

In a space of valid terms every walk finds complete objects: what is read from a
valid term is valid again, its kind is always known, and comparing two of them never
runs into a word that is no term.
-/

namespace Yggdrasil

variable {mem mem' : Mem} {space space' : Set ℕ} {t : Term}

/-- A valid term stays valid when objects are added. -/
theorem Term.Valid.mono (h : t.Valid space) (hsub : space ⊆ space') : t.Valid space' :=
  ⟨h.1, fun hboxed => hsub (h.2 hboxed)⟩

/-- Immediate terms are valid. -/
theorem Term.valid_of_tag (hbox : t.tag ≠ tagBoxed) (hfwd : t.tag ≠ kindFwd) :
    t.Valid space :=
  ⟨hfwd, fun hboxed => absurd (by simpa [Term.isBoxed] using hboxed) hbox⟩

/-- The tag of a word built by shifting. -/
theorem Term.tag_shift (w tag : Word) (htag : tag &&& tagMask = tag) :
    Term.tag ⟨(w <<< 3) ||| tag⟩ = tag := by
  have hzero : Term.tag ⟨w <<< 3⟩ = 0#64 := by
    apply BitVec.eq_of_toNat_eq
    rw [Term.toNat_tag]
    simp only [BitVec.toNat_shiftLeft, Nat.shiftLeft_eq, BitVec.toNat_ofNat]
    omega
  rw [Term.tag] at hzero
  rw [Term.tag, BitVec.and_comm, BitVec.and_or_distrib_left, BitVec.and_comm, hzero,
    BitVec.and_comm, htag, BitVec.zero_or]

/-- Integers are valid, for they refer to nothing. -/
theorem Term.valid_int (v : Word) : (Term.int v).Valid space :=
  Term.valid_of_tag (by rw [Term.int, Term.tag_shift _ _ (by decide)]; decide)
    (by rw [Term.int, Term.tag_shift _ _ (by decide)]; decide)

/-- Atoms are valid, for they refer to nothing. -/
theorem Term.valid_atom (a : UInt32) : (Term.atom a).Valid space :=
  Term.valid_of_tag (by rw [Term.atom, Term.tag_shift _ _ (by decide)]; decide)
    (by rw [Term.atom, Term.tag_shift _ _ (by decide)]; decide)

/-- Process identifiers are valid. -/
theorem Term.valid_pid (p : Word) : (Term.pid p).Valid space :=
  Term.valid_of_tag (by rw [Term.pid, Term.tag_shift _ _ (by decide)]; decide)
    (by rw [Term.pid, Term.tag_shift _ _ (by decide)]; decide)

/-- The empty list is valid. -/
theorem Term.valid_nil : Term.nil.Valid space :=
  Term.valid_of_tag (by decide) (by decide)

/-- The pointer to an object is valid. -/
theorem Term.valid_ofAddr {p : ℕ} (hp : p ∈ space) (hlt : p < 2 ^ 61) :
    (Term.ofAddr p).Valid space := by
  have hboxed := Term.isBoxed_ofAddr p
  rw [Term.isBoxed, decide_eq_true_eq] at hboxed
  refine ⟨by rw [hboxed]; decide, fun _ => ?_⟩
  rwa [Term.addr_ofAddr hlt]

/-- A word of valid shape is none of the reserved ones. -/
theorem Term.Valid.ne_tailSentinel_word (h : t.Valid space) : t.word ≠ 7 := by
  intro hword
  exact h.1 (by rw [Term.tag, hword]; decide)

namespace TermSpace

/-- Spaces depend on the words of their objects only. -/
theorem congr (h : TermSpace mem space)
    (hmem : ∀ a ∈ space, ∀ j < sizeAt mem a, mem' (a + j) = mem (a + j)) :
    TermSpace mem' space := by
  have hhead : ∀ a ∈ space, mem' a = mem a := fun a ha =>
    hmem a ha 0 (sizeAt_pos (h.ok a ha).kind)
  have hsize : ∀ a ∈ space, sizeAt mem' a = sizeAt mem a := fun a ha => by
    rw [sizeAt, hhead a ha, sizeAt]
  have hcell : ∀ a ∈ space, ∀ j, IsRef (mem a) j ∨ IsKey (mem a) j →
      mem' (a + j) = mem (a + j) := by
    intro a ha j hj
    apply hmem a ha j
    rcases hj with hj | hj
    · exact hj.bounds.2
    · have hle := refs_le_sizeAt (h.ok a ha).kind
      have hlt := hj.2.2
      omega
  refine ⟨⟨fun a ha => ?_, fun a ha b hb hne => ?_⟩, fun a ha j hj => ?_⟩
  · have hok := h.ok a ha
    refine ⟨by rw [hhead a ha]; exact hok.kind, fun j hj => ?_, fun j hj => ?_, ?_⟩
    · rw [hhead a ha] at hj
      rw [hcell a ha j (.inl hj)]
      exact hok.refs j hj
    · rw [hhead a ha] at hj
      rw [hcell a ha j (.inr hj)]
      exact hok.keys j hj
    · rw [hsize a ha]
      exact hok.bound
  · rw [hsize a ha, hsize b hb]
    exact h.disjoint a ha b hb hne
  · rw [hhead a ha] at hj
    rw [hcell a ha j hj]
    exact h.tags a ha j hj

/-- Spaces that do not overlap are one space. -/
theorem union (h : TermSpace mem space) (h' : TermSpace mem space')
    (hapart : ∀ a ∈ space, ∀ b ∈ space',
      a + sizeAt mem a ≤ b ∨ b + sizeAt mem b ≤ a) : TermSpace mem (space ∪ space') := by
  refine ⟨⟨?_, ?_⟩, ?_⟩
  · rintro a (ha | ha)
    · have hok := h.ok a ha
      exact ⟨hok.kind, fun j hj hbox => .inl (hok.refs j hj hbox), hok.keys, hok.bound⟩
    · have hok := h'.ok a ha
      exact ⟨hok.kind, fun j hj hbox => .inr (hok.refs j hj hbox), hok.keys, hok.bound⟩
  · rintro a (ha | ha) b (hb | hb) hne
    · exact h.disjoint a ha b hb hne
    · exact hapart a ha b hb
    · exact (hapart b hb a ha).symm
    · exact h'.disjoint a ha b hb hne
  · rintro a (ha | ha) j hj
    · exact h.tags a ha j hj
    · exact h'.tags a ha j hj

/-- A reference of an object is valid. -/
theorem valid_ref (h : TermSpace mem space) {a j : ℕ} (ha : a ∈ space) (hj : IsRef (mem a) j) :
    Term.Valid space ⟨mem (a + j)⟩ :=
  ⟨h.tags a ha j (.inl hj), (h.ok a ha).refs j hj⟩

/-- The kind of a valid term is known. -/
theorem kind_isSome (h : TermSpace mem space) (ht : t.Valid space) :
    (t.kind mem).isSome = true := by
  cases hbox : t.isBoxed with
  | false =>
    obtain ⟨k, hk, -⟩ := Term.kind_immediate mem hbox ht.1
    rw [hk]
    rfl
  | true =>
    have hkind := (h.ok _ (ht.2 hbox)).kind
    rw [Term.kind_boxed mem hbox, Option.isSome_map]
    rwa [objWords, Option.isSome_map] at hkind

/-- The object a valid pointer points at has a kind. -/
theorem exists_box (h : TermSpace mem space) (ht : t.Valid space) (hbox : t.isBoxed = true) :
    ∃ b, boxKind (mem t.addr) = some b := by
  have hkind := (h.ok _ (ht.2 hbox)).kind
  rw [objWords, Option.isSome_map] at hkind
  exact Option.isSome_iff_exists.1 hkind

/-- A valid term of a box kind is a pointer. -/
theorem isBoxed_of_kind (ht : t.Valid space) {b : Box} (hkind : t.kind mem = some b.kind) :
    t.isBoxed = true := by
  cases hbox : t.isBoxed with
  | true => rfl
  | false =>
    obtain ⟨k, hk, htuple, hcons, hbinary, hmap⟩ := Term.kind_immediate mem hbox ht.1
    rw [hk, Option.some.injEq] at hkind
    cases b
    · exact absurd hkind htuple
    · exact absurd hkind hcons
    · exact absurd hkind hbinary
    · exact absurd hkind hmap

/-- A valid term of a box kind points at an object of that kind. -/
theorem box_of_kind (ht : t.Valid space) {b : Box}
    (hkind : t.kind mem = some b.kind) : t.addr ∈ space ∧ boxKind (mem t.addr) = some b := by
  have hbox := isBoxed_of_kind ht hkind
  rw [Term.kind_boxed mem hbox, Option.map_eq_some_iff] at hkind
  obtain ⟨b', hb', heq⟩ := hkind
  refine ⟨ht.2 hbox, ?_⟩
  rw [Term.header] at hb'
  cases b <;> cases b' <;> first | exact hb' | cases heq

section

variable (h : TermSpace mem space) (ht : t.Valid space)

include h ht

/-- The head of a list cell is valid. -/
theorem valid_head (hkind : t.kind mem = some .cons) : (t.head mem).Valid space := by
  obtain ⟨hmem, hbox⟩ := @box_of_kind mem space t ht .cons hkind
  exact h.valid_ref hmem (by simp [IsRef, refStart, refCount, hbox])

/-- The tail of a list cell is valid. -/
theorem valid_tail (hkind : t.kind mem = some .cons) : (t.tail mem).Valid space := by
  obtain ⟨hmem, hbox⟩ := @box_of_kind mem space t ht .cons hkind
  exact h.valid_ref hmem (by simp [IsRef, refStart, refCount, hbox])

/-- The elements of a tuple are valid. -/
theorem valid_tupleElem (hkind : t.kind mem = some .tuple) {i : ℕ}
    (hi : i < t.tupleArity mem) : (t.tupleElem mem i).Valid space := by
  obtain ⟨hmem, hbox⟩ := @box_of_kind mem space t ht .tuple hkind
  rw [Term.tupleElem, Nat.add_assoc]
  refine h.valid_ref hmem ?_
  simp only [IsRef, refStart, refCount, hbox]
  have : t.tupleArity mem = headerArity (mem t.addr) := rfl
  omega

/-- The values of a map are valid. -/
theorem valid_mapVal (hkind : t.kind mem = some .map) {i : ℕ} (hi : i < t.mapArity mem) :
    (t.mapVal mem i).Valid space := by
  obtain ⟨hmem, hbox⟩ := @box_of_kind mem space t ht .map hkind
  have harity : t.mapArity mem = headerArity (mem t.addr) := rfl
  rw [Term.mapVal, Nat.add_assoc, Nat.add_assoc]
  refine h.valid_ref hmem ?_
  simp only [IsRef, refStart, refCount, hbox]
  omega

/-- The keys of a map are valid immediates. -/
theorem mapKey_immediate (hkind : t.kind mem = some .map) {i : ℕ} (hi : i < t.mapArity mem) :
    (t.mapKey mem i).isBoxed = false ∧ (t.mapKey mem i).Valid space := by
  obtain ⟨hmem, hbox⟩ := @box_of_kind mem space t ht .map hkind
  have harity : t.mapArity mem = headerArity (mem t.addr) := rfl
  have hkey : IsKey (mem t.addr) (1 + i) := by
    refine ⟨hbox, by omega, ?_⟩
    simp only [refStart, hbox]
    omega
  rw [Term.mapKey, Nat.add_assoc]
  have hnot := (h.ok _ hmem).keys _ hkey
  exact ⟨hnot, h.tags _ hmem _ (.inr hkey), fun hboxed => by simp [hnot] at hboxed⟩

private theorem valid_mapSearch (hkind : t.kind mem = some .map) (key : Term) {n lo hi : ℕ}
    (hhi : hi ≤ t.mapArity mem) {v : Term} (hv : t.mapSearch mem key n lo hi = some v) :
    v.Valid space := by
  induction n generalizing lo hi with
  | zero => simp [Term.mapSearch] at hv
  | succ n ih =>
    rw [Term.mapSearch] at hv
    split at hv
    · dsimp only at hv
      split at hv
      · cases hv
        exact h.valid_mapVal ht hkind (by omega)
      · split at hv
        · exact ih hhi hv
        · exact ih (by omega) hv
    · cases hv

/-- What is looked up in a map is valid. -/
theorem valid_mapGet (hkind : t.kind mem = some .map) {key v : Term}
    (hv : t.mapGet mem key = some v) : v.Valid space :=
  valid_mapSearch h ht hkind key (Nat.le_refl _) hv

end

private theorem allBelow_ne_panic {f : ℕ → Except Halt Bool} {i n : ℕ}
    (hf : ∀ j, i ≤ j → j < i + n → f j ≠ .error .panic) : allBelow f i n ≠ .error .panic := by
  induction n generalizing i with
  | zero => simp [allBelow]
  | succ n ih =>
    have hhead := hf i (by omega) (by omega)
    have htail := @ih (i + 1) fun j hj hlt => hf j (by omega) (by omega)
    rw [allBelow]
    cases hi : f i with
    | error e =>
      rw [hi] at hhead
      exact hhead
    | ok b =>
      cases b with
      | true => exact htail
      | false => exact fun heq => nomatch heq

/-- Comparing valid terms does not panic: `eqTerm` on any two of them and `eqSpine`
on two list cells. -/
private theorem eq_ne_panic (h : TermSpace mem space) (n : ℕ) :
    (∀ a b : Term, a.Valid space → b.Valid space → eqTerm mem n a b ≠ .error .panic) ∧
    ∀ x y : Term, x.Valid space → y.Valid space → x.kind mem = some .cons →
      y.kind mem = some .cons → eqSpine mem n x y ≠ .error .panic := by
  induction n with
  | zero =>
    constructor
    · intro a b _ _ heq
      simp [eqTerm] at heq
    · intro x y _ _ _ _ heq
      simp [eqSpine] at heq
  | succ n ih =>
    constructor
    · intro a b ha hb
      have hka := Option.isSome_iff_exists.mp (h.kind_isSome ha)
      have hkb := Option.isSome_iff_exists.mp (h.kind_isSome hb)
      obtain ⟨ka, hka⟩ := hka
      obtain ⟨kb, hkb⟩ := hkb
      rw [eqTerm, hka, hkb]
      split
      · exact fun heq => nomatch heq
      · split
        · exact fun heq => nomatch heq
        · split
          · rename_i heqa heqb
            rw [heqa] at hka
            rw [heqb] at hkb
            split
            · rename_i harity
              refine allBelow_ne_panic fun i _ hi => ih.1 _ _ ?_ ?_
              · exact h.valid_tupleElem ha hka (by omega)
              · exact h.valid_tupleElem hb hkb (by omega)
            · exact fun heq => nomatch heq
          · exact fun heq => nomatch heq
          · rename_i heqa heqb
            rw [heqa] at hka
            rw [heqb] at hkb
            split
            · refine allBelow_ne_panic fun i _ hi => ?_
              split
              · refine ih.1 _ _ ?_ ?_
                · exact h.valid_mapVal ha hka (by omega)
                · exact h.valid_mapVal hb hkb (by omega)
              · exact fun heq => nomatch heq
            · exact fun heq => nomatch heq
          · rename_i heqa heqb
            rw [heqa] at hka
            rw [heqb] at hkb
            exact ih.2 a b ha hb hka hkb
          · rename_i heqa
            cases heqa
          · rename_i heqb
            cases heqb
          · exact fun heq => nomatch heq
    · intro x y hx hy hkx hky
      have htx := h.valid_tail hx hkx
      have hty := h.valid_tail hy hky
      have hhead := ih.1 _ _ (h.valid_head hx hkx) (h.valid_head hy hky)
      obtain ⟨kx, hktx⟩ := Option.isSome_iff_exists.mp (h.kind_isSome htx)
      obtain ⟨ky, hkty⟩ := Option.isSome_iff_exists.mp (h.kind_isSome hty)
      rw [eqSpine]
      cases hheads : eqTerm mem n (x.head mem) (y.head mem) with
      | error e =>
        rw [hheads] at hhead
        exact hhead
      | ok same =>
        cases same with
        | false => exact fun heq => nomatch heq
        | true =>
          rw [hktx, hkty]
          by_cases hcx : kx = .cons <;> by_cases hcy : ky = .cons
          · subst hcx
            subst hcy
            exact ih.2 _ _ htx hty hktx hkty
          · subst hcx
            cases ky <;> first | exact absurd rfl hcy | exact fun heq => nomatch heq
          · subst hcy
            cases kx <;> first | exact absurd rfl hcx | exact fun heq => nomatch heq
          · cases kx <;> first
              | exact absurd rfl hcx
              | cases ky <;> first | exact absurd rfl hcy | exact ih.1 _ _ htx hty

/-- Comparing valid terms does not panic. -/
theorem eqTerm_ne_panic (h : TermSpace mem space) {a b : Term} (ha : a.Valid space)
    (hb : b.Valid space) (n : ℕ) : eqTerm mem n a b ≠ .error .panic :=
  (eq_ne_panic h n).1 a b ha hb

end TermSpace

end Yggdrasil
