import Yggdrasil.Term.Makes

/-!
# Structural equality is equality of values

`eq` compares two terms word by word, and follows the spines of lists in a loop. On well-formed
terms it comes to an end and says whether the terms denote the same.
-/

namespace Yggdrasil

/-- The outcome says whether `P` holds. -/
def Decides (r : Except Halt Bool) (P : Prop) : Prop :=
  (r = .ok true ∧ P) ∨ (r = .ok false ∧ ¬ P)

namespace Decides

variable {r : Except Halt Bool} {P Q : Prop}

/-- An outcome decides every equivalent question. -/
theorem congr (h : Decides r P) (hiff : P ↔ Q) : Decides r Q := by
  rw [Decides, ← hiff]
  exact h

/-- One question after the other. -/
theorem bind {s : Except Halt Bool} (hr : Decides r P) (hs : P → Decides s Q) :
    Decides (r >>= fun same => if same then s else pure false) (P ∧ Q) := by
  rcases hr with ⟨rfl, hP⟩ | ⟨rfl, hP⟩
  · exact (hs hP).congr (by rw [and_iff_right hP])
  · exact .inr ⟨rfl, fun h => hP h.1⟩

/-- Finitely many questions. -/
theorem allBelow {f : ℕ → Except Halt Bool} {P : ℕ → Prop} {n : ℕ}
    (h : ∀ i < n, Decides (f i) (P i)) : Decides (allBelow f 0 n) (∀ i < n, P i) := by
  suffices hfrom : ∀ k i, i + k = n →
      Decides (Yggdrasil.allBelow f i k) (∀ j, i ≤ j → j < n → P j) by
    refine (hfrom n 0 (by omega)).congr ?_
    exact forall_congr' fun j => ⟨fun h => h (Nat.zero_le j), fun h _ => h⟩
  intro k
  induction k with
  | zero => exact fun i hi => .inl ⟨rfl, fun j hj hlt => by omega⟩
  | succ k ih =>
    intro i hi
    refine ((h i (by omega)).bind fun _ => ih (i + 1) (by omega)).congr ?_
    constructor
    · rintro ⟨hfirst, hrest⟩ j hj hlt
      rcases Nat.lt_or_eq_of_le hj with hj | rfl
      · exact hrest j hj hlt
      · exact hfirst
    · exact fun hall => ⟨hall i (Nat.le_refl i) (by omega), fun j hj hlt => hall j (by omega) hlt⟩

end Decides

/-- The box of a value. -/
private def Value.box : Value → Option Box
  | .immediate _ => none
  | .tuple _ => some .tuple
  | .cons _ _ => some .cons
  | .binary _ => some .binary
  | .map _ _ => some .map

/-- The box of a kind. -/
private def Kind.box : Kind → Option Box
  | .tuple => some .tuple
  | .cons => some .cons
  | .binary => some .binary
  | .map => some .map
  | _ => none

section Comparing

variable {mem : Mem} {space space' : Set ℕ} {a b : Term} {n k : ℕ}

private theorem box_value {t : Term} {k : Kind} (hk : t.kind mem = some k) :
    (t.value mem (n + 1)).box = k.box := by
  rw [Term.value, hk]
  cases k <;> rfl

/-- Terms of different kinds do not say the same. -/
private theorem value_ne {x y : Kind} (hx : a.kind mem = some x) (hy : b.kind mem = some y)
    (h : x.box ≠ y.box) : a.value mem (n + 1) ≠ b.value mem (n + 1) := fun heq =>
  h (by rw [← @box_value _ n _ _ hx, ← @box_value _ n _ _ hy, heq])

/-- What says the same as an immediate is the immediate. -/
private theorem word_eq_of_immediate (hspace : TermSpace mem space) (htag : a.tag ≠ kindFwd)
    (hb : b.Valid space) (hbox : a.isBoxed = false)
    (heq : a.value mem (n + 1) = b.value mem (n + 1)) : a.word = b.word := by
  rw [Term.value_immediate hbox htag] at heq
  cases hboxb : b.isBoxed with
  | false =>
    rw [Term.value_immediate hboxb hb.1] at heq
    exact Value.immediate.inj heq
  | true =>
    obtain ⟨y, hy⟩ := hspace.exists_box hb hboxb
    have hbox := @box_value _ n _ _ (Term.kind_of_boxKind hboxb hy)
    rw [← heq] at hbox
    cases y <;> cases hbox

variable (hspace : TermSpace mem space) (hspace' : TermSpace mem space')

include hspace hspace'

section Step

variable (ha : a.Valid space) (hb : b.Valid space') (hda : DepthLt mem (n + 1) a)
  (hdb : DepthLt mem (n + 1) b)
  (hterm : ∀ a b : Term, a.Valid space → b.Valid space' → DepthLt mem n a → DepthLt mem n b →
    Decides (eqTerm mem k a b) (a.value mem n = b.value mem n))

include ha hb hda hdb hterm

private theorem decides_tuple (hka : a.kind mem = some .tuple) (hkb : b.kind mem = some .tuple)
    (hboxa : a.isBoxed = true) (hboxb : b.isBoxed = true) :
    Decides (if a.tupleArity mem = b.tupleArity mem then
        allBelow (fun i => eqTerm mem k (a.tupleElem mem i) (b.tupleElem mem i)) 0
          (a.tupleArity mem)
      else .ok false) (a.value mem (n + 1) = b.value mem (n + 1)) := by
  have hda := (Term.depthLt_tuple hboxa (@TermSpace.box_of_kind mem space a ha .tuple hka).2).mp hda
  have hdb :=
    (Term.depthLt_tuple hboxb (@TermSpace.box_of_kind mem space' b hb .tuple hkb).2).mp hdb
  rw [Term.value, hka, Term.value, hkb, Value.tuple.injEq]
  by_cases harity : a.tupleArity mem = b.tupleArity mem
  · rw [if_pos harity]
    refine (Decides.allBelow fun i hi => hterm _ _ (hspace.valid_tupleElem ha hka hi)
      (hspace'.valid_tupleElem hb hkb (harity ▸ hi)) (hda i hi) (hdb i (harity ▸ hi))).congr ?_
    rw [← harity, List.map_inj_left]
    simp only [List.mem_range]
  · rw [if_neg harity]
    refine .inr ⟨rfl, fun heq => harity ?_⟩
    simpa using congrArg List.length heq

private theorem decides_map (hka : a.kind mem = some .map) (hkb : b.kind mem = some .map)
    (hboxa : a.isBoxed = true) (hboxb : b.isBoxed = true) :
    Decides (if a.mapArity mem = b.mapArity mem then
        allBelow (fun i =>
          if a.mapKey mem i = b.mapKey mem i then eqTerm mem k (a.mapVal mem i) (b.mapVal mem i)
          else .ok false) 0 (a.mapArity mem)
      else .ok false) (a.value mem (n + 1) = b.value mem (n + 1)) := by
  have hda := (Term.depthLt_map hboxa (@TermSpace.box_of_kind mem space a ha .map hka).2).mp hda
  have hdb := (Term.depthLt_map hboxb (@TermSpace.box_of_kind mem space' b hb .map hkb).2).mp hdb
  rw [Term.value, hka, Term.value, hkb, Value.map.injEq]
  by_cases harity : a.mapArity mem = b.mapArity mem
  · rw [if_pos harity]
    have hpart : ∀ i < a.mapArity mem, Decides
        (if a.mapKey mem i = b.mapKey mem i then eqTerm mem k (a.mapVal mem i) (b.mapVal mem i)
          else .ok false)
        ((a.mapKey mem i).word = (b.mapKey mem i).word ∧
          (a.mapVal mem i).value mem n = (b.mapVal mem i).value mem n) := by
      intro i hi
      by_cases hkey : a.mapKey mem i = b.mapKey mem i
      · rw [if_pos hkey]
        refine (hterm _ _ (hspace.valid_mapVal ha hka hi)
          (hspace'.valid_mapVal hb hkb (harity ▸ hi))
          (hda i hi) (hdb i (harity ▸ hi))).congr ?_
        rw [and_iff_right (by rw [hkey])]
      · rw [if_neg hkey]
        exact .inr ⟨rfl, fun h => hkey (congrArg Term.mk h.1)⟩
    refine (Decides.allBelow hpart).congr ?_
    rw [← harity, List.map_inj_left, List.map_inj_left, ← forall₂_and]
    simp only [List.mem_range]
  · rw [if_neg harity]
    refine .inr ⟨rfl, fun heq => harity ?_⟩
    simpa using congrArg List.length heq.1

private theorem decides_spine (hka : a.kind mem = some .cons) (hkb : b.kind mem = some .cons)
    (hboxa : a.isBoxed = true) (hboxb : b.isBoxed = true)
    (hspine : ∀ a b : Term, a.Valid space → b.Valid space' → a.kind mem = some .cons →
      b.kind mem = some .cons → DepthLt mem n a → DepthLt mem n b →
      Decides (eqSpine mem k a b) (a.value mem n = b.value mem n)) :
    Decides (eqSpine mem (k + 1) a b) (a.value mem (n + 1) = b.value mem (n + 1)) := by
  obtain ⟨hha, hta⟩ :=
    (Term.depthLt_cons hboxa (@TermSpace.box_of_kind mem space a ha .cons hka).2).mp hda
  obtain ⟨hhb, htb⟩ :=
    (Term.depthLt_cons hboxb (@TermSpace.box_of_kind mem space' b hb .cons hkb).2).mp hdb
  have hva := hspace.valid_tail ha hka
  have hvb := hspace'.valid_tail hb hkb
  rw [Term.value, hka, Term.value, hkb, Value.cons.injEq, eqSpine]
  refine (hterm _ _ (hspace.valid_head ha hka) (hspace'.valid_head hb hkb) hha hhb).bind
    fun _ => ?_
  obtain ⟨n, rfl⟩ := hta.exists_succ
  obtain ⟨x, hx⟩ := Option.isSome_iff_exists.mp (hspace.kind_isSome hva)
  obtain ⟨y, hy⟩ := Option.isSome_iff_exists.mp (hspace'.kind_isSome hvb)
  rw [hx, hy]
  by_cases hcx : x = .cons
  · by_cases hcy : y = .cons
    · subst hcx hcy
      exact hspine _ _ hva hvb hx hy hta htb
    · have hneq := @value_ne _ _ _ n _ _ hx hy
      subst hcx
      cases y <;> first | exact absurd rfl hcy | exact .inr ⟨rfl, hneq (by decide)⟩
  · by_cases hcy : y = .cons
    · have hneq := @value_ne _ _ _ n _ _ hx hy
      subst hcy
      cases x <;> first | exact absurd rfl hcx | exact .inr ⟨rfl, hneq (by decide)⟩
    · have heq := hterm _ _ hva hvb hta htb
      cases x <;> first
        | exact absurd rfl hcx
        | cases y <;> first | exact absurd rfl hcy | exact heq

private theorem decides_term
    (hspine : a.kind mem = some .cons → b.kind mem = some .cons →
      Decides (eqSpine mem k a b) (a.value mem (n + 1) = b.value mem (n + 1))) :
    Decides (eqTerm mem (k + 1) a b) (a.value mem (n + 1) = b.value mem (n + 1)) := by
  rw [eqTerm]
  by_cases hword : a.word = b.word
  · have heq : a = b := by
      cases a
      cases b
      exact congrArg Term.mk hword
    rw [if_pos hword]
    exact .inl ⟨rfl, by rw [heq]⟩
  · rw [if_neg hword]
    by_cases hboth : a.isBoxed = true ∧ b.isBoxed = true
    · obtain ⟨hboxa, hboxb⟩ := hboth
      obtain ⟨x, hx⟩ := hspace.exists_box ha hboxa
      obtain ⟨y, hy⟩ := hspace'.exists_box hb hboxb
      have hkx := Term.kind_of_boxKind hboxa hx
      have hky := Term.kind_of_boxKind hboxb hy
      rw [if_neg (by simp [hboxa, hboxb]), hkx, hky]
      by_cases hxy : x = y
      · subst hxy
        cases x with
        | tuple => exact decides_tuple hspace hspace' ha hb hda hdb hterm hkx hky hboxa hboxb
        | cons => exact hspine hkx hky
        | binary =>
          rw [Term.value, hkx, Term.value, hky]
          refine Decides.congr ?_ (Iff.of_eq (Value.binary.injEq _ _).symm)
          by_cases hbytes : a.binBytes mem = b.binBytes mem
          · exact .inl ⟨by simp [Box.kind, hbytes], hbytes⟩
          · exact .inr ⟨by simp [Box.kind, hbytes], hbytes⟩
        | map => exact decides_map hspace hspace' ha hb hda hdb hterm hkx hky hboxa hboxb
      · have hneq := @value_ne _ _ _ n _ _ hkx hky
        cases x <;> cases y <;>
          first | exact absurd rfl hxy | exact .inr ⟨rfl, hneq (by decide)⟩
    · rw [if_pos (by simpa [imp_iff_not_or] using hboth)]
      refine .inr ⟨rfl, fun heq => hword ?_⟩
      cases hboxa : a.isBoxed with
      | false => exact word_eq_of_immediate hspace' ha.1 hb hboxa heq
      | true =>
        have hboxb : b.isBoxed = false := by simpa [hboxa] using hboth
        exact (word_eq_of_immediate hspace hb.1 ha hboxb heq.symm).symm

end Step

/-- With enough fuel, `eq` says whether the values are the same: on two terms, and on the
spines of two lists. -/
private theorem decides_eq (n : ℕ) :
    (∀ k, 2 * n ≤ k → ∀ a b : Term, a.Valid space → b.Valid space' → DepthLt mem n a →
      DepthLt mem n b → Decides (eqTerm mem k a b) (a.value mem n = b.value mem n)) ∧
    ∀ k, 2 * n ≤ k + 1 → ∀ a b : Term, a.Valid space → b.Valid space' →
      a.kind mem = some .cons → b.kind mem = some .cons → DepthLt mem n a → DepthLt mem n b →
      Decides (eqSpine mem k a b) (a.value mem n = b.value mem n) := by
  induction n with
  | zero => exact ⟨fun _ _ _ _ _ _ h => h.elim, fun _ _ _ _ _ _ _ _ h => h.elim⟩
  | succ n ih =>
    have hspine : ∀ k, 2 * (n + 1) ≤ k + 1 → ∀ a b : Term, a.Valid space → b.Valid space' →
        a.kind mem = some .cons → b.kind mem = some .cons → DepthLt mem (n + 1) a →
        DepthLt mem (n + 1) b →
        Decides (eqSpine mem k a b) (a.value mem (n + 1) = b.value mem (n + 1)) := by
      intro k hk a b ha hb hka hkb hda hdb
      obtain ⟨k, rfl⟩ : ∃ m, k = m + 1 := ⟨k - 1, by omega⟩
      exact decides_spine hspace hspace' ha hb hda hdb (ih.1 k (by omega)) hka hkb
        (@TermSpace.isBoxed_of_kind mem space a ha .cons hka)
        (@TermSpace.isBoxed_of_kind mem space' b hb .cons hkb) (ih.2 k (by omega))
    refine ⟨fun k hk a b ha hb hda hdb => ?_, hspine⟩
    obtain ⟨k, rfl⟩ : ∃ m, k = m + 1 := ⟨k - 1, by omega⟩
    exact decides_term hspace hspace' ha hb hda hdb (ih.1 k (by omega)) fun hka hkb =>
      hspine k (by omega) a b ha hb hka hkb hda hdb

end Comparing

/-- From some fuel on, `eq` returns `r`. -/
def EqReturns (mem : Mem) (a b : Term) (r : Bool) : Prop :=
  ∃ n, ∀ k, n ≤ k → eqTerm mem k a b = .ok r

/-- A term that is well-formed among some objects of the memory. -/
def Term.Proper (mem : Mem) (t : Term) : Prop :=
  ∃ space, TermSpace mem space ∧ t.WellFormed mem space

section Equality

variable {mem : Mem} {space space' : Set ℕ} {a b : Term} {da db : Datum}

/-- `eq` says whether two terms mean the same. -/
theorem eqReturns_of_means (hspace : TermSpace mem space) (hspace' : TermSpace mem space')
    (ha : a.Means mem space da) (hb : b.Means mem space' db) :
    (EqReturns mem a b true ∧ da = db) ∨ (EqReturns mem a b false ∧ da ≠ db) := by
  obtain ⟨n, hda, hca, rfl⟩ := ha.denotes
  obtain ⟨m, hdb, hcb, rfl⟩ := hb.denotes
  have hva := Term.value_eq_of_le hspace ha.valid hda (Nat.le_max_left n m)
  have hvb := Term.value_eq_of_le hspace' hb.valid hdb (Nat.le_max_right n m)
  have hdecides := fun k (hk : 2 * max n m ≤ k) =>
    (decides_eq hspace hspace' (max n m)).1 k hk a b ha.valid hb.valid
      (hda.mono (Nat.le_max_left n m)) (hdb.mono (Nat.le_max_right n m))
  rw [hva, hvb] at hdecides
  by_cases heq : a.value mem n = b.value mem m
  · refine .inl ⟨⟨2 * max n m, fun k hk => ?_⟩, by rw [heq]⟩
    exact (hdecides k hk).elim (fun h => h.1) fun h => absurd heq h.2
  · refine .inr ⟨⟨2 * max n m, fun k hk => ?_⟩, fun h => heq (hca.datum_inj hcb h)⟩
    exact (hdecides k hk).elim (fun h => absurd h.2 heq) fun h => h.1

/-- `eq` does not return both answers. -/
private theorem not_eqReturns_both (h : EqReturns mem a b true) (h' : EqReturns mem a b false) :
    False := by
  obtain ⟨n, hn⟩ := h
  obtain ⟨m, hm⟩ := h'
  cases (hn (max n m) (Nat.le_max_left n m)).symm.trans (hm (max n m) (Nat.le_max_right n m))

/-- Terms that mean the same are equal, and only those. -/
theorem eqReturns_true_iff (hspace : TermSpace mem space) (hspace' : TermSpace mem space')
    (ha : a.Means mem space da) (hb : b.Means mem space' db) :
    EqReturns mem a b true ↔ da = db := by
  rcases eqReturns_of_means hspace hspace' ha hb with ⟨heq, hd⟩ | ⟨hne, hd⟩
  · exact ⟨fun _ => hd, fun _ => heq⟩
  · exact ⟨fun heq => (not_eqReturns_both heq hne).elim, fun h => absurd h hd⟩

private theorem equivalence_eqReturns (mem : Mem) :
    Equivalence fun a b : {t // Term.Proper mem t} => EqReturns mem a b true := by
  constructor
  · rintro ⟨a, space, hspace, d, ha⟩
    exact (eqReturns_true_iff hspace hspace ha ha).mpr rfl
  · rintro ⟨a, space, hspace, d, ha⟩ ⟨b, space', hspace', d', hb⟩ h
    have hd := (eqReturns_true_iff hspace hspace' ha hb).mp h
    exact (eqReturns_true_iff hspace' hspace hb ha).mpr hd.symm
  · rintro ⟨a, s₁, hs₁, d₁, ha⟩ ⟨b, s₂, hs₂, d₂, hb⟩ ⟨c, s₃, hs₃, d₃, hc⟩ hab hbc
    have h₁₂ := (eqReturns_true_iff hs₁ hs₂ ha hb).mp hab
    have h₂₃ := (eqReturns_true_iff hs₂ hs₃ hb hc).mp hbc
    exact (eqReturns_true_iff hs₁ hs₃ ha hc).mpr (h₁₂.trans h₂₃)

end Equality

/-! ### Builders, copies and images -/

/-- Two well-formed terms that `eq` finds equal. -/
structure EqualTerms (mem : Mem) (space : Set ℕ) (a b : Term) : Prop where
  /-- The first is well-formed. -/
  left : a.WellFormed mem space
  /-- So is the second. -/
  right : b.WellFormed mem space
  /-- They are equal. -/
  equal : EqReturns mem a b true

/-- What `f` builds and what `g` then builds are equal. -/
def BuildEqual {ε : Type} (st : Store) (f g : EStateM ε Store Term) : Prop :=
  ∀ t st₁ t' st₂, f st = .ok t st₁ → g st₁ = .ok t' st₂ → EqReturns st₂.mem t t' true

section Congruence

variable {st : Store} {space : Set ℕ} {a b : Term} {d : Datum}

private theorem EqualTerms.means (hspace : TermSpace st.mem space)
    (h : EqualTerms st.mem space a b) :
    ∃ d, a.Means st.mem space d ∧ b.Means st.mem space d := by
  obtain ⟨da, ha⟩ := h.left
  obtain ⟨db, hb⟩ := h.right
  cases (eqReturns_true_iff hspace hspace ha hb).mp h.equal
  exact ⟨da, ha, hb⟩

private theorem equalTerms_means (hspace : TermSpace st.mem space) {as bs : List Term}
    (h : List.Forall₂ (EqualTerms st.mem space) as bs) :
    ∃ ds, List.Forall₂ (Term.Means st.mem space) as ds ∧
      List.Forall₂ (Term.Means st.mem space) bs ds := by
  induction h with
  | nil => exact ⟨[], .nil, .nil⟩
  | cons hab _ ih =>
    obtain ⟨ds, has, hbs⟩ := ih
    obtain ⟨d, ha, hb⟩ := hab.means hspace
    exact ⟨d :: ds, .cons ha has, .cons hb hbs⟩

/-- Builders that make the same datum build equal terms. -/
private theorem Makes.buildEqual {ε : Type} {f g : EStateM ε Store Term}
    (hf : Makes space d f st)
    (hg : ∀ st₁ space₁, st.Grows st₁ space space₁ → Makes space₁ d g st₁) :
    BuildEqual st f g := by
  intro t st₁ t' st₂ hrun hrun'
  obtain ⟨space₁, hgrow, ht⟩ := EStateM.Ends.ok hf hrun
  obtain ⟨space₂, hgrow', ht'⟩ := EStateM.Ends.ok (hg st₁ space₁ hgrow) hrun'
  have hold := ht.mono hgrow.holds.objects (hgrow'.agree hgrow.holds) hgrow'.sub
  exact (eqReturns_true_iff hgrow'.holds.objects hgrow'.holds.objects hold ht').mpr rfl

private theorem equalPairs_means (hspace : TermSpace st.mem space) {ps qs : List (Term × Term)}
    (h : List.Forall₂ (fun p q => p.1 = q.1 ∧ p.1.Valid space ∧
      EqualTerms st.mem space p.2 q.2) ps qs) :
    ∃ wds, List.Forall₂ (PairMeans st.mem space) ps wds ∧
      List.Forall₂ (PairMeans st.mem space) qs wds := by
  induction h with
  | nil => exact ⟨[], .nil, .nil⟩
  | @cons p q ps qs hpq _ ih =>
    obtain ⟨hkey, hvalid, hvals⟩ := hpq
    obtain ⟨wds, hps, hqs⟩ := ih
    obtain ⟨d, hp, hq⟩ := hvals.means hspace
    exact ⟨(p.1.word, d) :: wds, .cons ⟨hvalid, rfl, hp⟩ hps,
      .cons ⟨hkey ▸ hvalid, by rw [hkey], hq⟩ hqs⟩

/-- Equality is a congruence for the builders that allocate from store `st`. -/
structure Congruent (st : Store) (space : Set ℕ) : Prop where
  /-- Tuples of equal elements are equal. -/
  tuple : ∀ as bs, List.Forall₂ (EqualTerms st.mem space) as bs →
    BuildEqual st (Heap.tuple as) (Heap.tuple bs)
  /-- List cells of equal parts are equal. -/
  cons : ∀ a b l m, EqualTerms st.mem space a b → EqualTerms st.mem space l m →
    BuildEqual st (Heap.cons a l) (Heap.cons b m)
  /-- Binaries with the same bytes are equal, whatever stands behind the bytes. -/
  binary : ∀ data, BuildEqual st (Heap.binary data) (Heap.binary data)
  /-- Lists of equal elements are equal. -/
  list : ∀ as bs, List.Forall₂ (EqualTerms st.mem space) as bs →
    BuildEqual st (Heap.list as) (Heap.list bs)
  /-- Maps from the same keys to equal values are equal. -/
  mapFromPairs : ∀ ps qs, List.Forall₂ (fun p q => p.1 = q.1 ∧ p.1.Valid space ∧
      EqualTerms st.mem space p.2 q.2) ps qs →
    BuildEqual st (fun st => (Heap.mapFromPairs ps st).1) fun st => (Heap.mapFromPairs qs st).1
  /-- Equal maps with equal values put under one key are equal. -/
  mapPut : ∀ m m' k v v', m.kind st.mem = some .map → EqualTerms st.mem space m m' →
    k.Valid space → EqualTerms st.mem space v v' →
    BuildEqual st (Heap.mapPut m k v) (Heap.mapPut m' k v')

private theorem congruent (hst : st.Holds space) : Congruent st space := by
  have hobjects := hst.objects
  have hmono : ∀ {st₁ space₁ t d}, st.Grows st₁ space space₁ → Term.Means st.mem space t d →
      t.Means st₁.mem space₁ d := fun hgrow ht => ht.mono hobjects (hgrow.agree hst) hgrow.sub
  refine ⟨fun as bs h => ?_, fun a b l m hab hlm => ?_, fun data => ?_, fun as bs h => ?_,
    fun ps qs h => ?_, fun m m' k v v' hmap hm hk hv => ?_⟩
  · obtain ⟨ds, has, hbs⟩ := equalTerms_means hobjects h
    exact (makes_tuple hst has).buildEqual fun st₁ space₁ hgrow =>
      makes_tuple hgrow.holds (hbs.imp fun _ _ => hmono hgrow)
  · obtain ⟨d, ha, hb⟩ := hab.means hobjects
    obtain ⟨d', hl, hm⟩ := hlm.means hobjects
    exact (makes_cons hst ha hl).buildEqual fun st₁ space₁ hgrow =>
      makes_cons hgrow.holds (hmono hgrow hb) (hmono hgrow hm)
  · exact (makes_binary hst data).buildEqual fun st₁ space₁ hgrow =>
      makes_binary hgrow.holds data
  · obtain ⟨ds, has, hbs⟩ := equalTerms_means hobjects h
    exact (makes_list hst has).buildEqual fun st₁ space₁ hgrow =>
      makes_list hgrow.holds (hbs.imp fun _ _ => hmono hgrow)
  · obtain ⟨wds, hps, hqs⟩ := equalPairs_means hobjects h
    exact (makes_mapFromPairs hst hps).buildEqual fun st₁ space₁ hgrow =>
      makes_mapFromPairs hgrow.holds
        (hqs.imp fun _ _ hpair => ⟨hpair.key.mono hgrow.sub, hpair.word, hmono hgrow hpair.value⟩)
  · obtain ⟨d, hmd, hmd'⟩ := hm.means hobjects
    obtain ⟨get, rfl⟩ := hmd.denotes.of_map hmap
    obtain ⟨dv, hvd, hvd'⟩ := hv.means hobjects
    exact (makes_mapPut hst hmd hk hvd).buildEqual fun st₁ space₁ hgrow =>
      makes_mapPut hgrow.holds (hmono hgrow hmd') (hk.mono hgrow.sub) (hmono hgrow hvd')

end Congruence

/-- Structural equality is equality of values. On well-formed terms `eq` returns, and it returns
true exactly for terms that denote the same. So it is an equivalence relation and a congruence
for the builders, and a term equals its deep copy. A term also equals its image under
evacuation in every memory where both are whole: evacuation itself overwrites the headers of
the objects it moves. -/
theorem eq_is_equality_of_values :
    (∀ (mem : Mem) (a b : Term), a.Proper mem → b.Proper mem →
      ∃ r, EqReturns mem a b r ∧ (r = true ↔ ∃ d, a.Denotes mem d ∧ b.Denotes mem d)) ∧
    (∀ mem : Mem, Equivalence fun a b : {t // Term.Proper mem t} => EqReturns mem a b true) ∧
    (∀ (st : Store) (space : Set ℕ), st.Holds space → Congruent st space) ∧
    (∀ (st st' : Store) (space : Set ℕ) (n : ℕ) (t t' : Term), st.Holds space →
      t.WellFormed st.mem space → DepthLt st.mem n t → copyTerm n t st = .ok t' st' →
      EqReturns st'.mem t t' true) ∧
    ∀ (mem : Mem) (dst : Heap) (space : Set ℕ) (fuel : ℕ) (ts ts' : List Term) (st' : Store),
      TermSpace mem space → dst.top ≤ dst.cap → dst.base + dst.cap ≤ 2 ^ 61 →
      dst.cap < 2 ^ 58 →
      (∀ a ∈ space, a + sizeAt mem a ≤ dst.base ∨ dst.base + dst.cap ≤ a) →
      (∀ t ∈ ts, t.WellFormed mem space) → evacuate fuel ts ⟨mem, dst⟩ = .ok ts' st' →
      ∃ space', st'.Holds space' ∧ List.Forall₂ (fun t t' => t'.WellFormed st'.mem space' ∧
        ∀ mem', Agree mem mem' space → Agree st'.mem mem' space' →
          EqReturns mem' t t' true) ts ts' := by
  refine ⟨?_, equivalence_eqReturns, fun st space => congruent, ?_, ?_⟩
  · rintro mem a b ⟨space, hspace, da, ha⟩ ⟨space', hspace', db, hb⟩
    rcases eqReturns_of_means hspace hspace' ha hb with ⟨heq, rfl⟩ | ⟨hne, hd⟩
    · exact ⟨true, heq, iff_of_true rfl ⟨da, ha.denotes, hb.denotes⟩⟩
    · refine ⟨false, hne, iff_of_false (by decide) ?_⟩
      rintro ⟨d, had, hbd⟩
      exact hd ((ha.denotes.unique hspace ha.valid had).trans
        (hbd.unique hspace' hb.valid hb.denotes))
  · rintro st st' space n t t' hst ⟨d, ht⟩ hdepth hrun
    obtain ⟨space', hgrow, ht'⟩ := EStateM.Ends.ok (makes_copyTerm hst ht hdepth) hrun
    have hold := ht.mono hst.objects (hgrow.agree hst) hgrow.sub
    exact (eqReturns_true_iff hgrow.holds.objects hgrow.holds.objects hold ht').mpr rfl
  · intro mem dst space fuel ts ts' st' hspace htop hbound hcap hapart hts hrun
    have hvalid : ∀ t ∈ ts, t.Valid space := fun t ht => (hts t ht).elim fun _ h => h.valid
    obtain ⟨space', hst', himages⟩ := evacuate_images hspace htop hbound hcap hapart hvalid hrun
    refine ⟨space', hst', List.forall₂_iff_get.mpr ⟨himages.length_eq, fun i hi hi' => ?_⟩⟩
    obtain ⟨hvalid', hsame⟩ := himages.get hi hi'
    obtain ⟨d, ht⟩ := hts _ (List.getElem_mem hi)
    have ht' : (ts'.get ⟨i, hi'⟩).Means st'.mem space' d := ⟨hvalid', (hsame d).mpr ht.denotes⟩
    refine ⟨⟨d, ht'⟩, fun mem' hag hag' => ?_⟩
    exact (eqReturns_true_iff (hspace.congr hag) (hst'.objects.congr hag')
      (ht.mono hspace hag subset_rfl) (ht'.mono hst'.objects hag' subset_rfl)).mpr rfl

/-- Two pairs built one after the other are equal, though they stand at different places. -/
theorem built_twice_equal :
    ∃ t st₁ t' st₂, Heap.tuple [Term.int 1, Term.int 2] sixteenWords = .ok t st₁ ∧
      Heap.tuple [Term.int 1, Term.int 2] st₁ = .ok t' st₂ ∧ t ≠ t' ∧
      EqReturns st₂.mem t t' true := by
  have hint : ∀ w, (Term.int w).isBoxed = false →
      EqualTerms sixteenWords.mem ∅ (Term.int w) (Term.int w) := fun w hbox =>
    have hvalid : (Term.int w).Valid ∅ := Term.valid_int w
    have hwell : (Term.int w).WellFormed sixteenWords.mem ∅ :=
      ⟨_, hvalid, Term.denotes_immediate hvalid.1 hbox⟩
    ⟨hwell, hwell, 1, fun k hk => by
      obtain ⟨k, rfl⟩ : ∃ m, k = m + 1 := ⟨k - 1, by omega⟩
      rw [eqTerm, if_pos rfl]⟩
  have hcongruent := eq_is_equality_of_values.2.2.1 sixteenWords ∅ sixteenWords_holds
  refine ⟨_, _, _, _, rfl, rfl, by decide, ?_⟩
  exact hcongruent.tuple _ _ (.cons (hint 1 rfl) (.cons (hint 2 rfl) .nil)) _ _ _ _ rfl rfl

end Yggdrasil
