import Mathlib.Algebra.Group.Nat.Defs
import Mathlib.Data.List.Basic
import Mathlib.Data.List.Nodup

/-!
# Tables of names

The assembler numbers atoms and labels in the order it meets them. The tables carry what
holds of them at any time: a name is entered once, and has one number.
-/

namespace Yggdrasil

namespace Asm

/-- `Atoms`: the names in order, each with its index. -/
structure Atoms where
  /-- The names. -/
  names : List String
  /-- The index of each name. -/
  index : List (String × UInt32)
  /-- A name is entered once. -/
  nodup : names.Nodup
  /-- The index of a name is where it is, cut to its width. -/
  index_eq : ∀ s, index.lookup s =
    if s ∈ names then some (UInt32.ofNat (names.idxOf s)) else none

namespace Atoms

/-- No atoms. -/
def empty : Atoms := ⟨[], [], List.nodup_nil, fun _ => rfl⟩

/-- A name that is not in the index is new. -/
theorem not_mem_of_lookup {t : Atoms} {s : String} (h : t.index.lookup s = none) :
    s ∉ t.names := by
  intro hs
  rw [t.index_eq, if_pos hs] at h
  cases h

private theorem index_push {t : Atoms} {s : String} (h : t.index.lookup s = none) (x : String) :
    ((s, UInt32.ofNat t.names.length) :: t.index).lookup x =
      if x ∈ t.names ++ [s] then some (UInt32.ofNat ((t.names ++ [s]).idxOf x)) else none := by
  have hs := not_mem_of_lookup h
  rw [List.lookup_cons]
  by_cases hx : x = s
  · subst hx
    rw [if_pos (by simp), List.idxOf_append_of_notMem hs]
    simp
  · have hne : (x == s) = false := by simpa using hx
    rw [hne, t.index_eq]
    by_cases hmem : x ∈ t.names
    · rw [if_pos hmem, if_pos (List.mem_append_left _ hmem), List.idxOf_append_of_mem hmem]
    · rw [if_neg hmem, if_neg (by simp [hmem, hx])]

/-- `intern`: the index of an atom and the table that holds it. -/
def intern (t : Atoms) (s : String) : UInt32 × Atoms :=
  match h : t.index.lookup s with
  | some i => (i, t)
  | none =>
    (UInt32.ofNat t.names.length,
      ⟨t.names ++ [s], (s, UInt32.ofNat t.names.length) :: t.index,
        List.nodup_append.mpr ⟨t.nodup, List.nodup_singleton s, by
          intro a ha b hb
          rw [List.mem_singleton.mp hb]
          exact ne_of_mem_of_not_mem ha (not_mem_of_lookup h)⟩,
        index_push h⟩)

section

variable (t : Atoms) (s : String)

private theorem intern_old {i : UInt32} (h : t.index.lookup s = some i) : t.intern s = (i, t) := by
  unfold intern
  split
  · next i' h' =>
    rw [h] at h'
    cases h'
    rfl
  · next h' =>
    rw [h] at h'
    cases h'

private theorem intern_new (h : t.index.lookup s = none) :
    (t.intern s).1 = UInt32.ofNat t.names.length ∧ (t.intern s).2.names = t.names ++ [s] ∧
      (t.intern s).2.index = (s, UInt32.ofNat t.names.length) :: t.index := by
  unfold intern
  split
  · next i' h' =>
    rw [h] at h'
    cases h'
  · exact ⟨rfl, rfl, rfl⟩

/-- A name that is interned has its index. -/
theorem lookup_intern : (t.intern s).2.index.lookup s = some (t.intern s).1 := by
  cases h : t.index.lookup s with
  | some i =>
    rw [intern_old t s h]
    exact h
  | none =>
    obtain ⟨hfst, -, hindex⟩ := intern_new t s h
    rw [hindex, hfst, List.lookup_cons_self]

variable {t}

/-- Names keep their index. -/
theorem lookup_mono {x : String} {i : UInt32} (h : t.index.lookup x = some i) :
    (t.intern s).2.index.lookup x = some i := by
  cases hs : t.index.lookup s with
  | some i' =>
    rw [intern_old t s hs]
    exact h
  | none =>
    obtain ⟨-, -, hindex⟩ := intern_new t s hs
    have hne : (x == s) = false := by
      refine beq_false_of_ne fun heq => ?_
      rw [heq, hs] at h
      cases h
    rw [hindex, List.lookup_cons, hne]
    exact h

/-- The names behind an interned one. -/
theorem names_intern : (t.intern s).2.names = if s ∈ t.names then t.names else t.names ++ [s] := by
  have hindex := t.index_eq s
  by_cases hs : s ∈ t.names
  · rw [if_pos hs] at hindex
    rw [intern_old t s hindex, if_pos hs]
  · rw [if_neg hs] at hindex
    rw [(intern_new t s hindex).2.1, if_neg hs]

end

/-- Intern names one after the other. -/
def internAll (t : Atoms) (names : List String) : Atoms :=
  names.foldl (fun t s => (t.intern s).2) t

/-- The names are those met, without repetitions. -/
theorem names_intern_eraseDups {t : Atoms} {l : List String} (h : t.names = l.eraseDups)
    (s : String) : (t.intern s).2.names = (l ++ [s]).eraseDups := by
  rw [names_intern, h, List.eraseDups_append]
  by_cases hs : s ∈ l
  · rw [if_pos (List.mem_eraseDups.mpr hs)]
    simp [List.removeAll, hs]
  · rw [if_neg (mt List.mem_eraseDups.mp hs)]
    simp [List.removeAll, hs, List.eraseDups_cons]

/-- Names that are interned one after the other. -/
theorem names_internAll {t : Atoms} {l : List String} (h : t.names = l.eraseDups)
    (names : List String) : (t.internAll names).names = (l ++ names).eraseDups := by
  induction names generalizing t l with
  | nil => rw [List.append_nil, ← h, internAll, List.foldl_nil]
  | cons s names ih =>
    have hstep := ih (names_intern_eraseDups h s)
    rwa [List.append_assoc] at hstep

/-- Names keep their index. -/
theorem lookup_internAll {t : Atoms} {x : String} {i : UInt32} (h : t.index.lookup x = some i)
    (names : List String) : (t.internAll names).index.lookup x = some i := by
  induction names generalizing t with
  | nil => exact h
  | cons s names ih => exact ih (lookup_mono s h)

/-- A table with more names behind its own keeps the index of each. -/
theorem lookup_of_isPrefix {t t' : Atoms} (h : t.names <+: t'.names) {x : String} {i : UInt32}
    (hx : t.index.lookup x = some i) : t'.index.lookup x = some i := by
  obtain ⟨more, hmore⟩ := h
  rw [t.index_eq] at hx
  split at hx
  · next hmem =>
    rw [t'.index_eq, ← hmore, if_pos (List.mem_append_left _ hmem),
      List.idxOf_append_of_mem hmem]
    exact hx
  · cases hx

end Atoms

/-- The numbers of label names. -/
structure Labels where
  /-- The number of each name. -/
  ids : List (String × UInt32)
  /-- `next_label`: the next number. -/
  next : UInt32
  /-- Numbers are given in order. -/
  lt_next : ∀ name id, ids.lookup name = some id → id < next
  /-- No two names have one number. -/
  inj : ∀ name name' id, ids.lookup name = some id → ids.lookup name' = some id → name = name'

namespace Labels

/-- No labels. -/
def empty : Labels := ⟨[], 0, by simp, by simp⟩

private theorem lookup_push {t : Labels} {name x : String} {id : UInt32}
    (h : ((name, t.next) :: t.ids).lookup x = some id) :
    x = name ∧ id = t.next ∨ t.ids.lookup x = some id := by
  rw [List.lookup_cons] at h
  by_cases hx : x = name
  · subst hx
    rw [beq_self_eq_true] at h
    exact .inl ⟨rfl, (Option.some.inj h).symm⟩
  · have hne : (x == name) = false := by simpa using hx
    rw [hne] at h
    exact .inr h

private theorem next_lt {t : Labels} (h : t.next.toNat + 1 < 2 ^ 32) : t.next < t.next + 1 := by
  rw [UInt32.lt_iff_toNat_lt, UInt32.toNat_add, UInt32.toNat_one, Nat.mod_eq_of_lt h]
  exact Nat.lt_succ_self _

private theorem lt_next_push {t : Labels} (name : String) (h : t.next.toNat + 1 < 2 ^ 32)
    (x : String) (id : UInt32) (hx : ((name, t.next) :: t.ids).lookup x = some id) :
    id < t.next + 1 := by
  rcases lookup_push hx with ⟨-, rfl⟩ | hx
  · exact next_lt h
  · exact UInt32.lt_trans (t.lt_next x id hx) (next_lt h)

private theorem inj_push {t : Labels} (name x y : String) (id : UInt32)
    (hx : ((name, t.next) :: t.ids).lookup x = some id)
    (hy : ((name, t.next) :: t.ids).lookup y = some id) : x = y := by
  rcases lookup_push hx with ⟨rfl, rfl⟩ | hold
  · rcases lookup_push hy with ⟨rfl, -⟩ | hold'
    · rfl
    · exact absurd (t.lt_next y _ hold') (UInt32.lt_irrefl _)
  · rcases lookup_push hy with ⟨rfl, rfl⟩ | hold'
    · exact absurd (t.lt_next x _ hold) (UInt32.lt_irrefl _)
    · exact t.inj x y id hold hold'

/-- `label_id`: the number of a name, a new one at the first mention. There is none when the
counter overflows. -/
def id (t : Labels) (name : String) : Option (UInt32 × Labels) :=
  match t.ids.lookup name with
  | some id => some (id, t)
  | none =>
    if h : t.next.toNat + 1 < 2 ^ 32 then
      some (t.next, ⟨(name, t.next) :: t.ids, t.next + 1, lt_next_push name h, inj_push name⟩)
    else none

/-- What a mention of a label does. -/
theorem id_spec {t t' : Labels} {name : String} {i : UInt32} (h : t.id name = some (i, t')) :
    t'.ids.lookup name = some i ∧ (∀ x j, t.ids.lookup x = some j → t'.ids.lookup x = some j) ∧
      (∀ x j, t'.ids.lookup x = some j →
        t.ids.lookup x = some j ∨ t.ids.lookup x = none ∧ j = t.next) ∧ t.next ≤ t'.next := by
  unfold id at h
  split at h
  · next j hj =>
    cases h
    exact ⟨hj, fun _ _ h => h, fun _ _ h => .inl h, UInt32.le_refl _⟩
  · next hnone =>
    split at h
    · next hnext =>
      cases h
      refine ⟨List.lookup_cons_self, fun x j hx => ?_, fun x j hx => ?_,
        UInt32.le_of_lt (next_lt hnext)⟩
      · have hne : (x == name) = false := by
          refine beq_false_of_ne fun heq => ?_
          rw [heq, hnone] at hx
          cases hx
        rw [List.lookup_cons, hne]
        exact hx
      · rcases lookup_push hx with ⟨rfl, rfl⟩ | hold
        · exact .inr ⟨hnone, rfl⟩
        · exact .inl hold
    · cases h

end Labels

end Asm

end Yggdrasil
