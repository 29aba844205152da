import Mathlib.Data.List.Induction
import Mathlib.Data.List.Pairwise
import Mathlib.Data.List.Sort

/-!
# Lists with keys, where the last entry of a key wins

A list of entries stands for a finite map: the entry of a key is the last one in the list.
Sorting by key without changing the order of equal keys, and keeping the last entry of each
run of equal keys, does not change the map and gives it a form that depends on the map only.
-/

namespace LastWins

variable {α κ : Type*} [LinearOrder κ] (key : α → κ)

/-- The last entry with a key. -/
def find (k : κ) (l : List α) : Option α := l.reverse.find? fun a => key a = k

variable {key} {k : κ} {l l' : List α} {a b : α}

/-- No entries. -/
@[simp] theorem find_nil : find key k ([] : List α) = none := rfl

/-- An entry of the second list wins over those of the first. -/
theorem find_append : find key k (l ++ l') = (find key k l').or (find key k l) := by
  rw [find, List.reverse_append, List.find?_append]
  rfl

/-- The last entry wins over all others. -/
theorem find_concat : find key k (l ++ [a]) = if key a = k then some a else find key k l := by
  rw [find_append, find]
  by_cases h : key a = k <;> simp [h]

/-- What is found is an entry with the key. -/
theorem find_some (h : find key k l = some a) : a ∈ l ∧ key a = k :=
  ⟨List.mem_reverse.mp (List.mem_of_find?_eq_some h), by simpa using List.find?_some h⟩

/-- A key without entries. -/
theorem find_eq_none : find key k l = none ↔ ∀ a ∈ l, key a ≠ k := by
  simp [find, List.find?_eq_none]

/-- Only the entries with the key matter. -/
theorem find_filter : find key k (l.filter fun a => key a = k) = find key k l := by
  induction l using List.reverseRecOn with
  | nil => rfl
  | append_singleton l a ih =>
    rw [List.filter_append, find_append, ih, find_append]
    by_cases h : key a = k <;> simp [h, find]

variable (key)

/-- The keys increase strictly. -/
def Increasing (l : List α) : Prop := l.Pairwise fun a b => key a < key b

variable {key}

/-- Each entry is found under its key. -/
theorem Increasing.find_key (h : Increasing key l) (ha : a ∈ l) : find key (key a) l = some a := by
  cases hfound : find key (key a) l with
  | none => exact absurd rfl (find_eq_none.mp hfound a ha)
  | some b =>
    obtain ⟨hb, hkey⟩ := find_some hfound
    by_contra hne
    have hne : a ≠ b := fun heq => hne (by rw [heq])
    have hkeys : l.Pairwise fun a b => key a ≠ key b := h.imp ne_of_lt
    have : Std.Symm fun a b : α => key a ≠ key b := ⟨fun _ _ h => h.symm⟩
    exact hkeys.forall ha hb hne hkey.symm

private theorem Increasing.mem_iff (h : Increasing key l) :
    a ∈ l ↔ find key (key a) l = some a :=
  ⟨h.find_key, fun hfound => (find_some hfound).1⟩

/-- Lists with increasing keys are equal if they have the same entries. -/
theorem Increasing.ext_mem (h : Increasing key l) (h' : Increasing key l')
    (hmem : ∀ a, a ∈ l ↔ a ∈ l') : l = l' := by
  have hnodup : ∀ {l : List α}, Increasing key l → l.Nodup := by
    intro l h
    refine List.Pairwise.imp (fun hlt heq => ?_) h
    exact absurd (congrArg key heq) (ne_of_lt hlt)
  have hperm : l.Perm l' := (List.perm_ext_iff_of_nodup (hnodup h) (hnodup h')).mpr hmem
  exact hperm.eq_of_pairwise (fun a b _ _ hab hba => absurd hab (lt_asymm hba)) h h'

/-- Lists with increasing keys are equal if the same is found in both. -/
theorem Increasing.ext (h : Increasing key l) (h' : Increasing key l')
    (hfind : ∀ k, find key k l = find key k l') : l = l' := by
  refine h.ext_mem h' fun a => ?_
  rw [h.mem_iff, h'.mem_iff, hfind]

variable (key)

/-- Add an entry behind those kept so far; it replaces the last one if that has its key. -/
def push (kept : List α) (cur : α) : List α :=
  match kept.getLast? with
  | some last => if key last = key cur then kept.dropLast ++ [cur] else kept ++ [cur]
  | none => [cur]

/-- Keep the last entry of each run of equal keys. -/
def compact (l : List α) : List α := l.foldl (push key) []

variable {key}

/-- One more entry is pushed onto the compacted list. -/
theorem compact_concat : compact key (l ++ [a]) = push key (compact key l) a := by
  rw [compact, List.foldl_append]
  rfl

variable (key) in
/-- A new entry is added, or replaces the last one. -/
theorem push_cases (kept : List α) (cur : α) :
    (∃ init last, kept = init ++ [last] ∧ key last = key cur ∧
      push key kept cur = init ++ [cur]) ∨
    ((∀ last, kept.getLast? = some last → key last ≠ key cur) ∧
      push key kept cur = kept ++ [cur]) := by
  cases hlast : kept.getLast? with
  | none =>
    refine .inr ⟨by simp, ?_⟩
    rw [List.getLast?_eq_none_iff.mp hlast]
    rfl
  | some last =>
    obtain ⟨init, rfl⟩ := List.getLast?_eq_some_iff.mp hlast
    by_cases hkey : key last = key cur
    · refine .inl ⟨init, last, rfl, hkey, ?_⟩
      simp [push, hkey]
    · refine .inr ⟨fun last' hlast' => ?_, ?_⟩
      · cases hlast'
        exact hkey
      · simp [push, hkey]

/-- Adding an entry changes its key only. -/
theorem find_push : find key k (push key l a) = if key a = k then some a else find key k l := by
  rcases push_cases key l a with ⟨init, last, rfl, hkey, heq⟩ | ⟨-, heq⟩
  · rw [heq, find_concat, find_concat, hkey]
    split <;> rfl
  · rw [heq, find_concat]

/-- The compacted list stands for the same map. -/
theorem find_compact : find key k (compact key l) = find key k l := by
  induction l using List.reverseRecOn with
  | nil => rfl
  | append_singleton l a ih => rw [compact_concat, find_push, ih, find_concat]

/-- Compaction adds no entries. -/
theorem mem_of_mem_compact (h : a ∈ compact key l) : a ∈ l := by
  induction l using List.reverseRecOn with
  | nil => exact h
  | append_singleton l b ih =>
    rw [compact_concat] at h
    rcases push_cases key (compact key l) b with
      ⟨init, last, hkept, -, heq⟩ | ⟨-, heq⟩
    · rw [heq] at h
      rcases List.mem_append.mp h with h | h
      · exact List.mem_append_left _ (ih (hkept ▸ List.mem_append_left _ h))
      · exact List.mem_append_right _ h
    · rw [heq] at h
      exact List.mem_append.mpr ((List.mem_append.mp h).imp_left ih)

/-- Each entry takes up at least one place. -/
theorem length_compact_le : (compact key l).length ≤ l.length := by
  induction l using List.reverseRecOn with
  | nil => exact Nat.le_refl _
  | append_singleton l a ih =>
    rw [compact_concat]
    rcases push_cases key (compact key l) a with
      ⟨init, last, hkept, -, heq⟩ | ⟨-, heq⟩
    · rw [hkept] at ih
      rw [heq]
      simp only [List.length_append, List.length_singleton] at ih ⊢
      omega
    · rw [heq]
      simp only [List.length_append, List.length_singleton]
      omega

/-- The keys of a compacted sorted list increase strictly. -/
theorem increasing_compact (h : l.Pairwise fun a b => key a ≤ key b) :
    Increasing key (compact key l) := by
  induction l using List.reverseRecOn with
  | nil => exact List.Pairwise.nil
  | append_singleton l a ih =>
    obtain ⟨hl, -, hle⟩ := List.pairwise_append.mp h
    have hle : ∀ b ∈ compact key l, key b ≤ key a := fun b hb =>
      hle b (mem_of_mem_compact hb) a (List.mem_singleton_self a)
    have hkept := ih hl
    rw [compact_concat]
    rcases push_cases key (compact key l) a with
      ⟨init, last, hinit, hkey, heq⟩ | ⟨hne, heq⟩
    · rw [hinit] at hkept
      obtain ⟨hbefore, -, hlt⟩ := List.pairwise_append.mp hkept
      rw [heq]
      refine List.pairwise_append.mpr ⟨hbefore, List.pairwise_singleton _ _, fun b hb c hc => ?_⟩
      rw [List.mem_singleton.mp hc, ← hkey]
      exact hlt b hb last (List.mem_singleton_self last)
    · rw [heq]
      refine List.pairwise_append.mpr ⟨hkept, List.pairwise_singleton _ _, fun b hb c hc => ?_⟩
      rw [List.mem_singleton.mp hc]
      refine lt_of_le_of_ne (hle b hb) fun hkey => ?_
      -- An entry with the new key would be the last one kept.
      obtain ⟨init, last, hinit⟩ := List.eq_nil_or_concat' (compact key l) |>.resolve_left
        (List.ne_nil_of_mem hb)
      rw [hinit] at hkept hb
      have hlast : key last ≠ key a := hne last (by rw [hinit, List.getLast?_concat])
      rcases List.mem_append.mp hb with hb | hb
      · have hlt := (List.pairwise_append.mp hkept).2.2 b hb last (List.mem_singleton_self last)
        have hge : key last ≤ key a :=
          hle last (hinit ▸ List.mem_append_right _ (List.mem_singleton_self last))
        exact absurd (hkey ▸ hlt) (not_lt_of_ge hge)
      · exact hlast (List.mem_singleton.mp hb ▸ hkey)

section Sorting

variable {r : α → α → Prop} [DecidableRel r]

/-- Sorting by key keeps the order of entries with one key, so it stands for the same map. -/
theorem find_insertionSort (hr : ∀ a b, r a b ↔ key a ≤ key b) :
    find key k (l.insertionSort r) = find key k l := by
  have hsub : (l.filter fun a => key a = k).Sublist (l.insertionSort r) := by
    refine List.sublist_insertionSort ?_ List.filter_sublist
    refine List.pairwise_of_forall_mem_list fun a ha b hb => (hr a b).mpr ?_
    have hka : key a = k := by simpa using (List.mem_filter.mp ha).2
    have hkb : key b = k := by simpa using (List.mem_filter.mp hb).2
    rw [hka, hkb]
  have heq : (l.insertionSort r).filter (fun a => key a = k) = l.filter fun a => key a = k := by
    have hfilter := hsub.filter fun a => key a = k
    rw [List.filter_filter] at hfilter
    simp only [Bool.and_self] at hfilter
    refine (hfilter.eq_of_length ?_).symm
    exact (((List.perm_insertionSort r l).filter _).length_eq).symm
  rw [← find_filter, heq, find_filter]

variable (key) (r) in
/-- The form of a map: sorted by key, one entry for each key. -/
def canonical (l : List α) : List α := compact key (l.insertionSort r)

variable (hr : ∀ a b, r a b ↔ key a ≤ key b)

include hr

/-- The canonical form stands for the same map. -/
theorem find_canonical : find key k (canonical key r l) = find key k l := by
  rw [canonical, find_compact, find_insertionSort hr]

/-- Its keys increase strictly. -/
theorem increasing_canonical : Increasing key (canonical key r l) := by
  have : Std.Total r := ⟨fun a b => (le_total (key a) (key b)).imp (hr a b).mpr (hr b a).mpr⟩
  have : IsTrans α r := ⟨fun a b c hab hbc =>
    (hr a c).mpr (le_trans ((hr a b).mp hab) ((hr b c).mp hbc))⟩
  exact increasing_compact ((List.pairwise_insertionSort r l).imp fun {a b} => (hr a b).mp)

/-- The canonical form depends on the map only. -/
theorem canonical_congr (h : ∀ k, find key k l = find key k l') :
    canonical key r l = canonical key r l' := by
  refine (increasing_canonical hr).ext (increasing_canonical hr) fun k => ?_
  rw [find_canonical hr, find_canonical hr, h]

end Sorting

/-- Compacting in place leaves the entries behind the kept ones as they were. What is left
stands for the same map: the last entry of a key is behind or was kept. -/
theorem find_leftover :
    find key k (compact key l ++ l.drop (compact key l).length) = find key k l := by
  have hsplit : find key k l = (find key k (l.drop (compact key l).length)).or
      (find key k (l.take (compact key l).length)) := by
    rw [← find_append, List.take_append_drop]
  rw [find_append, find_compact, hsplit, ← Option.or_assoc, Option.or_self]

end LastWins
