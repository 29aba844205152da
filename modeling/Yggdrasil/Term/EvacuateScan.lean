import Yggdrasil.Term.EvacuateInv

/-!
# Scanning the copies

The scan updates one reference after the other, object by object. Each round of the
loop moves the scan position over one copy and may append new ones; there are at
most as many rounds as live objects.
-/

namespace Yggdrasil

namespace Evac

open Layout

variable {mem : Mem} {space : Set ℕ} {live : Finset ℕ} {dst : Heap} {ds : List ℕ} {q : ℕ}
  {s : Store}

private theorem copyOf_inj {a b i j : ℕ} (ha : a ∈ ds) (hb : b ∈ ds) (hi : i < sizeAt mem a)
    (hj : j < sizeAt mem b) (h : copyOf mem dst ds a + i = copyOf mem dst ds b + j) :
    a = b ∧ i = j := by
  by_cases hab : a = b
  · subst hab
    exact ⟨rfl, by omega⟩
  · have hdisj : offset (sizeAt mem) ds a + sizeAt mem a ≤ offset (sizeAt mem) ds b ∨
        offset (sizeAt mem) ds b + sizeAt mem b ≤ offset (sizeAt mem) ds a :=
      offset_disjoint ha hb hab
    simp only [copyOf] at h
    omega

private theorem Inv.storeRef (hsetup : Setup mem space live dst) {p : ℕ}
    (h : Inv mem live dst ds p s) {a j : ℕ} (ha : a ∈ ds) (hj : IsRef (mem a) j)
    (hp : p = copyOf mem dst ds a + j)
    (hclosed : Term.isBoxed ⟨mem (a + j)⟩ = true → Term.addr ⟨mem (a + j)⟩ ∈ ds) :
    Inv mem live dst ds (p + 1)
      { s with mem := Function.update s.mem p (forward mem dst ds ⟨mem (a + j)⟩).word } := by
  have hcap := h.fits
  have hin : next dst ≤ p ∧ p < next dst + total (sizeAt mem) ds :=
    hp ▸ copyOf_bounds ha hj.bounds.2
  have hcell : ∀ b ∈ ds, ∀ i < sizeAt mem b, copyOf mem dst ds b + i = p → b = a ∧ i = j :=
    fun b hb i hi heq => copyOf_inj hb ha hi hj.bounds.2 (heq.trans hp)
  refine ⟨h.heap, h.fits, h.nodup, h.sub, ?_, ?_, ?_, ?_⟩
  · intro b hb i hi
    dsimp only
    by_cases heq : copyOf mem dst ds b + i = p
    · obtain ⟨rfl, rfl⟩ := hcell b hb i hi heq
      rw [if_pos ⟨hj, by omega⟩, heq, Function.update_self]
    · rw [Function.update_of_ne heq, h.copies b hb i hi]
      have hlt : copyOf mem dst ds b + i < p ↔ copyOf mem dst ds b + i < p + 1 := by omega
      simp only [hlt]
  · intro b hb i hi hlt hboxed
    by_cases heq : copyOf mem dst ds b + i = p
    · obtain ⟨rfl, rfl⟩ := hcell b hb i hi.bounds.2 heq
      exact hclosed hboxed
    · exact h.closed b hb i hi (by omega) hboxed
  · intro b hb
    have hout : b < next dst ∨ dst.base + dst.cap ≤ b := by
      simpa using hsetup.outside (h.sub b hb) (hsetup.sizeAt_pos (h.sub b hb))
    simp only [next] at *
    rw [Function.update_of_ne (by omega), h.forwards b hb]
  · intro c hc hrange
    dsimp only
    rw [Function.update_of_ne (by omega), h.frame c hc hrange]

private theorem Inv.advance {q' : ℕ} (h : Inv mem live dst ds q s) (hle : q ≤ q')
    (hrefs : ∀ a ∈ ds, ∀ j, IsRef (mem a) j → q ≤ copyOf mem dst ds a + j →
      q' ≤ copyOf mem dst ds a + j) : Inv mem live dst ds q' s := by
  have hiff : ∀ a ∈ ds, ∀ j, IsRef (mem a) j →
      (copyOf mem dst ds a + j < q' ↔ copyOf mem dst ds a + j < q) := by
    intro a ha j hj
    have := hrefs a ha j hj
    omega
  refine ⟨h.heap, h.fits, h.nodup, h.sub, ?_, ?_, h.forwards, h.frame⟩
  · intro a ha j hj
    rw [h.copies a ha j hj]
    by_cases href : IsRef (mem a) j
    · simp only [hiff a ha j href]
    · simp only [href, false_and]
  · intro a ha j hj hlt
    exact h.closed a ha j hj ((hiff a ha j hj).mp hlt)

private theorem Inv.fields_ends (hsetup : Setup mem space live dst) {p n a j : ℕ}
    (h : Inv mem live dst ds p s) (ha : a ∈ ds) (hp : p = copyOf mem dst ds a + j)
    (hrefs : ∀ i < n, IsRef (mem a) (j + i)) :
    EStateM.Ends (fun e _ => Full mem live dst e)
      (fun _ s' => ∃ more, Inv mem live dst (ds ++ more) (p + n) s') (fields p n) s := by
  induction n generalizing p j ds s with
  | zero => exact ⟨[], by simpa using h⟩
  | succ n ih =>
    have hj : IsRef (mem a) j := by simpa using hrefs 0 (by omega)
    have hin : next dst ≤ p ∧ p < next dst + total (sizeAt mem) ds :=
      hp ▸ copyOf_bounds ha hj.bounds.2
    have hload : s.mem p = mem (a + j) := by
      rw [hp, h.copies a ha j hj.bounds.2, if_neg (by omega)]
    have hlive : Term.isBoxed ⟨mem (a + j)⟩ = true → Term.addr ⟨mem (a + j)⟩ ∈ live :=
      fun hboxed => hsetup.closed a (h.sub a ha) _ ⟨j, hj, hboxed, rfl⟩
    change EStateM.Ends _ _ (evacOne ⟨s.mem p⟩ >>= fun t => do
      store p t.word
      fields (p + 1) n) s
    rw [hload]
    refine (h.evacOne_ends hsetup (by omega) hlive).bind ?_
    rintro _ s₁ ⟨more, rfl, hinv, hmem⟩
    have ha' : a ∈ ds ++ more := List.mem_append_left _ ha
    have hp' : p = copyOf mem dst (ds ++ more) a + j := by rw [copyOf_append ha, hp]
    have hstored := hinv.storeRef hsetup ha' hj hp' hmem
    refine (ih (j := j + 1) hstored ha' (by omega) fun i hi => by
      simpa [Nat.add_assoc, Nat.add_comm 1 i] using hrefs (i + 1) (by omega)).mono
        (fun _ _ => id) ?_
    rintro _ s₂ ⟨more', hfinal⟩
    refine ⟨more ++ more', ?_⟩
    rw [← List.append_assoc, show p + (n + 1) = p + 1 + n by omega]
    exact hfinal

private theorem Inv.length_le (h : Inv mem live dst ds q s) : ds.length ≤ live.card := by
  rw [← List.toFinset_card_of_nodup h.nodup]
  exact Finset.card_le_card fun a ha => h.sub a (List.mem_toFinset.mp ha)

private theorem beyond_of_ne {a b j p : ℕ} (ha : a ∈ ds) (hb : b ∈ ds) (hab : b ≠ a)
    (hj : j < sizeAt mem b) (hp : copyOf mem dst ds a ≤ p) (hle : p ≤ copyOf mem dst ds b + j) :
    copyOf mem dst ds a + sizeAt mem a ≤ copyOf mem dst ds b + j := by
  have hdisj : offset (sizeAt mem) ds b + sizeAt mem b ≤ offset (sizeAt mem) ds a ∨
      offset (sizeAt mem) ds a + sizeAt mem a ≤ offset (sizeAt mem) ds b :=
    offset_disjoint hb ha hab
  simp only [copyOf] at *
  omega

/-- One round of the scan loop updates the references of one copy. -/
private theorem Inv.scanObject (hsetup : Setup mem space live dst) {a : ℕ}
    (h : Inv mem live dst ds (copyOf mem dst ds a) s) (ha : a ∈ ds) :
    EStateM.Ends (fun e _ => Full mem live dst e)
      (fun _ s' => ∃ more,
        Inv mem live dst (ds ++ more) (copyOf mem dst ds a + sizeAt mem a) s')
      (fields (copyOf mem dst ds a + refStart (mem a)) (refCount (mem a))) s := by
  have hkind := (hsetup.objects.ok a (hsetup.sub a (h.sub a ha))).kind
  have hle := refs_le_sizeAt hkind
  have hfirst : Inv mem live dst ds (copyOf mem dst ds a + refStart (mem a)) s := by
    refine h.advance (by omega) fun b hb j hj hq => ?_
    by_cases hab : b = a
    · subst hab
      exact Nat.add_le_add_left hj.1 _
    · have := beyond_of_ne ha hb hab hj.bounds.2 le_rfl hq
      omega
  have hrefs : ∀ i < refCount (mem a), IsRef (mem a) (refStart (mem a) + i) :=
    fun i hi => ⟨by omega, by omega⟩
  refine (hfirst.fields_ends hsetup ha rfl hrefs).mono (fun _ _ => id) ?_
  rintro _ s' ⟨more, hinv⟩
  refine ⟨more, hinv.advance (by omega) fun b hb j hj hq => ?_⟩
  have ha' : a ∈ ds ++ more := List.mem_append_left _ ha
  rw [← copyOf_append ha more] at hq ⊢
  by_cases hab : b = a
  · subst hab
    have := hj.2
    omega
  · exact beyond_of_ne ha' hb hab hj.bounds.2 (by omega) hq

/-- How the scan loop fails: for lack of room, or of fuel below the number of live
objects. -/
def Short (mem : Mem) (live : Finset ℕ) (dst : Heap) (fuel : ℕ) (e : EvacError) : Prop :=
  Full mem live dst e ∨ e = .fuel ∧ fuel ≤ live.card

/-- The scan loop ends with every reference of every copy updated. -/
theorem Inv.scanLoop_ends (hsetup : Setup mem space live dst) {done todo : List ℕ} {n : ℕ}
    (h : Inv mem live dst (done ++ todo) (next dst + total (sizeAt mem) done) s) :
    EStateM.Ends (fun e _ => Short mem live dst (n + done.length) e)
      (fun _ s' => ∃ more, Inv mem live dst (done ++ todo ++ more)
        (next dst + total (sizeAt mem) (done ++ todo ++ more)) s')
      (scanLoop n (dst.top + total (sizeAt mem) done)) s := by
  induction n generalizing done todo s with
  | zero =>
    have hlen := h.length_le
    rw [List.length_append] at hlen
    exact .inr ⟨rfl, by omega⟩
  | succ n ih =>
    cases todo with
    | nil =>
      unfold EStateM.Ends
      rw [scanLoop_done (by simp [h.heap])]
      exact ⟨[], by simpa using h⟩
    | cons a todo =>
      have ha : a ∈ done ++ a :: todo := by simp
      have hfresh : a ∉ done := fun hmem =>
        (List.nodup_append.mp h.nodup).2.2 a hmem a (List.mem_cons_self ..) rfl
      have hcopy : copyOf mem dst (done ++ a :: todo) a = next dst + total (sizeAt mem) done := by
        rw [copyOf, offset_append_of_notMem hfresh]
      have hkind := (hsetup.objects.ok a (hsetup.sub a (h.sub a ha))).kind
      have hpos := hsetup.sizeAt_pos (h.sub a ha)
      have haddr : s.heap.base + (dst.top + total (sizeAt mem) done) =
          copyOf mem dst (done ++ a :: todo) a := by
        rw [hcopy, h.heap, next, Nat.add_assoc]
      have hheader : s.mem (s.heap.base + (dst.top + total (sizeAt mem) done)) = mem a := by
        have hcell := h.copies a ha 0 hpos
        rw [if_neg fun href => absurd href.1.bounds.1 (by omega)] at hcell
        simpa [haddr] using hcell
      have hwords : objWords (s.mem (s.heap.base + (dst.top + total (sizeAt mem) done))) =
          some (sizeAt mem a) := by
        obtain ⟨words, hw⟩ := Option.isSome_iff_exists.mp hkind
        rw [hheader, sizeAt, hw, Option.getD_some]
      have hscan : dst.top + total (sizeAt mem) done < s.heap.top := by
        have htotal : total (sizeAt mem) (done ++ a :: todo) =
            total (sizeAt mem) done + (sizeAt mem a + total (sizeAt mem) todo) := by simp [total]
        rw [h.heap, htotal]
        dsimp only
        omega
      rw [← hcopy] at h
      unfold EStateM.Ends
      rw [scanLoop_succ hscan hwords, hheader, haddr]
      refine (h.scanObject hsetup ha).mono (fun _ _ => .inl) (fun _ _ => id) |>.bind ?_
      rintro _ s₁ ⟨more, hinv⟩
      have hlist : done ++ a :: todo ++ more = (done ++ [a]) ++ (todo ++ more) := by simp
      have hq : copyOf mem dst (done ++ a :: todo) a + sizeAt mem a =
          next dst + total (sizeAt mem) (done ++ [a]) := by
        rw [hcopy, total_append, total_singleton]
        omega
      rw [hlist, hq] at hinv
      have hrest := ih hinv
      rw [total_append, total_singleton, ← Nat.add_assoc] at hrest
      refine hrest.mono (fun e _ he => ?_) ?_
      · simpa [Nat.add_assoc, Nat.add_comm 1] using he
      · rintro _ s₂ ⟨more', hfinal⟩
        exact ⟨more ++ more', by simpa [List.append_assoc] using hfinal⟩

end Evac

end Yggdrasil
