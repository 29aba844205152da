import Yggdrasil.Term.CopySpec
import Yggdrasil.Term.Datum
import Yggdrasil.Term.EvacuateSpec

/-!
# Images of terms

A deep copy of a term denotes what the term denotes, and so does the image of a term under
evacuation. The objects an evacuation makes are a space of their own.
-/

namespace Yggdrasil

open Evac

/-- A copy denotes what the term denotes. -/
theorem Copied.denotes {st st' : Store} {space : Set ℕ} {w : ℕ} {t t' : Term} {d : Datum}
    (h : Copied st w t t' st') (hspace : TermSpace st.mem space) (ht : t.Valid space)
    (hd : t.Denotes st.mem d) : t'.Denotes st'.mem d := by
  obtain ⟨n, hdepth, hcanon, hdatum⟩ := hd
  obtain ⟨new, hregion, hvalid⟩ := h.made
  have hsame := Term.value_eq_of_le hspace ht hdepth (Nat.le_succ n)
  have hend : DepthLt st'.mem (n + 1) t' := by
    refine Term.depthLt_of_value hregion.objects hvalid ?_
    rw [h.value _ hdepth, h.value _ (hdepth.mono (Nat.le_succ n)), hsame]
  refine ⟨n + 1, hend, ?_⟩
  rw [h.value _ (hdepth.mono (Nat.le_succ n)), hsame]
  exact ⟨hcanon, hdatum⟩

namespace Evacuated

variable {mem mem' : Mem} {space : Set ℕ} {live : Finset ℕ} {dst dst' : Heap}
  {ts ts' : List Term} {φ : ℕ → ℕ} {t : Term} {d : Datum} {n : ℕ}

section Moved

variable (h : Evacuated mem live dst ts φ mem' dst' ts') (hobjects : TermSpace mem space)
  (hsetup : Setup mem space live dst) (hend : next dst' ≤ 2 ^ 61)

include h hobjects hsetup hend

omit hobjects in
private theorem child_move (ht : t.Valid live) (hbox : t.isBoxed = true) {i : ℕ}
    (hi : i < refCount (mem t.addr)) :
    (t.move φ).child mem' i = (t.child mem i).move φ := by
  have ha : t.addr ∈ live := ht.2 hbox
  have hpos := fun a (ha : a ∈ live) => hsetup.sizeAt_pos ha
  have href : IsRef (mem t.addr) (refStart (mem t.addr) + i) := ⟨by omega, by omega⟩
  rw [Term.child, h.move_addr hpos hend hbox ha, h.header ha (hpos _ ha),
    h.fields _ ha _ href.bounds.2, if_pos href]
  rfl

omit h hend in
private theorem valid_child (ht : t.Valid live) (hbox : t.isBoxed = true) {i : ℕ}
    (hi : i < refCount (mem t.addr)) : (t.child mem i).Valid live := by
  have ha : t.addr ∈ live := ht.2 hbox
  have href : IsRef (mem t.addr) (refStart (mem t.addr) + i) := ⟨by omega, by omega⟩
  refine ⟨hobjects.tags _ (hsetup.sub _ ha) _ (.inl href), fun hboxed => ?_⟩
  exact hsetup.closed _ ha _ ⟨_, href, hboxed, rfl⟩

/-- A moved term has paths as long as the term. -/
theorem depthLt (ht : t.Valid live) : DepthLt mem' n (t.move φ) ↔ DepthLt mem n t := by
  induction n generalizing t with
  | zero => exact Iff.rfl
  | succ n ih =>
    rw [DepthLt, DepthLt, isBoxed_move]
    refine forall_congr' fun hbox => ?_
    have ha : t.addr ∈ live := ht.2 hbox
    have hpos := fun a (ha : a ∈ live) => hsetup.sizeAt_pos ha
    rw [h.move_addr hpos hend hbox ha, h.header ha (hpos _ ha)]
    refine forall₂_congr fun i hi => ?_
    rw [h.child_move hsetup hend ht hbox hi]
    exact ih (valid_child hobjects hsetup ht hbox hi)

/-- A moved term says what the term said. -/
theorem value (ht : t.Valid live) (hdepth : DepthLt mem n t) :
    (t.move φ).value mem' n = t.value mem n := by
  induction n generalizing t with
  | zero => exact hdepth.elim
  | succ n ih =>
    cases hbox : t.isBoxed with
    | false =>
      have hsame : t.move φ = t := by rw [Term.move, if_neg (by simp [hbox])]
      rw [hsame, Term.value_immediate hbox ht.1, Term.value_immediate hbox ht.1]
    | true =>
      have ha : t.addr ∈ live := ht.2 hbox
      have hpos := fun a (ha : a ∈ live) => hsetup.sizeAt_pos ha
      have haddr := h.move_addr hpos hend hbox ha
      have hhead := h.header ha (hpos _ ha)
      have hok := hobjects.ok _ (hsetup.sub _ ha)
      refine Term.value_congr hbox ((isBoxed_move t).trans hbox) hok.kind
        (by rw [haddr, hhead]) (by rw [haddr, hhead]) (fun i hi => ?_) (fun hb => ?_)
        fun i hi => ?_
      · have hle := refs_le_sizeAt hok.kind
        have hlt := hi.2.2
        rw [haddr, h.fields _ ha _ (by omega), if_neg fun href => by have := href.1; omega]
      · have hlen : (t.move φ).headerLen mem' = t.headerLen mem := by
          rw [Term.headerLen, Term.headerLen, Term.header, Term.header, haddr, hhead]
        rw [Term.binBytes, Term.binBytes, hlen, haddr]
        refine readBytes_congr fun j hj => ?_
        have hsize : sizeAt mem t.addr = 1 + (t.headerLen mem + 7) / 8 := by
          simp only [sizeAt, objWords, hb, Option.map_some, Option.getD_some]
          rfl
        have hnone : refCount (mem t.addr) = 0 := by simp only [refCount, hb]
        rw [Nat.add_assoc, Nat.add_assoc, h.fields _ ha _ (by omega),
          if_neg fun href => by have := href.1; have := href.2; omega]
      · rw [h.child_move hsetup hend ht hbox hi]
        exact ih (valid_child hobjects hsetup ht hbox hi) (hdepth hbox i hi)

/-- A moved term denotes what the term denoted. -/
theorem denotes (ht : t.Valid live) : (t.move φ).Denotes mem' d ↔ t.Denotes mem d := by
  refine exists_congr fun n => ?_
  rw [h.depthLt hobjects hsetup hend ht]
  refine and_congr_right fun hdepth => ?_
  rw [h.value hobjects hsetup hend ht hdepth]

omit hobjects in
/-- A moved term is valid among the copies. -/
theorem valid_move (ht : t.Valid live) : (t.move φ).Valid (φ '' live) := by
  have hpos := fun a (ha : a ∈ live) => hsetup.sizeAt_pos ha
  cases hbox : t.isBoxed with
  | false =>
    have hsame : t.move φ = t := by rw [Term.move, if_neg (by simp [hbox])]
    rw [hsame]
    refine ⟨ht.1, fun hboxed => ?_⟩
    rw [hbox] at hboxed
    cases hboxed
  | true =>
    have ha : t.addr ∈ live := ht.2 hbox
    have hin := h.bounds ha (hpos _ ha)
    have hlt := hpos _ ha
    rw [Term.move, if_pos hbox]
    exact Term.valid_ofAddr ⟨_, ha, rfl⟩ (by omega)

omit h hobjects hsetup hend in
private theorem tiles_disjoint {p q : ℕ} {ps : List ℕ} (h : Tiles mem p ps q) :
    ps.Pairwise fun a b => a + sizeAt mem a ≤ b := by
  induction ps generalizing p with
  | nil => exact .nil
  | cons a ps ih =>
    obtain ⟨rfl, -, hrest⟩ := h
    exact .cons (fun b hb => (hrest.bounds.2 b hb).1) (ih hrest)

/-- The copies are complete objects that hold valid terms. -/
theorem termSpace : TermSpace mem' (φ '' live) := by
  have hpos := fun a (ha : a ∈ live) => hsetup.sizeAt_pos ha
  have hhead := fun a (ha : a ∈ live) => h.header ha (hpos a ha)
  have hok := fun a (ha : a ∈ live) => hobjects.ok a (hsetup.sub a ha)
  have href : ∀ a ∈ live, ∀ j, IsRef (mem a) j →
      mem' (φ a + j) = (Term.move φ ⟨mem (a + j)⟩).word ∧ Term.Valid live ⟨mem (a + j)⟩ := by
    intro a ha j hj
    refine ⟨by rw [h.fields a ha j hj.bounds.2, if_pos hj], ?_, fun hboxed => ?_⟩
    · exact hobjects.tags a (hsetup.sub a ha) j (.inl hj)
    · exact hsetup.closed a ha _ ⟨j, hj, hboxed, rfl⟩
  have hkey : ∀ a ∈ live, ∀ j, IsKey (mem a) j → mem' (φ a + j) = mem (a + j) := by
    intro a ha j hj
    have hle := refs_le_sizeAt (hok a ha).kind
    have hlt := hj.2.2
    rw [h.fields a ha j (by omega), if_neg fun href => by have := href.1; omega]
  have hsize : ∀ a ∈ live, sizeAt mem' (φ a) = sizeAt mem a := fun a ha => by
    rw [sizeAt, hhead a ha, sizeAt]
  refine ⟨⟨?_, ?_⟩, ?_⟩
  · rintro _ ⟨a, ha, rfl⟩
    have hin := h.bounds ha (hpos a ha)
    refine ⟨by rw [hhead a ha]; exact (hok a ha).kind, fun j hj => ?_, fun j hj => ?_, ?_⟩
    · rw [hhead a ha] at hj
      rw [(href a ha j hj).1]
      exact (h.valid_move hsetup hend (href a ha j hj).2).2
    · rw [hhead a ha] at hj
      rw [hkey a ha j hj]
      exact (hok a ha).keys j hj
    · rw [hsize a ha]
      omega
  · obtain ⟨ps, htiles, hbij⟩ := h.added
    have : Std.Symm fun a b => a + sizeAt mem' a ≤ b ∨ b + sizeAt mem' b ≤ a :=
      ⟨fun _ _ h => h.symm⟩
    have hpairs : ps.Pairwise fun a b => a + sizeAt mem' a ≤ b ∨ b + sizeAt mem' b ≤ a :=
      (tiles_disjoint htiles).imp Or.inl
    rintro _ ⟨a, ha, rfl⟩ _ ⟨b, hb, rfl⟩ hne
    exact hpairs.forall (hbij.mapsTo ha) (hbij.mapsTo hb) hne
  · rintro _ ⟨a, ha, rfl⟩ j hj
    rw [hhead a ha] at hj
    rcases hj with hj | hj
    · rw [(href a ha j hj).1]
      exact (h.valid_move hsetup hend (href a ha j hj).2).1
    · rw [hkey a ha j hj]
      exact hobjects.tags a (hsetup.sub a ha) j (.inr hj)

end Moved

end Evacuated

/-- A successful evacuation moves each term to a term that denotes the same, among objects
that stand in to-space. -/
theorem evacuate_images {mem : Mem} {space : Set ℕ} (hobjects : TermSpace mem space) {dst : Heap}
    (htop : dst.top ≤ dst.cap) (hbound : dst.base + dst.cap ≤ 2 ^ 61) (hcap : dst.cap < 2 ^ 58)
    (hapart : ∀ a ∈ space, a + sizeAt mem a ≤ dst.base ∨ dst.base + dst.cap ≤ a)
    {fuel : ℕ} {ts ts' : List Term} {st' : Store} (hts : ∀ t ∈ ts, t.Valid space)
    (hrun : evacuate fuel ts ⟨mem, dst⟩ = .ok ts' st') :
    ∃ space', st'.Holds space' ∧
      List.Forall₂ (fun t t' => t'.Valid space' ∧ ∀ d, t'.Denotes st'.mem d ↔ t.Denotes mem d)
        ts ts' := by
  have hrefers : ∀ t ∈ ts, t.RefersTo space := fun t ht => (hts t ht).2
  obtain ⟨live, hlive⟩ := exists_live hobjects.toSpace hrefers
  have hsetup := setup_of_reachable hobjects.toSpace hrefers hlive hapart hbound
  obtain ⟨⟨φ, hmoved⟩, hroom⟩ := (hsetup.evacuate_ends htop hlive fuel).ok hrun
  have hheap := hmoved.heap
  have hend : next st'.heap ≤ dst.base + dst.cap := by
    rw [hheap, next]
    dsimp only
    omega
  refine ⟨φ '' live, ⟨hmoved.termSpace hobjects hsetup (by omega), ?_, ?_, ?_, ?_⟩, ?_⟩
  · rintro _ ⟨a, ha, rfl⟩
    have hin := hmoved.bounds ha (hsetup.sizeAt_pos ha)
    rw [sizeAt, hmoved.header ha (hsetup.sizeAt_pos ha)]
    exact .inl hin.2
  · rw [hheap]
    exact hroom
  · rw [hheap]
    exact hbound
  · rw [hheap]
    exact hcap
  · rw [hmoved.roots, List.forall₂_map_right_iff, List.forall₂_same]
    intro t ht
    have hvalid : t.Valid live :=
      ⟨(hts t ht).1, fun hboxed => (hlive _).mpr ⟨t, ht, hboxed, .refl⟩⟩
    exact ⟨hmoved.valid_move hsetup (by omega) hvalid,
      fun d => hmoved.denotes hobjects hsetup (by omega) hvalid⟩

end Yggdrasil
