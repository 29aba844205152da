import Yggdrasil.Term.EvacuateScan

/-!
# Evacuation preserves the reachable graph

Evacuation moves exactly the reachable objects. The copies stand one after the
other behind what to-space already held, and are an isomorphic image of the
reachable graph.
-/

namespace Yggdrasil

open Evac Layout

/-- A term with its pointer moved along `φ`. -/
def Term.move (φ : ℕ → ℕ) (t : Term) : Term :=
  if t.isBoxed then Term.ofAddr (φ t.addr) else t

/-- The objects `ps` fill memory from `p` to `q` one after the other. -/
def Tiles (mem : Mem) : ℕ → List ℕ → ℕ → Prop
  | p, [], q => p = q
  | p, a :: ps, q => a = p ∧ (objWords (mem a)).isSome = true ∧ Tiles mem (p + sizeAt mem a) ps q

/-- Memory `mem'` and the terms `ts'` result from `mem` and `ts` by moving the
objects `live` along `φ` to the end of the heap `dst`, which becomes `dst'`. -/
structure Evacuated (mem : Mem) (live : Finset ℕ) (dst : Heap) (ts : List Term) (φ : ℕ → ℕ)
    (mem' : Mem) (dst' : Heap) (ts' : List Term) : Prop where
  /-- To-space grows by the sizes of the live objects. -/
  heap : dst' = { dst with top := dst.top + ∑ a ∈ live, sizeAt mem a }
  /-- The objects added to to-space are the images of the live objects. -/
  added : ∃ ps, Tiles mem' (next dst) ps (next dst') ∧ Set.BijOn φ live {p | p ∈ ps}
  /-- The terms are moved. -/
  roots : ts' = ts.map (Term.move φ)
  /-- The references of each object are moved, its other words are the same. -/
  fields : ∀ a ∈ live, ∀ j < sizeAt mem a, mem' (φ a + j) =
    if IsRef (mem a) j then (Term.move φ ⟨mem (a + j)⟩).word else mem (a + j)
  /-- Outside the added area only headers of live objects change. -/
  frame : ∀ c, c ∉ live → (c < next dst ∨ next dst' ≤ c) → mem' c = mem c

namespace Evac

variable {mem : Mem} {space : Set ℕ} {live : Finset ℕ} {dst : Heap} {ds : List ℕ} {q : ℕ}
  {s : Store}

private theorem Inv.roots_ends (hsetup : Setup mem space live dst) {ts : List Term}
    (h : Inv mem live dst ds q s) (hq : q ≤ next dst + total (sizeAt mem) ds)
    (hts : ∀ t ∈ ts, t.isBoxed = true → t.addr ∈ live) :
    EStateM.Ends (fun e _ => Full mem live dst e)
      (fun ts' s' => ∃ more, ts' = ts.map (forward mem dst (ds ++ more)) ∧
        Inv mem live dst (ds ++ more) q s' ∧ ∀ t ∈ ts, t.isBoxed = true → t.addr ∈ ds ++ more)
      (Evac.roots ts) s := by
  induction ts generalizing ds s with
  | nil => exact ⟨[], rfl, by simpa using h, by simp⟩
  | cons t ts ih =>
    refine (h.evacOne_ends hsetup hq (hts t (by simp))).bind ?_
    rintro _ s₁ ⟨more, rfl, hinv, hmem⟩
    have hq' : q ≤ next dst + total (sizeAt mem) (ds ++ more) := by
      rw [total_append]
      omega
    refine (ih hinv hq' fun x hx => hts x (by simp [hx])).bind ?_
    rintro _ s₂ ⟨more', rfl, hinv', hmem'⟩
    have hfwd : forward mem dst (ds ++ more ++ more') t = forward mem dst (ds ++ more) t :=
      forward_append hmem more'
    refine ⟨more ++ more', ?_, ?_, ?_⟩
    · rw [← List.append_assoc, List.map_cons, hfwd]
    · rw [← List.append_assoc]
      exact hinv'
    · rw [← List.append_assoc]
      intro x hx hboxed
      rcases List.mem_cons.mp hx with rfl | hx
      · exact List.mem_append_left _ (hmem hboxed)
      · exact hmem' x hx hboxed

private theorem Inv.initial {s : Store} (live : Finset ℕ) (htop : s.heap.top ≤ s.heap.cap) :
    Inv s.mem live s.heap [] (next s.heap) s where
  heap := by simp [total]
  fits := by simpa [total] using htop
  nodup := List.nodup_nil
  sub := by simp
  copies := by simp
  closed := by simp
  forwards := by simp
  frame := by simp

/-- All references of all copies have been updated. -/
private abbrev Done (mem : Mem) (live : Finset ℕ) (dst : Heap) (ds : List ℕ) (s : Store) : Prop :=
  Inv mem live dst ds (next dst + total (sizeAt mem) ds) s

private theorem Done.header (hsetup : Setup mem space live dst) (h : Done mem live dst ds s)
    {a : ℕ} (ha : a ∈ ds) : s.mem (copyOf mem dst ds a) = mem a := by
  have hcell := h.copies a ha 0 (hsetup.sizeAt_pos (h.sub a ha))
  rwa [if_neg fun href => absurd href.1.bounds.1 (by omega)] at hcell

private theorem Done.tiles (hsetup : Setup mem space live dst) (h : Done mem live dst ds s)
    {pre post : List ℕ} (hds : ds = pre ++ post) :
    Tiles s.mem (next dst + total (sizeAt mem) pre) (post.map (copyOf mem dst ds))
      (next dst + total (sizeAt mem) ds) := by
  induction post generalizing pre with
  | nil =>
    rw [List.append_nil] at hds
    rw [hds]
    rfl
  | cons a post ih =>
    have ha : a ∈ ds := by simp [hds]
    have hfresh : a ∉ pre := fun hmem =>
      (List.nodup_append.mp (hds ▸ h.nodup)).2.2 a hmem a (List.mem_cons_self ..) rfl
    have hcopy : copyOf mem dst ds a = next dst + total (sizeAt mem) pre := by
      rw [copyOf, hds, offset_append_of_notMem hfresh]
    have hheader := h.header hsetup ha
    have hsize : sizeAt s.mem (copyOf mem dst ds a) = sizeAt mem a := by
      rw [sizeAt, hheader, sizeAt]
    have hrest := @ih (pre ++ [a]) (by simp [hds])
    refine ⟨hcopy, ?_, ?_⟩
    · rw [hheader]
      exact (hsetup.objects.ok a (hsetup.sub a (h.sub a ha))).kind
    · rw [hsize]
      simpa [Nat.add_assoc] using hrest

private theorem Done.mem_of_reachable (h : Done mem live dst ds s) {ts : List Term}
    (hroots : ∀ t ∈ ts, t.isBoxed = true → t.addr ∈ ds) {a : ℕ} (ha : Reachable mem ts a) :
    a ∈ ds := by
  obtain ⟨t, ht, hboxed, hpath⟩ := ha
  induction hpath with
  | refl => exact hroots t ht hboxed
  | tail _ hstep ih =>
    obtain ⟨j, hj, hb, rfl⟩ := hstep
    exact h.closed _ ih j hj (copyOf_bounds ih hj.bounds.2).2 hb

private theorem Done.evacuated (hsetup : Setup mem space live dst) (h : Done mem live dst ds s)
    (hall : ∀ a, a ∈ ds ↔ a ∈ live) (ts : List Term) :
    Evacuated mem live dst ts (copyOf mem dst ds) s.mem s.heap
      (ts.map (forward mem dst ds)) := by
  have htotal : total (sizeAt mem) ds = ∑ a ∈ live, sizeAt mem a := total_eq_sum h.nodup hall
  have hnext : next s.heap = next dst + total (sizeAt mem) ds := by
    rw [h.heap, next, next, Nat.add_assoc]
  refine ⟨by rw [h.heap, htotal], ?_, rfl, ?_, ?_⟩
  · refine ⟨ds.map (copyOf mem dst ds), ?_, ?_, ?_, ?_⟩
    · rw [hnext]
      simpa [total] using h.tiles hsetup (List.nil_append ds).symm
    · intro a ha
      exact List.mem_map_of_mem ((hall a).mpr ha)
    · intro a ha b hb heq
      have hds := (hall a).mpr ha
      by_contra hab
      have hdisj : offset (sizeAt mem) ds a + sizeAt mem a ≤ offset (sizeAt mem) ds b ∨
          offset (sizeAt mem) ds b + sizeAt mem b ≤ offset (sizeAt mem) ds a :=
        offset_disjoint hds ((hall b).mpr hb) hab
      have ha' := hsetup.sizeAt_pos ha
      have hb' := hsetup.sizeAt_pos hb
      simp only [copyOf] at heq
      omega
    · intro p hp
      obtain ⟨a, ha, rfl⟩ := List.mem_map.mp hp
      exact ⟨a, (hall a).mp ha, rfl⟩
  · intro a ha j hj
    have hds := (hall a).mpr ha
    have hlt : copyOf mem dst ds a + j < next dst + total (sizeAt mem) ds :=
      (copyOf_bounds hds hj).2
    rw [h.copies a hds j hj]
    simp only [hlt, and_true]
    rfl
  · intro c hc hrange
    exact h.frame c (fun hmem => hc ((hall c).mp hmem)) (by omega)

end Evac

/-- The set of objects reachable from terms of a space is finite. -/
theorem exists_live {mem : Mem} {space : Set ℕ} (hspace : Space mem space) {ts : List Term}
    (hts : ∀ t ∈ ts, t.RefersTo space) :
    ∃ live : Finset ℕ, ∀ a, a ∈ live ↔ Reachable mem ts a := by
  classical
  have hlt : ∀ a, Reachable mem ts a → a < 2 ^ 61 := by
    intro a ha
    have hobj := hspace.ok a (ha.mem_space hspace hts)
    have hpos := sizeAt_pos hobj.kind
    have hbound := hobj.bound
    omega
  refine ⟨(Finset.range (2 ^ 61)).filter (Reachable mem ts), fun a => ?_⟩
  rw [Finset.mem_filter, Finset.mem_range]
  exact and_iff_right_of_imp (hlt a)

/-- Tiles lie between the bounds. -/
theorem Tiles.bounds {mem : Mem} {p q : ℕ} {ps : List ℕ} (h : Tiles mem p ps q) :
    p ≤ q ∧ ∀ a ∈ ps, p ≤ a ∧ a + sizeAt mem a ≤ q := by
  induction ps generalizing p with
  | nil => exact ⟨h.le, by simp⟩
  | cons b ps ih =>
    obtain ⟨rfl, -, hrest⟩ := h
    obtain ⟨hle, hall⟩ := ih hrest
    refine ⟨by omega, fun a ha => ?_⟩
    rcases List.mem_cons.mp ha with rfl | ha
    · omega
    · have := hall a ha
      omega

namespace Evacuated

variable {mem mem' : Mem} {live : Finset ℕ} {dst dst' : Heap} {ts ts' : List Term} {φ : ℕ → ℕ}

/-- Copies have the headers of the originals. -/
theorem header (h : Evacuated mem live dst ts φ mem' dst' ts') {a : ℕ} (ha : a ∈ live)
    (hpos : 0 < sizeAt mem a) : mem' (φ a) = mem a := by
  have hcell := h.fields a ha 0 hpos
  rwa [if_neg fun href => absurd href.bounds.1 (by omega)] at hcell

/-- Copies lie in the added area. -/
theorem bounds (h : Evacuated mem live dst ts φ mem' dst' ts') {a : ℕ} (ha : a ∈ live)
    (hpos : 0 < sizeAt mem a) : next dst ≤ φ a ∧ φ a + sizeAt mem a ≤ next dst' := by
  obtain ⟨ps, htiles, hbij⟩ := h.added
  have hin := htiles.bounds.2 (φ a) (hbij.mapsTo ha)
  rwa [show sizeAt mem' (φ a) = sizeAt mem a by rw [sizeAt, h.header ha hpos, sizeAt]] at hin

/-- A moved pointer points at the copy. -/
theorem move_addr (h : Evacuated mem live dst ts φ mem' dst' ts')
    (hpos : ∀ a ∈ live, 0 < sizeAt mem a) (hend : next dst' ≤ 2 ^ 61) {t : Term}
    (ht : t.isBoxed = true) (hmem : t.addr ∈ live) : (t.move φ).addr = φ t.addr := by
  have hin := h.bounds hmem (hpos _ hmem)
  have := hpos _ hmem
  rw [Term.move, if_pos ht, Term.addr_ofAddr (by omega)]

/-- Moving keeps pointers pointers. -/
theorem isBoxed_move (t : Term) : (t.move φ).isBoxed = t.isBoxed := by
  by_cases ht : t.isBoxed = true
  · rw [Term.move, if_pos ht, Term.isBoxed_ofAddr, ht]
  · rw [Term.move, if_neg ht]

/-- What can be reached after the move are copies of what could be reached before. -/
theorem of_reachable (h : Evacuated mem live dst ts φ mem' dst' ts')
    (hpos : ∀ a ∈ live, 0 < sizeAt mem a) (hend : next dst' ≤ 2 ^ 61)
    (hlive : ∀ a, a ∈ live ↔ Reachable mem ts a) {b : ℕ} (hb : Reachable mem' ts' b) :
    ∃ a ∈ live, b = φ a := by
  obtain ⟨t', ht', hboxed', hpath⟩ := hb
  rw [h.roots] at ht'
  obtain ⟨t, ht, rfl⟩ := List.mem_map.mp ht'
  have hboxed : t.isBoxed = true := isBoxed_move t ▸ hboxed'
  have hroot : t.addr ∈ live := (hlive _).mpr ⟨t, ht, hboxed, .refl⟩
  induction hpath with
  | refl => exact ⟨t.addr, hroot, h.move_addr hpos hend hboxed hroot⟩
  | tail _ hstep ih =>
    obtain ⟨a, ha, rfl⟩ := ih
    obtain ⟨j, hj, hjboxed, rfl⟩ := hstep
    rw [h.header ha (hpos a ha)] at hj
    rw [h.fields a ha j hj.bounds.2, if_pos hj] at hjboxed ⊢
    have hjboxed₀ : Term.isBoxed ⟨mem (a + j)⟩ = true := isBoxed_move _ ▸ hjboxed
    obtain ⟨u, hu, huboxed, hupath⟩ := (hlive a).mp ha
    have hnext : Term.addr ⟨mem (a + j)⟩ ∈ live :=
      (hlive _).mpr ⟨u, hu, huboxed, hupath.tail ⟨j, hj, hjboxed₀, rfl⟩⟩
    exact ⟨_, hnext, h.move_addr hpos hend hjboxed₀ hnext⟩

end Evacuated

/-- Evacuation moves the live objects when all of them are reachable, or fails for
lack of room. -/
theorem Evac.Setup.evacuate_ends {mem : Mem} {space : Set ℕ} {live : Finset ℕ} {dst : Heap}
    (hsetup : Setup mem space live dst) (htop : dst.top ≤ dst.cap) {ts : List Term}
    (hlive : ∀ a, a ∈ live ↔ Reachable mem ts a) (fuel : ℕ) :
    EStateM.Ends (fun e _ => Short mem live dst fuel e)
      (fun ts' s' => (∃ φ, Evacuated mem live dst ts φ s'.mem s'.heap ts') ∧
        dst.top + ∑ a ∈ live, sizeAt mem a ≤ dst.cap)
      (evacuate fuel ts) ⟨mem, dst⟩ := by
  have hroots : ∀ t ∈ ts, t.isBoxed = true → t.addr ∈ live := fun t ht hboxed =>
    (hlive _).mpr ⟨t, ht, hboxed, .refl⟩
  have hinit : Inv mem live dst [] (next dst) ⟨mem, dst⟩ := Inv.initial (s := ⟨mem, dst⟩) live htop
  change EStateM.Ends _ _ (Evac.roots ts >>= fun ts' => do
    Evac.scanLoop fuel dst.top
    return ts') ⟨mem, dst⟩
  refine (hinit.roots_ends hsetup (by simp [total]) hroots).mono (fun _ _ => .inl) (fun _ _ => id)
    |>.bind ?_
  rintro _ s₁ ⟨found, rfl, hinv, hfound⟩
  have hstart : Inv mem live dst ([] ++ found) (next dst + total (sizeAt mem) []) s₁ := by
    simpa [total] using hinv
  refine (hstart.scanLoop_ends hsetup).bind ?_
  rintro _ s₂ ⟨more, hdone⟩
  have hall : ∀ a, a ∈ found ++ more ↔ a ∈ live := fun a =>
    ⟨fun ha => hdone.sub a ha, fun ha => Evac.Done.mem_of_reachable hdone
      (fun t ht hb => List.mem_append_left _ (hfound t ht hb)) ((hlive a).mp ha)⟩
  have hsame : ts.map (forward mem dst found) = ts.map (forward mem dst (found ++ more)) :=
    List.map_congr_left fun t ht => (forward_append (hfound t ht) more).symm
  have htotal : total (sizeAt mem) (found ++ more) = ∑ a ∈ live, sizeAt mem a :=
    total_eq_sum hdone.nodup hall
  refine .pure ⟨⟨copyOf mem dst (found ++ more), ?_⟩, htotal ▸ hdone.fits⟩
  rw [List.nil_append, hsame]
  exact Evac.Done.evacuated hsetup hdone hall ts

/-- With enough room and fuel evacuation does not fail. -/
theorem Evac.Setup.evacuate_ok {mem : Mem} {space : Set ℕ} {live : Finset ℕ} {dst : Heap}
    (hsetup : Setup mem space live dst) {ts : List Term}
    (hlive : ∀ a, a ∈ live ↔ Reachable mem ts a)
    (hroom : dst.top + ∑ a ∈ live, sizeAt mem a ≤ dst.cap) {fuel : ℕ}
    (hfuel : live.card < fuel) :
    ∃ φ mem' dst' ts', evacuate fuel ts ⟨mem, dst⟩ = .ok ts' ⟨mem', dst'⟩ ∧
      Evacuated mem live dst ts φ mem' dst' ts' := by
  have hends := hsetup.evacuate_ends (by omega) hlive fuel
  cases hrun : evacuate fuel ts ⟨mem, dst⟩ with
  | ok ts' s' =>
    obtain ⟨⟨φ, hφ⟩, -⟩ := hends.ok hrun
    exact ⟨φ, s'.mem, s'.heap, ts', rfl, hφ⟩
  | error e s' =>
    rcases hends.error hrun with hfull | hfuel'
    · exact absurd hfull.2 (by omega)
    · exact absurd hfuel'.2 (by omega)

/-- The reachable objects of a space can be moved to a disjoint heap. -/
theorem Evac.setup_of_reachable {mem : Mem} {space : Set ℕ} (hspace : Space mem space)
    {ts : List Term} (hts : ∀ t ∈ ts, t.RefersTo space) {live : Finset ℕ}
    (hlive : ∀ a, a ∈ live ↔ Reachable mem ts a) {dst : Heap}
    (hapart : ∀ a ∈ space, a + sizeAt mem a ≤ dst.base ∨ dst.base + dst.cap ≤ a)
    (hbound : dst.base + dst.cap ≤ 2 ^ 61) : Setup mem space live dst := by
  refine ⟨hspace, fun a ha => ((hlive a).mp ha).mem_space hspace hts, ?_, hapart, hbound⟩
  intro a ha b hab
  obtain ⟨t, ht, hboxed, hpath⟩ := (hlive a).mp ha
  exact (hlive b).mpr ⟨t, ht, hboxed, hpath.tail hab⟩

/-- Evacuation of terms of a well-formed space into a disjoint heap with room for
the objects reachable from them ends well and moves exactly those objects; what
to-space held before and the unreachable objects stay as they are. -/
theorem evacuate_preserves_graph {mem : Mem} {space : Set ℕ} (hspace : Space mem space)
    {ts : List Term} (hts : ∀ t ∈ ts, t.RefersTo space) {live : Finset ℕ}
    (hlive : ∀ a, a ∈ live ↔ Reachable mem ts a) {dst : Heap}
    (hapart : ∀ a ∈ space, a + sizeAt mem a ≤ dst.base ∨ dst.base + dst.cap ≤ a)
    (hroom : dst.top + ∑ a ∈ live, sizeAt mem a ≤ dst.cap)
    (hbound : dst.base + dst.cap ≤ 2 ^ 61) {fuel : ℕ} (hfuel : live.card < fuel) :
    ∃ φ mem' dst' ts', evacuate fuel ts ⟨mem, dst⟩ = .ok ts' ⟨mem', dst'⟩ ∧
      Evacuated mem live dst ts φ mem' dst' ts' ∧
      (∀ c, dst.base ≤ c → c < dst.base + dst.top → mem' c = mem c) ∧
      ∀ a ∈ space, ¬Reachable mem ts a → ∀ j < sizeAt mem a, mem' (a + j) = mem (a + j) := by
  have hsetup := Evac.setup_of_reachable hspace hts hlive hapart hbound
  obtain ⟨φ, mem', dst', ts', hrun, hmoved⟩ := hsetup.evacuate_ok hlive hroom hfuel
  have hend : next dst' ≤ dst.base + dst.cap := by
    rw [hmoved.heap, next]
    dsimp only
    omega
  refine ⟨φ, mem', dst', ts', hrun, hmoved, ?_, ?_⟩
  · intro c hbase htop
    refine hmoved.frame c (fun hc => ?_) (.inl htop)
    have hout := hsetup.outside hc (hsetup.sizeAt_pos hc)
    have hcin := hapart c (hsetup.sub c hc)
    have hpos := hsetup.sizeAt_pos hc
    omega
  · intro a ha hunreached j hj
    have haout := hapart a ha
    refine hmoved.frame (a + j) (fun hc => ?_) ?_
    · have hne : a ≠ a + j := fun heq => hunreached ((hlive a).mp (heq ▸ hc))
      have hdisj := hspace.disjoint a ha (a + j) (hsetup.sub _ hc) hne
      have hpos := hsetup.sizeAt_pos hc
      omega
    · simp only [next] at hend ⊢
      omega

/-- A pair at word 10 whose two elements share the list cell at word 20. -/
def diamondMem : Mem := writeWords (writeWords (fun _ => 0) 10
  [Heap.headerWord 2 kindTuple, (Term.ofAddr 20).word, (Term.ofAddr 20).word])
  20 [kindCons, (Term.int 5).word, Term.nil.word]

private theorem diamond_space : Space diamondMem {10, 20} := by
  constructor
  · rintro a (rfl | rfl)
    · refine ⟨by decide, fun j hj => ?_, fun j hj => absurd hj.1 (by decide), by decide⟩
      have hlt : j < 3 := hj.bounds.2
      have hpos := hj.bounds.1
      obtain rfl | rfl : j = 1 ∨ j = 2 := by omega
      all_goals exact fun _ => .inr (by decide)
    · refine ⟨by decide, fun j hj => ?_, fun j hj => absurd hj.1 (by decide), by decide⟩
      have hlt : j < 3 := hj.bounds.2
      have hpos := hj.bounds.1
      obtain rfl | rfl : j = 1 ∨ j = 2 := by omega
      all_goals exact fun h => absurd h (by decide)
  · rintro a (rfl | rfl) b (rfl | rfl) hab <;> first | exact absurd rfl hab | decide

private theorem diamond_live (a : ℕ) :
    a ∈ ({10, 20} : Finset ℕ) ↔ Reachable diamondMem [Term.ofAddr 10, Term.nil] a := by
  have hroots : ∀ t ∈ [Term.ofAddr 10, Term.nil], t.RefersTo {10, 20} := by
    simp [Term.RefersTo]
    decide
  constructor
  · intro ha
    have h20 : RefersTo diamondMem 10 20 := ⟨1, by decide, by decide, by decide⟩
    refine ⟨Term.ofAddr 10, by simp, by decide, ?_⟩
    rcases (by simpa using ha : a = 10 ∨ a = 20) with rfl | rfl
    · exact .refl
    · exact .single h20
  · intro ha
    simpa using ha.mem_space diamond_space hroots

/-- The shared cell is moved once. -/
theorem diamond_preserved :
    ∃ φ mem' dst' ts', evacuate 3 [Term.ofAddr 10, Term.nil] ⟨diamondMem, ⟨100, 8, 0⟩⟩ =
        .ok ts' ⟨mem', dst'⟩ ∧
      Evacuated diamondMem {10, 20} ⟨100, 8, 0⟩ [Term.ofAddr 10, Term.nil] φ mem' dst' ts' ∧
      dst'.top = 6 := by
  have hroots : ∀ t ∈ [Term.ofAddr 10, Term.nil], t.RefersTo {10, 20} := by
    simp [Term.RefersTo]
    decide
  have hapart : ∀ a ∈ ({10, 20} : Set ℕ), a + sizeAt diamondMem a ≤ 100 ∨ 100 + 8 ≤ a := by
    rintro a (rfl | rfl) <;> decide
  have hroom : 0 + ∑ a ∈ ({10, 20} : Finset ℕ), sizeAt diamondMem a ≤ 8 := by decide
  have hfuel : ({10, 20} : Finset ℕ).card < 3 := by decide
  obtain ⟨φ, mem', dst', ts', hrun, hmoved, -, -⟩ :=
    @evacuate_preserves_graph _ _ diamond_space _ hroots _ diamond_live ⟨100, 8, 0⟩ hapart hroom
      (by decide) 3 hfuel
  exact ⟨φ, mem', dst', ts', hrun, hmoved, by rw [hmoved.heap]; decide⟩

end Yggdrasil
