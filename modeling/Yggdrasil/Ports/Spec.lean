import Yggdrasil.Ports.Machine

/-!
# What drivers and the pump do to a port

A submission is completed at once or parked. The pump completes parked reads in order.
Bytes are taken from the serial ring in order, each for one completion.
-/

namespace Yggdrasil

variable {δ : Type} (io : Devices δ)

namespace PortOf

/-- A port does not change apart from its rings. -/
structure Same (p p' : Port) : Prop where
  /-- The owner. -/
  owner : p'.owner = p.owner
  /-- The kind. -/
  kind : p'.kind = p.kind
  /-- The submission ring. -/
  sq : p'.sq = p.sq

/-- Nothing changes. -/
theorem Same.refl (p : Port) : p.Same p := ⟨rfl, rfl, rfl⟩

/-- Nothing changes in two steps. -/
theorem Same.trans {p p' p'' : Port} (h : p.Same p') (h' : p'.Same p'') : p.Same p'' :=
  ⟨h'.owner.trans h.owner, h'.kind.trans h.kind, h'.sq.trans h.sq⟩

/-- Completing changes the rings only. -/
theorem same_complete (cqe : Cqe) (p : Port) : p.Same (p.complete cqe) := by
  unfold complete
  split
  · exact ⟨rfl, rfl, rfl⟩
  · exact .refl p

/-- Finishing a submission changes the rings only. -/
theorem same_finish (sqe : Sqe) (result : Word) (byte : Option UInt8) (p : Port) :
    p.Same (p.finish sqe result byte) := by
  unfold finish
  split
  · exact same_complete _ p
  · exact .refl p

/-- Parking a read changes the rings only. -/
theorem same_park (sqe : Sqe) (p : Port) : p.Same (p.park sqe) := ⟨rfl, rfl, rfl⟩

/-- Completing does not touch parked reads. -/
theorem complete_pendingReads (cqe : Cqe) (p : Port) :
    (p.complete cqe).pendingReads = p.pendingReads := by
  unfold complete
  split <;> rfl

/-- A completion is appended to the ring and to the history, or lost. -/
theorem complete_cases (cqe : Cqe) (p : Port) :
    (p.cq.entries.length < 64 ∧ (p.complete cqe).cq.entries = p.cq.entries ++ [cqe] ∧
      (p.complete cqe).pushed = p.pushed ++ [cqe]) ∨
    (p.cq.entries.length = 64 ∧ p.complete cqe = p) := by
  unfold complete
  split
  · rename_i cq hpush
    obtain ⟨hlt, heq⟩ := Ring.push_eq_some_iff.mp hpush
    exact .inl ⟨hlt, heq, rfl⟩
  · rename_i hpush
    exact .inr ⟨Ring.push_eq_none_iff.mp hpush, rfl⟩

/-- The submission is a read that waits for input. -/
def Parks (p : Port) (sqe : Sqe) : Prop :=
  (p.kind = .serial ∨ p.kind = .net) ∧ sqe.op = opRead

instance (p : Port) (sqe : Sqe) : Decidable (p.Parks sqe) :=
  inferInstanceAs (Decidable ((_ ∨ _) ∧ _))

end PortOf

section Drivers

variable {io}

/-- Kernel code that leaves the serial ring alone. -/
private def KeepsRx {α : Type} (x : Runs δ α) : Prop := ∀ h, (x h).2.serialRx = h.serialRx

private theorem KeepsRx.bind {α β : Type} {x : Runs δ α} {f : α → Runs δ β} (hx : KeepsRx x)
    (hf : ∀ a, KeepsRx (f a)) : KeepsRx (x >>= f) := fun h => (hf _ _).trans (hx h)

private theorem KeepsRx.ite {α : Type} {c : Prop} [Decidable c] {x y : Runs δ α}
    (hx : KeepsRx x) (hy : KeepsRx y) : KeepsRx (if c then x else y) := by
  split
  · exact hx
  · exact hy

private theorem keepsRx_created (o : Option (List UInt8)) : KeepsRx (created io.calls o) := by
  cases o <;> exact fun _ => rfl

private theorem keepsRx_blkResult (sqe : Sqe) : KeepsRx (blkResult io.calls sqe) := by
  refine .ite (.bind (fun _ => rfl) fun o => ?_) (.ite (.bind (fun _ => rfl) keepsRx_created)
    (.ite (fun _ => rfl) fun _ => rfl))
  cases o with
  | none => exact fun _ => rfl
  | some b => exact .bind (fun _ => rfl) fun _ _ => rfl

private theorem keepsRx_rngResult (sqe : Sqe) : KeepsRx (rngResult io.calls sqe) :=
  .ite (fun _ => rfl) (.bind (fun _ => rfl) keepsRx_created)

private theorem keepsRx_netResult (sqe : Sqe) : KeepsRx (netResult io.calls sqe) := by
  refine .bind (fun _ => rfl) fun o => ?_
  cases o with
  | none => exact fun _ => rfl
  | some frame => exact .bind (fun _ => rfl) fun _ _ => rfl

private theorem keepsRx_gpuResult (sqe : Sqe) : KeepsRx (gpuResult io.calls sqe) := by
  refine .ite (.bind (fun _ => rfl) fun o => ?_) (.ite ?_ fun _ => rfl)
  · cases o with
    | none => exact fun _ => rfl
    | some cmd => exact .bind (fun _ => rfl) keepsRx_created
  · refine .bind (fun _ => rfl) fun o => .bind (fun _ => rfl) fun len => ?_
    cases o with
    | none => exact fun _ => rfl
    | some cmd =>
      cases len with
      | none => exact fun _ => rfl
      | some len =>
        exact .bind (fun _ => rfl) fun _ => .bind (fun _ => rfl) fun _ =>
          .bind (fun _ => rfl) keepsRx_created

/-- A submission is completed at once, with a byte of the serial ring or without, or it
is a read and parked. -/
inductive Handled (sqe : Sqe) (p : Port) : List UInt8 → Port → List UInt8 → Prop
  | finish (result : Word) (byte : Option UInt8) (rx : List UInt8) : ¬p.Parks sqe →
      Handled sqe p (byte.toList ++ rx) (p.finish sqe result byte) rx
  | park (rx : List UInt8) : p.Parks sqe → Handled sqe p rx (p.park sqe) rx

/-- Handling a submission changes the rings of a port only. -/
theorem Handled.same {sqe : Sqe} {p p' : Port} {rx rx' : List UInt8}
    (h : Handled sqe p rx p' rx') : p.Same p' := by
  cases h with
  | finish result byte _ _ => exact p.same_finish ..
  | park _ _ => exact p.same_park _

private theorem handled_sync {result : Sqe → Runs δ Word} {sqe : Sqe} {p : Port}
    {h : Hub δ} (hresult : (result sqe h).2.serialRx = h.serialRx) (hparks : ¬p.Parks sqe) :
    Handled sqe p h.serialRx.entries (syncSqe result sqe p h).1
      (syncSqe result sqe p h).2.serialRx.entries := by
  have hrx : (syncSqe result sqe p h).2.serialRx = h.serialRx := hresult
  rw [hrx]
  exact .finish _ none _ hparks

/-- What a driver does with one submission. -/
theorem handled_driver (sqe : Sqe) (p : Port) (h : Hub δ) :
    Handled sqe p h.serialRx.entries (driver io p.kind sqe p h).1
      (driver io p.kind sqe p h).2.serialRx.entries := by
  have hwrite : sqe.op = opWrite → ¬p.Parks sqe := fun hop hparks =>
    absurd (hop.symm.trans hparks.2) (by decide)
  cases hkind : p.kind with
  | serial =>
    rw [driver, serialSqe]
    split
    · exact .finish 0 none _ (hwrite ‹_›)
    · split
      · exact .park _ ⟨.inl hkind, ‹_›⟩
      · rename_i hop
        have hparks : ¬p.Parks sqe := fun hparks => hop hparks.2
        split
        · dsimp only [bind, StateT.bind, Devices.calls, HubOf.popSerial]
          cases hpop : h.serialRx.pop with
          | none => exact .finish _ none _ hparks
          | some r =>
            rw [Ring.pop_eq_some_iff.mp hpop]
            exact .finish _ (some r.1) _ hparks
        · exact .finish _ none _ hparks
  | blk => exact handled_sync (keepsRx_blkResult sqe h) (by simp [PortOf.Parks, hkind])
  | gpu => exact handled_sync (keepsRx_gpuResult sqe h) (by simp [PortOf.Parks, hkind])
  | rng => exact handled_sync (keepsRx_rngResult sqe h) (by simp [PortOf.Parks, hkind])
  | net =>
    rw [driver, netSqe]
    split
    · exact handled_sync (keepsRx_netResult sqe h) (hwrite ‹_›)
    · split
      · exact .park _ ⟨.inr hkind, ‹_›⟩
      · rename_i hop
        exact .finish _ none _ fun hparks => hop hparks.2

/-- On a port whose submission ring is empty, `submit` handles the submission. -/
theorem handled_submit {sqe : Sqe} {p : Port} {h : Hub δ} (hsq : p.sq.entries = []) :
    ∃ p' h', p.submit (driver io) sqe h = (some p', h') ∧
      Handled sqe p h.serialRx.entries p' h'.serialRx.entries := by
  refine ⟨_, _, ?_, @handled_driver δ io sqe p h⟩
  obtain ⟨owner, kind, ⟨entries, hle⟩, cq, reads, pushed⟩ := p
  cases hsq
  rfl

end Drivers

section Pump

variable {io}

/-- The pump completes the first `k` parked reads, some with bytes of the serial ring. -/
inductive Served : ℕ → Port → List UInt8 → Port → List UInt8 → Prop
  | done (p : Port) (rx : List UInt8) : Served 0 p rx p rx
  | read {k : ℕ} {p p' : Port} {rx rx' : List UInt8} {sqe : Sqe} {reads : Ring Sqe 64}
      (result : Word) (byte : Option UInt8) :
      p.pendingReads.entries = sqe :: reads.entries →
      Served k ({ p with pendingReads := reads }.complete ⟨sqe.tag, result, byte⟩) rx p' rx' →
      Served (k + 1) p (byte.toList ++ rx) p' rx'

private theorem served_serial (m : ℕ) (p : Port) (h : Hub δ) :
    ∃ k ≤ h.serialRx.entries.length, Served k p h.serialRx.entries (serveSerial io.calls m p h).1
      (serveSerial io.calls m p h).2.serialRx.entries := by
  induction m generalizing p h with
  | zero => exact ⟨0, Nat.zero_le _, .done p _⟩
  | succ m ih =>
    rw [serveSerial]
    cases hread : p.pendingReads.pop with
    | none => exact ⟨0, Nat.zero_le _, .done p _⟩
    | some r =>
      dsimp only [bind, StateT.bind, Devices.calls, HubOf.popSerial]
      cases hrx : h.serialRx.pop with
      | none => exact ⟨0, Nat.zero_le _, .done p _⟩
      | some b =>
        rw [Ring.pop_eq_some_iff] at hread hrx
        obtain ⟨k, hk, hserved⟩ := ih ({ p with pendingReads := r.2 }.complete
          ⟨r.1.tag, b.1.toBitVec.setWidth 64, some b.1⟩) { h with serialRx := b.2 }
        refine ⟨k + 1, ?_, ?_⟩
        · rw [hrx, List.length_cons]
          exact Nat.succ_le_succ hk
        · rw [hrx]
          exact .read _ (some b.1) hread hserved

private theorem served_net (m : ℕ) (p : Port) (h : Hub δ) :
    ∃ k, Served k p h.serialRx.entries (serveNet io.calls m p h).1
      (serveNet io.calls m p h).2.serialRx.entries := by
  induction m generalizing p h with
  | zero => exact ⟨0, .done p _⟩
  | succ m ih =>
    rw [serveNet]
    cases hread : p.pendingReads.pop with
    | none => exact ⟨0, .done p _⟩
    | some r =>
      dsimp only [bind, StateT.bind, Devices.calls, HubOf.ask]
      cases (io.netTryRecv h.dev).1 with
      | none => exact ⟨0, .done p _⟩
      | some frame =>
        rw [Ring.pop_eq_some_iff] at hread
        obtain ⟨k, hserved⟩ := ih ({ p with pendingReads := r.2 }.complete
          ⟨r.1.tag, h.buffers.next, none⟩)
          { h with dev := (io.netTryRecv h.dev).2, buffers := (h.buffers.create frame).2 }
        exact ⟨k + 1, .read _ none hread hserved⟩

/-- The number of completions that a pump can make on a port. -/
def PortOf.servable (p : Port) (rx : List UInt8) : ℕ :=
  match p.kind with
  | .serial => min p.pendingReads.entries.length rx.length
  | .net => p.pendingReads.entries.length
  | .blk | .gpu | .rng => 0

/-- Every round takes one parked read. -/
theorem Served.pending {k : ℕ} {p p' : Port} {rx rx' : List UInt8} (h : Served k p rx p' rx') :
    p'.pendingReads.entries.length + k = p.pendingReads.entries.length := by
  induction h with
  | done p rx => rfl
  | read result byte hread _ ih =>
    rw [PortOf.complete_pendingReads] at ih
    dsimp only at ih
    rw [hread, List.length_cons]
    omega

/-- What the pump does with the parked reads of a port. -/
theorem served_serve (p : Port) (h : Hub δ) :
    ∃ k ≤ p.servable h.serialRx.entries, Served k p h.serialRx.entries (serve io p h).1
      (serve io p h).2.serialRx.entries := by
  unfold serve PortOf.servable
  cases p.kind with
  | serial =>
    obtain ⟨k, hk, hserved⟩ := served_serial p.pendingReads.entries.length p h
    have hpending := hserved.pending
    exact ⟨k, by dsimp only; omega, hserved⟩
  | net =>
    obtain ⟨k, hserved⟩ := @served_net δ io p.pendingReads.entries.length p h
    have hpending := hserved.pending
    exact ⟨k, by dsimp only; omega, hserved⟩
  | blk | gpu | rng => exact ⟨0, Nat.zero_le _, .done p _⟩

/-- The pump changes the rings of a port only. -/
theorem Served.same {k : ℕ} {p p' : Port} {rx rx' : List UInt8} (h : Served k p rx p' rx') :
    p.Same p' := by
  induction h with
  | done p rx => exact .refl p
  | read result byte _ _ ih =>
    have hcomplete := PortOf.same_complete _ _ |>.trans ih
    exact ⟨hcomplete.owner, hcomplete.kind, hcomplete.sq⟩

/-- Bytes are taken from the front of the serial ring. -/
theorem Served.suffix {k : ℕ} {p p' : Port} {rx rx' : List UInt8} (h : Served k p rx p' rx') :
    rx' <:+ rx := by
  induction h with
  | done p rx => exact List.suffix_rfl
  | read result byte _ _ ih => exact ih.trans (List.suffix_append _ _)

/-- With less input the pump can make less completions. -/
theorem PortOf.servable_le (p : Port) {rx rx' : List UInt8} (h : rx'.length ≤ rx.length) :
    p.servable rx' ≤ p.servable rx := by
  unfold servable
  split
  · omega
  · exact le_rfl
  · exact le_rfl
  · exact le_rfl
  · exact le_rfl

/-- A port that the pump visits: parked reads are completed with input that was there and
all completions are taken out. -/
def Visited (id : ℕ) (p : Port) (rx rx' : List UInt8) (o' : Option Port)
    (ds : List Delivery) : Prop :=
  ∃ k p₁ rx₁ rx₂, k ≤ p.servable rx ∧ rx₁ <:+ rx ∧ rx' <:+ rx₂ ∧ Served k p rx₁ p₁ rx₂ ∧
    o' = some { p₁ with cq := .empty } ∧
    ds.filter (fun d => d.port = id) = p₁.cq.entries.map (⟨p.owner, id, ·⟩)

private theorem pumpPorts_some {ids : List ℕ} {id : ℕ} {ports : ℕ → Option Port} {p : Port}
    (hp : ports id = some p) (h : Hub δ) : pumpPorts (serve io) (id :: ids) ports h =
      let r := pumpPort (serve io) p h
      let rest := pumpPorts (serve io) ids (Function.update ports id (some r.1.2)) r.2
      ((r.1.1.map (⟨p.owner, id, ·⟩) ++ rest.1.1, rest.1.2), rest.2) := by
  rw [pumpPorts, hp]
  rfl

/-- The pump leaves other ports alone. -/
theorem pumpPorts_skip {ids : List ℕ} {id : ℕ} {ports : ℕ → Option Port} (h : Hub δ)
    (hid : id ∉ ids ∨ ports id = none) :
    (pumpPorts (serve io) ids ports h).1.2 id = ports id ∧
      (pumpPorts (serve io) ids ports h).1.1.filter (fun d => d.port = id) = [] := by
  induction ids generalizing ports h with
  | nil => exact ⟨rfl, rfl⟩
  | cons i ids ih =>
    have hid' : id ∉ ids ∨ ports id = none :=
      hid.imp_left fun hne hmem => hne (List.mem_cons_of_mem i hmem)
    cases hp : ports i with
    | none =>
      rw [pumpPorts, hp]
      exact ih h hid'
    | some p =>
      have hne : id ≠ i := by
        rintro rfl
        rcases hid with hne | hnone
        · exact hne List.mem_cons_self
        · rw [hp] at hnone
          cases hnone
      rw [← Function.update_of_ne hne (some (pumpPort (serve io) p h).1.2) ports] at hid'
      obtain ⟨hport, hds⟩ := ih (pumpPort (serve io) p h).2 hid'
      rw [pumpPorts_some hp]
      refine ⟨hport.trans (Function.update_of_ne hne _ _), ?_⟩
      dsimp only
      rw [List.filter_append, hds, List.append_nil, List.filter_map, List.map_eq_nil_iff]
      simp [Ne.symm hne]

/-- The pump takes bytes from the front of the serial ring. -/
theorem pumpPorts_suffix (ids : List ℕ) (ports : ℕ → Option Port) (h : Hub δ) :
    (pumpPorts (serve io) ids ports h).2.serialRx.entries <:+ h.serialRx.entries := by
  induction ids generalizing ports h with
  | nil => exact List.suffix_rfl
  | cons i ids ih =>
    cases hp : ports i with
    | none =>
      rw [pumpPorts, hp]
      exact ih ports h
    | some p =>
      obtain ⟨k, -, hserved⟩ := @served_serve δ io p h
      rw [pumpPorts_some hp]
      exact (ih _ _).trans hserved.suffix

/-- The pump visits every port once. -/
theorem pumpPorts_visited {ids : List ℕ} (hids : ids.Nodup) {id : ℕ} (hid : id ∈ ids)
    {ports : ℕ → Option Port} {p : Port} (hp : ports id = some p) (h : Hub δ) :
    Visited id p h.serialRx.entries (pumpPorts (serve io) ids ports h).2.serialRx.entries
      ((pumpPorts (serve io) ids ports h).1.2 id) (pumpPorts (serve io) ids ports h).1.1 := by
  induction ids generalizing ports h with
  | nil => cases hid
  | cons i ids ih =>
    rw [List.nodup_cons] at hids
    by_cases hne : id = i
    · subst hne
      obtain ⟨k, hk, hserved⟩ := @served_serve δ io p h
      rw [pumpPorts_some hp]
      obtain ⟨hport, hds⟩ := @pumpPorts_skip δ io ids id
        (Function.update ports id (some (pumpPort (serve io) p h).1.2)) (pumpPort (serve io) p h).2
        (.inl hids.1)
      have hsuffix := @pumpPorts_suffix δ io ids
        (Function.update ports id (some (pumpPort (serve io) p h).1.2)) (pumpPort (serve io) p h).2
      refine ⟨k, _, _, _, hk, List.suffix_rfl, hsuffix, hserved, ?_, ?_⟩
      · rw [hport, Function.update_self]
        rfl
      · rw [List.filter_append, hds, List.append_nil, List.filter_eq_self.mpr]
        · rfl
        · intro d hd
          obtain ⟨cqe, -, rfl⟩ := List.mem_map.mp hd
          simp
    · have hid' : id ∈ ids := (List.mem_cons.mp hid).resolve_left hne
      cases hq : ports i with
      | none =>
        rw [pumpPorts, hq]
        exact ih hids.2 hid' hp h
      | some q =>
        rw [pumpPorts_some hq]
        obtain ⟨k₀, -, hserved₀⟩ := @served_serve δ io q h
        have hp' : Function.update ports i (some (pumpPort (serve io) q h).1.2) id = some p := by
          rw [Function.update_of_ne hne, hp]
        obtain ⟨k, p₁, rx₁, rx₂, hk, hrx₁, hrx₂, hserved, hport, hds⟩ :=
          ih hids.2 hid' hp' (pumpPort (serve io) q h).2
        have hsuffix : (pumpPort (serve io) q h).2.serialRx.entries <:+ h.serialRx.entries :=
          hserved₀.suffix
        refine ⟨k, p₁, rx₁, rx₂, hk.trans (p.servable_le hsuffix.length_le), hrx₁.trans hsuffix,
          hrx₂, hserved, hport, ?_⟩
        dsimp only
        rw [List.filter_append, hds, List.filter_map]
        simp [Ne.symm hne]

end Pump

end Yggdrasil
