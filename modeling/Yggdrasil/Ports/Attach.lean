import Yggdrasil.Ports.Surface

/-!
# Attaching a backing buffer

An attach consumes its command buffer and pins its backing buffer before it is known whether
both can be used. A refused attach leaves the other half done.
-/

namespace Yggdrasil

namespace Buffers

variable {ι β : Type} [DecidableEq ι] {t : Buffers ι β} {a b : ι} {length : β → ℕ}

/-- A buffer that `buf_take` moves out. -/
def Takeable (t : Buffers ι β) (id : ι) : Prop := t.pinned id = false ∧ (t.data id).isSome

/-- Both buffers of an attach can be used: the command can be taken, and the backing buffer
is there without it. -/
def Usable (t : Buffers ι β) (a b : ι) : Prop := t.Takeable a ∧ (t.data b).isSome ∧ b ≠ a

/-- Neither buffer of an attach is touched: the command stays, and the backing buffer is
absent or pinned already. -/
def Untouched (t : Buffers ι β) (a b : ι) : Prop :=
  ¬ t.Takeable a ∧ (t.data b = none ∨ t.pinned b = true)

/-- A buffer that cannot be taken stays, and so does everything else. -/
theorem take_of_not (h : ¬ t.Takeable a) : t.take a = (none, t) := by
  unfold take
  split
  · rfl
  · next hpin =>
    have habsent : t.data a = none := by
      by_contra hne
      exact h ⟨by simpa using hpin, Option.isSome_iff_ne_none.mpr hne⟩
    rw [← habsent, Function.update_eq_self]

/-- A buffer that can be taken is gone. -/
theorem take_data (h : t.Takeable a) : (t.take a).2.data = Function.update t.data a none := by
  rw [take, if_neg (by simp [h.1])]

/-- Nothing is pinned if the buffer is absent or pinned already. -/
theorem pin_of (h : t.data b = none ∨ t.pinned b = true) : (t.pin length b).2 = t := by
  unfold pin
  split
  · rfl
  · next hsome =>
    have hpin : t.pinned b = true := h.resolve_left (by simp [hsome])
    rw [← hpin, Function.update_eq_self]

/-- A buffer that is there is pinned. -/
theorem pin_pinned (h : t.data b ≠ none) : (t.pin length b).2.pinned b = true := by
  unfold pin
  split
  · next hnone => exact absurd hnone h
  · exact Function.update_self ..

/-- Pinning moves no buffer. -/
theorem pin_data : (t.pin length b).2.data = t.data := by
  unfold pin
  split <;> rfl

/-- One of the buffers of an attach that is refused is not found. -/
theorem refused_of_not_usable (h : ¬ t.Usable a b) :
    (t.take a).1 = none ∨ ((t.take a).2.pin length b).1 = none := by
  by_cases htake : t.Takeable a
  · right
    have habsent : (t.take a).2.data b = none := by
      rw [take_data htake]
      by_cases hb : b = a
      · rw [hb, Function.update_self]
      · rw [Function.update_of_ne hb, ← Option.not_isSome_iff_eq_none]
        exact fun hsome => h ⟨htake, hsome, hb⟩
    rw [pin, habsent]
  · exact .inl (by rw [take_of_not htake])

end Buffers

namespace Surface

variable {δ : Type} {heap : ℕ} {io : Virtio δ} {h : Hub δ} {a b tag : Word} {p : Port}

/-- An attach of backing buffer `b` by the command in buffer `a`. -/
def attach (tag a b : Word) : Sqe := ⟨opCtrlAttach, tag, a, b⟩

/-- A refused attach completes with -2; the command was taken and the backing buffer pinned
as far as each of them could be. -/
theorem attach_refused (hrefused : ¬ h.buffers.Usable a b) :
    drainOne heap io 3 (attach tag a b) p h = .ok (p.finish (attach tag a b) (-2) none,
      { h with buffers := ((h.buffers.take a).2.pin (·.data.length) b).2 }) := by
  have hop : ¬ (attach tag a b).op = opCtrl := show ¬ opCtrlAttach = opCtrl by decide
  have hresult : gpuResult (io.calls heap) (attach tag a b) h =
      .ok (-2, { h with buffers := ((h.buffers.take a).2.pin (·.data.length) b).2 }) := by
    rw [gpuResult, if_neg hop, if_pos (show (attach tag a b).op = opCtrlAttach from rfl)]
    simp only [attach, bind, StateT.bind, Except.bind, Virtio.calls, bufTake, bufPin,
      HubOf.onBuffers, pure, Except.pure]
    rcases @Buffers.refused_of_not_usable _ _ _ _ _ _ (fun b : Buffer => b.data.length)
      hrefused with htake | hpin
    · rw [htake]
      rfl
    · rw [hpin]
      cases (h.buffers.take a).1 <;> rfl
  rw [drainOne, if_neg (by decide), if_neg (by decide), if_neg (by decide), if_pos rfl]
  simp only [gpuSqe, syncSqe, bind, StateT.bind, Except.bind, hresult]
  rfl

/-- A refused attach leaves the table of buffers and the set of pinned ones as they were
exactly if neither of its buffers is touched; an attach of usable buffers is not refused. -/
theorem refused_attach_keeps_table :
    (¬ h.buffers.Usable a b → ∃ h', drainOne heap io 3 (attach tag a b) p h =
        .ok (p.finish (attach tag a b) (-2) none, h') ∧
      h'.buffers.data = h.buffers.data ∧ h'.buffers.pinned = h.buffers.pinned) ↔
    h.buffers.Usable a b ∨ h.buffers.Untouched a b := by
  constructor
  · intro hkeeps
    by_cases husable : h.buffers.Usable a b
    · exact .inl husable
    · obtain ⟨h', hrun, hdata, hpinned⟩ := hkeeps husable
      rw [attach_refused husable] at hrun
      cases hrun
      have hstay : ¬ h.buffers.Takeable a := by
        intro htake
        have hlost := congrFun (Buffers.take_data htake) a
        rw [Function.update_self, ← Buffers.pin_data] at hlost
        rw [hdata] at hlost
        exact Option.isSome_iff_ne_none.mp htake.2 hlost
      refine .inr ⟨hstay, ?_⟩
      rw [Buffers.take_of_not hstay] at hpinned
      by_contra hb
      obtain ⟨hpresent, hfree⟩ := not_or.mp hb
      exact hfree ((congrFun hpinned b).symm.trans (Buffers.pin_pinned hpresent))
  · rintro (husable | ⟨hstay, hb⟩) hrefused
    · exact absurd husable hrefused
    · refine ⟨_, attach_refused hrefused, ?_⟩
      rw [Buffers.take_of_not hstay, Buffers.pin_of hb]
      exact ⟨rfl, rfl⟩

/-- A hub with one buffer, number 1, and no device. -/
def oneBuffer : Hub Unit where
  serialRx := .empty
  buffers := ⟨fun id => if id = 1 then some ⟨[0], 1⟩ else none, fun _ => false, 2⟩
  dev := ()

/-- No device is there. -/
def noDevices : Virtio Unit where
  has _ := false
  rawWriteByte _ d := d
  writeBlocks _ _ d := (false, d)
  flush d := (false, d)
  readBlocks _ d := (none, d)
  requestEntropy _ d := (none, d)
  send _ d := (false, d)
  receive d := (none, d)
  receive_le _ _ h := by cases h
  ctrl _ _ d := some (none, d)
  virtToPhys _ _ := 0

/-- A gpu port with nothing queued. -/
def gpuPort : Port := ⟨1, 3, .empty, .empty, .empty, []⟩

/-- An attach whose backing buffer is absent loses its command buffer, and one whose command
buffer is absent pins its backing buffer; both complete with -2. -/
theorem refused_attach_half_done :
    (∃ h', drainOne 4096 noDevices 3 (attach 0 1 5) gpuPort oneBuffer =
        .ok (gpuPort.finish (attach 0 1 5) (-2) none, h') ∧
      oneBuffer.buffers.data 1 ≠ none ∧ h'.buffers.data 1 = none) ∧
    ∃ h', drainOne 4096 noDevices 3 (attach 0 5 1) gpuPort oneBuffer =
        .ok (gpuPort.finish (attach 0 5 1) (-2) none, h') ∧
      oneBuffer.buffers.pinned 1 = false ∧ h'.buffers.pinned 1 = true := by
  have hlost : ¬ oneBuffer.buffers.Usable 1 5 := fun h => absurd h.2.1 (by decide)
  have hpinned : ¬ oneBuffer.buffers.Usable 5 1 := fun h => absurd h.1.2 (by decide)
  refine ⟨⟨_, attach_refused hlost, ?_, ?_⟩, ⟨_, attach_refused hpinned, ?_, ?_⟩⟩
  all_goals decide

end Surface

end Yggdrasil
