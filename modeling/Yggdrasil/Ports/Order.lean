import Yggdrasil.Ports.Completions

/-!
# Completions are delivered in order

The pump takes completions out under the lock and delivers them after releasing it. As
long as no pump takes out completions of a port while another core still has some to
deliver, they reach the owner in the order of the completion ring, and so do the bytes
they carry. If two pumps overlap, later completions can overtake earlier ones.
-/

namespace Yggdrasil.Ports

variable {n : ℕ} {δ : Type} {io : Devices δ}

/-- What the pump completes is pushed and stays in the ring, some of it with bytes taken
from the front of the serial ring. -/
theorem served_pushed {k : ℕ} {p p' : Port} {rx rx' : List UInt8} (h : Served k p rx p' rx') :
    ∃ cqes bytes, p'.pushed = p.pushed ++ cqes ∧ p'.cq.entries = p.cq.entries ++ cqes ∧
      rx = bytes ++ rx' ∧ (cqes.filterMap Cqe.byte).Sublist bytes := by
  induction h with
  | done p rx => exact ⟨[], [], by simp, by simp, rfl, .refl _⟩
  | @read k p p' rx rx' sqe reads result byte hread _ ih =>
    obtain ⟨cqes, bytes, hpushed, hcq, hrx, hbytes⟩ := ih
    rcases PortOf.complete_cases ⟨sqe.tag, result, byte⟩ { p with pendingReads := reads }
      with ⟨-, hcq₁, hpushed₁⟩ | ⟨-, heq⟩
    · refine ⟨⟨sqe.tag, result, byte⟩ :: cqes, byte.toList ++ bytes, ?_, ?_, ?_, ?_⟩
      · rw [hpushed, hpushed₁, List.append_assoc]
        rfl
      · rw [hcq, hcq₁, List.append_assoc]
        rfl
      · rw [hrx, List.append_assoc]
      · cases byte with
        | none => exact hbytes
        | some b => exact hbytes.cons_cons b
    · rw [heq] at hpushed hcq
      exact ⟨cqes, byte.toList ++ bytes, hpushed, hcq, by rw [hrx, List.append_assoc],
        hbytes.trans (List.sublist_append_right _ _)⟩

/-- What handling a submission pushes, if anything. -/
theorem handled_pushed {sqe : Sqe} {p p' : Port} {rx rx' : List UInt8}
    (h : Handled sqe p rx p' rx') :
    ∃ cqes bytes, p'.pushed = p.pushed ++ cqes ∧ p'.cq.entries = p.cq.entries ++ cqes ∧
      rx = bytes ++ rx' ∧ (cqes.filterMap Cqe.byte).Sublist bytes := by
  have hnothing : ∀ bytes : List UInt8, ∃ cqes bytes', p.pushed = p.pushed ++ cqes ∧
      p.cq.entries = p.cq.entries ++ cqes ∧ bytes ++ rx' = bytes' ++ rx' ∧
      (cqes.filterMap Cqe.byte).Sublist bytes' := fun bytes =>
    ⟨[], bytes, by simp, by simp, rfl, List.nil_sublist _⟩
  cases h with
  | finish result byte _ _ =>
    unfold PortOf.finish
    split
    · rcases p.complete_cases ⟨sqe.tag, result, byte⟩ with ⟨-, hcq, hpushed⟩ | ⟨-, heq⟩
      · refine ⟨[⟨sqe.tag, result, byte⟩], byte.toList, hpushed, hcq, rfl, ?_⟩
        cases byte with
        | none => exact .refl _
        | some b => exact .refl _
      · rw [heq]
        exact hnothing _
    · exact hnothing _
  | park _ _ => exact hnothing []

/-- A pump collects completions of a port only when no core has some of them left to
deliver, or when there is nothing to collect. -/
def InTurn (id : ℕ) (s : Machine n δ) : Event n δ → Prop
  | .collect _ => (∀ d, (s.core d).undelivered id = []) ∨
      ∀ p, s.ports id = some p → p.cq.entries = [] ∧ p.servable s.hub.serialRx.entries = 0
  | _ => True

namespace Machine

/-- The completions of a port on their way, all on one core. -/
inductive Flight (id : ℕ) (s : Machine n δ) : List Cqe → Prop
  | none : (∀ c, (s.core c).undelivered id = []) → Flight id s []
  | one (c : Fin n) : (∀ d, d ≠ c → (s.core d).undelivered id = []) →
      Flight id s ((s.core c).undelivered id)

/-- The completions of a port are in order. -/
structure Ordered (s : Machine n δ) (id : ℕ) : Prop where
  /-- Those delivered come first. -/
  isPrefix : ∀ p, s.ports id = some p → s.delivered id <+: p.pushed
  /-- As long as the owner lives, those on their way and those in the ring follow. -/
  split : ∀ p, s.ports id = some p → s.dead p.owner = false → ∃ way, Flight id s way ∧
    p.pushed = s.delivered id ++ way ++ p.cq.entries

variable {s s' : Machine n δ} {e : Event n δ}

/-- Completions on their way stay where they are, if every core keeps its part. -/
theorem Flight.congr {id : ℕ} {way : List Cqe} (h : Flight id s way)
    (hsame : ∀ c, (s'.core c).undelivered id = (s.core c).undelivered id) : Flight id s' way := by
  cases h with
  | none hnil => exact .none fun c => (hsame c).trans (hnil c)
  | one c hother =>
    rw [← hsame c]
    exact .one c fun d hd => (hsame d).trans (hother d hd)

/-- If nothing is on its way, nothing is. -/
theorem Flight.eq_nil {id : ℕ} {way : List Cqe} (h : Flight id s way)
    (hnil : ∀ c, (s.core c).undelivered id = []) : way = [] := by
  cases h with
  | none _ => rfl
  | one c _ => exact hnil c

/-- A core that has completions to deliver has all of them. -/
theorem Flight.eq_of_ne_nil {id : ℕ} {way : List Cqe} (h : Flight id s way) {c : Fin n}
    (hc : (s.core c).undelivered id ≠ []) :
    way = (s.core c).undelivered id ∧ ∀ d, d ≠ c → (s.core d).undelivered id = [] := by
  cases h with
  | none hnil => exact absurd (hnil c) hc
  | one b hother =>
    have hcb : c = b := by
      by_contra hne
      exact hc (hother c hne)
    subst hcb
    exact ⟨rfl, hother⟩

/-- A step in turn keeps the completions of a port in order. -/
theorem Ordered.step (hwf : s.Wf) {id : ℕ} (h : s.Ordered id) (hstep : s.step io e = some s')
    (hok : InTurn id s e) : s'.Ordered id := by
  cases step_row hwf hstep id with
  | same hport hkeep =>
    refine ⟨fun p hp => ?_, fun p hp halive => ?_⟩
    · rw [hkeep.delivered]
      exact h.isPrefix p (hport ▸ hp)
    · obtain ⟨way, hway, hpushed⟩ := h.split p (hport ▸ hp) (step_alive hstep halive)
      rw [hkeep.delivered]
      exact ⟨way, hway.congr hkeep.undelivered, hpushed⟩
  | opened c owner kind hloc _ hport hkeep =>
    have hunused := (hwf.opening c id owner kind hloc).2
    have hnone : s'.delivered id = [] := hkeep.delivered.trans hunused.delivered
    refine ⟨fun p hp => ?_, fun p hp _ => ?_⟩
    · rw [hnone]
      exact List.nil_prefix
    · rw [hport] at hp
      cases hp
      rw [hnone]
      exact ⟨[], .none fun d => (hkeep.undelivered d).trans (hunused.undelivered d), rfl⟩
  | submitted c sqe p p' _ hp hp' hhandled _ hdelivered hcore =>
    obtain ⟨cqes, -, hpushed, hcq, -⟩ := handled_pushed hhandled
    refine ⟨fun q hq => ?_, fun q hq halive => ?_⟩
    · rw [hp'] at hq
      cases hq
      rw [hdelivered, hpushed]
      exact (h.isPrefix p hp).trans (List.prefix_append _ _)
    · rw [hp'] at hq
      cases hq
      obtain ⟨way, hway, hsplit⟩ :=
        h.split p hp (step_alive hstep (hhandled.same.owner ▸ halive))
      refine ⟨way, hway.congr hcore, ?_⟩
      rw [hdelivered, hpushed, hcq, hsplit, List.append_assoc]
  | pumped c p ds he hp hvisited _ hdelivered hnil hcore =>
    subst he
    obtain ⟨k, p₁, rx₁, rx₂, hk, -, -, hserved, hport, hds⟩ := hvisited
    obtain ⟨cqes, -, hpushed, hcq, -⟩ := served_pushed hserved
    have htaken := Loc.undelivered_taken hds
    refine ⟨fun q hq => ?_, fun q hq halive => ?_⟩
    · rw [hport] at hq
      cases hq
      rw [hdelivered]
      change _ <+: p₁.pushed
      rw [hpushed]
      exact (h.isPrefix p hp).trans (List.prefix_append _ _)
    · rw [hport] at hq
      cases hq
      obtain ⟨way, hway, hsplit⟩ :=
        h.split p hp (step_alive hstep (hserved.same.owner ▸ halive))
      change ∃ way, _ ∧ p₁.pushed = s'.delivered id ++ way ++ []
      rw [hdelivered, hpushed, hsplit]
      rcases hok with hnone | hempty
      · -- nothing was on its way, so what is collected comes next
        refine ⟨p₁.cq.entries, ?_, ?_⟩
        · have hflight := @Flight.one _ _ id s' c fun d hd => by
            rw [hcore, Function.update_of_ne hd]
            exact hnone d
          rwa [hcore, Function.update_self, htaken] at hflight
        · rw [hway.eq_nil hnone, hcq]
          simp
      · -- nothing is collected
        obtain ⟨hcq₀, hzero⟩ := hempty p hp
        have hk₀ : k = 0 := by omega
        subst hk₀
        cases hserved
        refine ⟨way, hway.congr fun d => ?_, ?_⟩
        · rw [hcore, Function.update_apply]
          split
          · rename_i hd
            rw [htaken, hd, hnil, hcq₀]
          · rfl
        · have hcqes : cqes = [] := by simpa [hcq₀] using hcq
          rw [hcq₀, hcqes, List.append_nil]
  | delivered c d ds hd hloc hcore hport _ hdelivered =>
    have hfirst : (s.core c).undelivered id = d.cqe :: (Loc.delivering ds).undelivered id := by
      rw [hloc, Loc.undelivered_cons hd]
    have howner : ∀ p, s.ports id = some p → d.owner = p.owner := fun p hp =>
      hwf.owner c _ d p hloc List.mem_cons_self (by rw [hd]; exact hp)
    -- a delivery takes the first completion that is on its way
    have halive : ∀ p, s.ports id = some p → s.dead p.owner = false → ∃ way, Flight id s' way ∧
        p.pushed = s'.delivered id ++ way ++ p.cq.entries := by
      intro p hp halive
      obtain ⟨way, hway, hsplit⟩ := h.split p hp halive
      obtain ⟨hall, hother⟩ :=
        hway.eq_of_ne_nil (c := c) (by rw [hfirst]; exact List.cons_ne_nil _ _)
      refine ⟨(Loc.delivering ds).undelivered id, ?_, ?_⟩
      · have hflight := @Flight.one _ _ id s' c fun b hb => by
          rw [hcore, Function.update_of_ne hb]
          exact hother b hb
        rwa [hcore, Function.update_self] at hflight
      · rw [hsplit, hall, hfirst, hdelivered, howner p hp, halive, if_neg (by simp)]
        simp
    refine ⟨fun p hp => ?_, fun p hp hp' => halive p (hport ▸ hp) (step_alive hstep hp')⟩
    have hp₀ : s.ports id = some p := hport ▸ hp
    cases hdead : s.dead p.owner with
    | true =>
      rw [hdelivered, howner p hp₀, hdead, if_pos rfl]
      exact h.isPrefix p hp₀
    | false =>
      obtain ⟨way, -, hsplit⟩ := halive p hp₀ hdead
      rw [hsplit, List.append_assoc]
      exact List.prefix_append _ _
  | closed p _ _ hnone _ =>
    refine ⟨fun q hq => ?_, fun q hq => ?_⟩
    · rw [hnone] at hq
      cases hq
    · rw [hnone] at hq
      cases hq

/-- There are no completions at boot. -/
theorem Ordered.init (h : Init s) (id : ℕ) : s.Ordered id := by
  obtain ⟨-, hports, -⟩ := h
  refine ⟨fun p hp => ?_, fun p hp => ?_⟩
  · rw [hports] at hp
    cases hp
  · rw [hports] at hp
    cases hp

/-- What a step does to the serial ring: a byte arrives at its end, or some are taken from
its front. -/
theorem step_rx (hwf : s.Wf) (h : s.step io e = some s') :
    (∃ b, s'.ports = s.ports ∧ s'.hub.serialRx.entries = s.hub.serialRx.entries ++ [b] ∧
      s'.received = s.received ++ [b]) ∨
    ∃ taken, s.hub.serialRx.entries = taken ++ s'.hub.serialRx.entries ∧
      s'.received = s.received := by
  cases e with
  | openTake c owner kind =>
    rw [step] at h
    split at h
    · split at h <;> (cases h; exact .inr ⟨[], rfl, rfl⟩)
    · cases h
  | submit c i sqe =>
    rw [step] at h
    split at h
    · cases h
      unfold submit
      cases hp : s.ports i with
      | none => exact .inr ⟨[], rfl, rfl⟩
      | some p =>
        obtain ⟨p', hub, hsubmit, hhandled⟩ :=
          @handled_submit δ io sqe p s.hub (hwf.sq i p hp)
        obtain ⟨-, bytes, -, -, hrx, -⟩ := handled_pushed hhandled
        dsimp only
        rw [hsubmit]
        exact .inr ⟨bytes, hrx, rfl⟩
    · cases h
  | collect c =>
    rw [step] at h
    split at h
    · cases h
      obtain ⟨taken, htaken⟩ := @pumpPorts_suffix δ io (List.range s.nextPort) s.ports s.hub
      exact .inr ⟨taken, htaken.symm, rfl⟩
    · cases h
  | deliver c =>
    rw [step] at h
    split at h
    · cases h
      unfold deliver
      split <;> exact .inr ⟨[], rfl, rfl⟩
    · cases h
  | irq b =>
    cases h
    unfold irq
    split
    · exact .inr ⟨[], rfl, rfl⟩
    · rename_i rx hpush
      exact .inl ⟨b, rfl, (Ring.push_eq_some_iff.mp hpush).2, rfl⟩
  | close pid =>
    rw [step] at h
    split at h
    · cases h
      exact .inr ⟨[], rfl, rfl⟩
    · cases h
  | openInsert c | pump c | finish c =>
    rw [step] at h
    split at h
    · cases h
      exact .inr ⟨[], rfl, rfl⟩
    · cases h
  | device dev | buffers b | die pid =>
    cases h
    exact .inr ⟨[], rfl, rfl⟩

/-- The bytes of a port's completions were taken from the serial ring in this order. -/
def BytesInOrder (id : ℕ) (s : Machine n δ) : Prop :=
  ∃ taken, s.received = taken ++ s.hub.serialRx.entries ∧
    ∀ p, s.ports id = some p → (p.pushed.filterMap Cqe.byte).Sublist taken

/-- What a step pushes on a port carries bytes that it takes from the serial ring. -/
theorem RowStep.bytes {id : ℕ} (h : RowStep id s e s') {p' : Port} (hp' : s'.ports id = some p')
    {taken : List UInt8} (htaken : s.hub.serialRx.entries = taken ++ s'.hub.serialRx.entries) :
    p'.pushed = [] ∨ ∃ p cqes, s.ports id = some p ∧ p'.pushed = p.pushed ++ cqes ∧
      (cqes.filterMap Cqe.byte).Sublist taken := by
  have hsame : s'.ports id = s.ports id → ∃ p cqes, s.ports id = some p ∧
      p'.pushed = p.pushed ++ cqes ∧ (cqes.filterMap Cqe.byte).Sublist taken := fun hport =>
    ⟨p', [], hport ▸ hp', (List.append_nil _).symm, List.nil_sublist _⟩
  cases h with
  | same hport _ => exact .inr (hsame hport)
  | opened c owner kind _ _ hport _ =>
    rw [hport] at hp'
    cases hp'
    exact .inl rfl
  | submitted c sqe p q _ hp hq hhandled _ _ _ =>
    rw [hq] at hp'
    cases hp'
    obtain ⟨cqes, bytes, hpushed, -, hrx, hsub⟩ := handled_pushed hhandled
    rw [List.append_cancel_right (htaken.symm.trans hrx)]
    exact .inr ⟨p, cqes, hp, hpushed, hsub⟩
  | pumped c p ds _ hp hvisited _ _ _ _ =>
    obtain ⟨k, p₁, rx₁, rx₂, -, ⟨front, hfront⟩, ⟨back, hback⟩, hserved, hport, -⟩ := hvisited
    rw [hport] at hp'
    cases hp'
    obtain ⟨cqes, bytes, hpushed, -, hrx, hsub⟩ := served_pushed hserved
    -- other ports take bytes before and after this one
    have hsplit : taken ++ s'.hub.serialRx.entries =
        front ++ bytes ++ back ++ s'.hub.serialRx.entries := by
      rw [← htaken, ← hfront, hrx, ← hback]
      simp
    rw [List.append_cancel_right hsplit]
    refine .inr ⟨p, cqes, hp, hpushed, hsub.trans ?_⟩
    exact (List.sublist_append_right _ _).trans (List.sublist_append_left _ _)
  | delivered c d ds _ _ _ hport _ _ => exact .inr (hsame hport)
  | closed p _ _ hnone _ =>
    rw [hnone] at hp'
    cases hp'

/-- Every step keeps bytes in order. -/
theorem BytesInOrder.step (hwf : s.Wf) {id : ℕ} (h : s.BytesInOrder id)
    (hstep : s.step io e = some s') : s'.BytesInOrder id := by
  obtain ⟨before, hreceived, hbytes⟩ := h
  rcases step_rx hwf hstep with ⟨b, hports, hrx, hreceived'⟩ | ⟨taken, hrx, hreceived'⟩
  · refine ⟨before, ?_, fun p hp => hbytes p (hports ▸ hp)⟩
    rw [hreceived', hreceived, hrx, List.append_assoc]
  · refine ⟨before ++ taken, ?_, fun p' hp' => ?_⟩
    · rw [hreceived', hreceived, hrx, List.append_assoc]
    · rcases (step_row hwf hstep id).bytes hp' hrx with hnil | ⟨p, cqes, hp, hpushed, hsub⟩
      · rw [hnil]
        exact List.nil_sublist _
      · rw [hpushed, List.filterMap_append]
        exact (hbytes p hp).append hsub

/-- There are no bytes at boot. -/
theorem BytesInOrder.init (h : Init s) (id : ℕ) : s.BytesInOrder id := by
  obtain ⟨-, hports, -, hrx, -, -, -, hreceived⟩ := h
  refine ⟨[], by rw [hreceived, hrx]; rfl, fun p hp => ?_⟩
  rw [hports] at hp
  cases hp

end Machine

/-- Completions are delivered in order in runs whose pumps take turns on the port. The
completions of a port that have reached the owner are the first ones pushed to its
completion ring, and the bytes in them come in the order in which the interrupt handler
put them in the serial ring. -/
theorem completions_in_order {s : Machine n δ} {id : ℕ} (h : ReachesIf io (InTurn id) s)
    {p : Port} (hp : s.ports id = some p) :
    s.delivered id <+: p.pushed ∧
      ((s.delivered id).filterMap Cqe.byte).Sublist s.received := by
  have hinv : s.Wf ∧ s.Ordered id ∧ s.BytesInOrder id := by
    refine Transition.Reaches.invariant
      (P := fun s : Machine n δ => s.Wf ∧ s.Ordered id ∧ s.BytesInOrder id)
      (fun s hinit => ⟨.init hinit, .init hinit id, .init hinit id⟩) ?_ h
    rintro s s' ⟨hwf, hordered, hbytes⟩ ⟨e, hok, hstep⟩
    exact ⟨hwf.step hstep, hordered.step hwf hstep hok, hbytes.step hwf hstep⟩
  obtain ⟨-, hordered, taken, hreceived, hbytes⟩ := hinv
  refine ⟨hordered.isPrefix p hp, ?_⟩
  rw [hreceived]
  calc ((s.delivered id).filterMap Cqe.byte).Sublist (p.pushed.filterMap Cqe.byte) :=
        (hordered.isPrefix p hp).sublist.filterMap _
    List.Sublist _ taken := hbytes p hp
    List.Sublist _ (taken ++ s.hub.serialRx.entries) := List.sublist_append_left _ _

/-- Process 1 reads twice from the serial port and two bytes arrive; one core delivers the first
of them, and then the other core the second. -/
theorem read_delivered_in_order : ∃ (s : Machine 2 Unit) (p : Port),
    ReachesIf noDevices (InTurn 1) s ∧ s.ports 1 = some p ∧
    s.delivered 1 = [⟨5, 97, some 97⟩, ⟨6, 98, some 98⟩] ∧ s.delivered 1 <+: p.pushed ∧
    ((s.delivered 1).filterMap Cqe.byte).Sublist s.received := by
  have hboot : ReachesIf noDevices (InTurn 1) (bootPorts 2) := .init (init_bootPorts 2)
  have hread := hboot.events [.openTake 0 1 .serial, .openInsert 0,
    .submit 0 1 ⟨opRead, 5, 0, 0⟩] (by simp [InTurn]) rfl
  have hparked := hread.event (.collect 0) (.inl (by decide)) rfl
  have hinput := hparked.events [.finish 0, .submit 0 1 ⟨opRead, 6, 0, 0⟩, .irq 97]
    (by simp [InTurn]) rfl
  have hfirst := hinput.event (.collect 0) (.inl (by decide)) rfl
  have hagain := hfirst.events [.deliver 0, .irq 98, .pump 1] (by simp [InTurn]) rfl
  have hsecond := hagain.event (.collect 1) (.inl (by decide)) rfl
  have hdelivered := hsecond.event (.deliver 1) trivial rfl
  exact ⟨_, _, hdelivered, rfl, rfl, completions_in_order hdelivered rfl⟩

/-- Core 0 has taken out the completion with the first byte when the second one arrives;
core 1 takes out the second completion and delivers it before core 0 delivers the first. -/
theorem later_byte_overtakes : ∃ (s : Machine 2 Unit) (p : Port), Reachable noDevices s ∧
    s.ports 1 = some p ∧ s.dead p.owner = false ∧ s.received = [97, 98] ∧
    p.pushed = [⟨5, 97, some 97⟩, ⟨6, 98, some 98⟩] ∧
    s.delivered 1 = [⟨6, 98, some 98⟩, ⟨5, 97, some 97⟩] := by
  have hboot : Reachable noDevices (bootPorts 2) := .init (init_bootPorts 2)
  have hrun := hboot.events
    [.openTake 0 1 .serial, .openInsert 0,
      .submit 0 1 ⟨opRead, 5, 0, 0⟩, .collect 0, .finish 0,
      .submit 0 1 ⟨opRead, 6, 0, 0⟩, .collect 0, .finish 0,
      .irq 97, .pump 0, .collect 0,
      .irq 98, .pump 1, .collect 1, .deliver 1, .deliver 0] (fun _ _ _ => trivial) rfl
  exact ⟨_, _, hrun, rfl, rfl, rfl, rfl, rfl⟩

end Yggdrasil.Ports
