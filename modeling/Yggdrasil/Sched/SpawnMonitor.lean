import Yggdrasil.Sched.Monitors

/-!
# Monitors at spawn

`spawn_monitor` leaves its monitor in a slot that all cores share, and `spawn_inner` takes
it from there. As long as no other core uses the slot between the two, and no fault
happens there, every child starts with the monitor meant for it. If another core spawns
in between, the monitor goes to the wrong child.
-/

namespace Yggdrasil.Sched

variable {n : ℕ} {μ : Type}

/-- The monitor that a core has left in the slot and not taken yet. -/
def Loc.window : Loc → Option (ℕ × ℕ)
  | .exec w (.spawnInner _ ref) | .exec w (.spawnPid _ _ ref) => ref.map (·, w)
  | _ => none

/-- A core that goes on quietly stays in the window, unless it faults. -/
theorem Loc.Goes.window {l l' : Loc} (hgoes : l.Goes l') :
    l'.window = l.window ∨ ∃ w, l' = .exec w .fatalSwitch := by
  unfold Loc.Goes at hgoes
  split at hgoes
  · rcases hgoes with ⟨child, rfl⟩ | rfl
    · exact .inl rfl
    · exact .inr ⟨_, rfl⟩
  · exact .inr ⟨_, hgoes⟩
  · obtain ⟨rfl, rfl⟩ := hgoes
    exact .inl rfl
  all_goals first | exact hgoes.elim | skip
  all_goals
    left
    unfold Loc.window
    grind

/-- A core takes monitors from the slot only. -/
theorem Loc.Goes.ne_spawnInsert {l : Loc} {w child : ℕ} {link : Bool} {ref : Option ℕ}
    {ms : List (ℕ × ℕ)} : ¬l.Goes (.exec w (.spawnInsert child link ref ms)) := by
  intro hgoes
  unfold Loc.Goes at hgoes
  split at hgoes <;> grind

namespace Machine

/-- In a step, a core stores a monitor in the slot or takes what is there. -/
def UsesSlot (s s' : Machine n μ) (c : Fin n) : Prop :=
  (∃ w r, s.locs c = .exec w (.spawnMonitor r) ∧
    s'.locs c = .exec w (.spawnInner false (some r))) ∨
  ∃ w child link ref ms, s.locs c = .exec w (.spawnPid child link ref) ∧
    s'.locs c = .exec w (.spawnInsert child link ref ms)

/-- A step does not disturb `spawn_monitor`: as long as a core is between its store and its
take, no other core uses the slot, and the core does not fault. -/
structure Undisturbed (s s' : Machine n μ) : Prop where
  /-- No other core uses the slot. -/
  alone : ∀ c d, s.UsesSlot s' c → (s.locs d).window ≠ none → c = d
  /-- The core does not fault. -/
  completes : ∀ c w, (s.locs c).window ≠ none → s'.locs c ≠ .exec w .fatalSwitch

/-- The slot holds what the core in the window left, and children are about to start with
the monitor of the `spawn_monitor` call that creates them. -/
structure SlotOk (s : Machine n μ) : Prop where
  /-- A core in the window finds its monitor. -/
  slot : ∀ c m, (s.locs c).window = some m → s.monitorAtSpawn = some m
  /-- One core at most is there. -/
  unique : ∀ c d, (s.locs c).window ≠ none → (s.locs d).window ≠ none → c = d
  /-- Outside the window the slot is empty. -/
  empty : (∀ c, (s.locs c).window = none) → s.monitorAtSpawn = none
  /-- Taken monitors are the right ones. -/
  taken : ∀ c w child link ref ms, s.locs c = .exec w (.spawnInsert child link ref ms) →
    ms = (ref.map (·, w)).toList

section Step

variable {s s' : Machine n μ}

/-- Steps outside the window keep the slot in order. -/
private theorem SlotOk.keep (h : s.SlotOk) (hslot : s'.monitorAtSpawn = s.monitorAtSpawn)
    {c : Fin n} {l : Loc} (hlocs : s'.locs = Function.update s.locs c l)
    (hwindow : l.window = (s.locs c).window)
    (hl : ∀ w child link ref ms, l ≠ .exec w (.spawnInsert child link ref ms)) : s'.SlotOk := by
  have hsame : ∀ d, (s'.locs d).window = (s.locs d).window := fun d => by
    rw [hlocs, Function.update_apply]
    split
    · rename_i heq
      rw [hwindow, heq]
    · rfl
  refine ⟨fun d m hd => ?_, fun d e hd he => ?_, fun hall => ?_,
    fun d w child link ref ms hd => ?_⟩
  · rw [hslot]
    exact h.slot d m (hsame d ▸ hd)
  · exact h.unique d e (hsame d ▸ hd) (hsame e ▸ he)
  · rw [hslot]
    exact h.empty fun d => hsame d ▸ hall d
  · rw [hlocs, Function.update_apply] at hd
    split at hd
    · exact absurd hd (hl w child link ref ms)
    · exact h.taken d w child link ref ms hd

/-- A step that disturbs no `spawn_monitor` keeps the slot in order. -/
theorem SlotOk.step (hinv : s.Inv) (h : s.SlotOk) (hstep : Step s s')
    (hclean : s.Undisturbed s') : s'.SlotOk := by
  cases hstep.effect hinv with
  | quiet hslot hlocs _ =>
    have hslot' : s'.monitorAtSpawn = s.monitorAtSpawn := congrArg Prod.fst hslot
    rcases hlocs with heq | ⟨c, l, heq, hgoes⟩
    · refine ⟨fun d m hd => ?_, ?_, ?_, ?_⟩
      · rw [hslot']
        exact h.slot d m (heq ▸ hd)
      · rw [heq]
        exact h.unique
      · rw [heq, hslot']
        exact h.empty
      · rw [heq]
        exact h.taken
    · refine h.keep hslot' heq ?_ fun w child link ref ms hl => (hl ▸ hgoes).ne_spawnInsert
      rcases hgoes.window with hsame | ⟨w, rfl⟩
      · exact hsame
      · -- only a core outside the window may fault
        by_contra hne
        refine hclean.completes c w (Ne.symm hne) ?_
        rw [heq, Function.update_self]
  | alloc c w pos hloc hpos hslot hlocs _ =>
    refine h.keep (congrArg Prod.fst hslot) hlocs ?_ ?_
    · rw [hloc]
      rcases hpos with rfl | ⟨target, rfl⟩ <;> rfl
    · rcases hpos with rfl | ⟨target, rfl⟩ <;> simp
  | leave c w r hloc hslot hlocs _ =>
    have hmoved : s'.locs c = .exec w (.spawnInner false (some r)) := by
      rw [hlocs, Function.update_self]
    -- the window was free
    have hfree : ∀ d, (s.locs d).window = none := fun d => by
      by_contra hd
      have hcd := hclean.alone c d (.inl ⟨w, r, hloc, hmoved⟩) hd
      subst hcd
      rw [hloc] at hd
      exact hd rfl
    have hslot' : s'.monitorAtSpawn = some (r, w) := congrArg Prod.fst hslot
    have hwindow : ∀ d, d ≠ c → (s'.locs d).window = none := fun d hd => by
      rw [hlocs, Function.update_of_ne hd]
      exact hfree d
    have honly : ∀ d, (s'.locs d).window ≠ none → d = c := fun d hd => by
      by_contra hne
      exact hd (hwindow d hne)
    refine ⟨fun d m hd => ?_, fun d e hd he => ?_, fun hall => ?_,
      fun d v child link ref ms hd => ?_⟩
    · have hdc := honly d (by rw [hd]; simp)
      rw [hdc, hmoved] at hd
      rw [hslot', ← hd]
      rfl
    · rw [honly d hd, honly e he]
    · have hc := hall c
      rw [hmoved] at hc
      cases hc
    · rw [hlocs, Function.update_apply] at hd
      split at hd
      · cases hd
      · exact h.taken d v child link ref ms hd
  | pick c w child link ref hloc hslot hlocs _ =>
    have hmoved : s'.locs c =
        .exec w (.spawnInsert child link ref s.monitorAtSpawn.toList) := by
      rw [hlocs, Function.update_self]
    have hothers : ∀ d, d ≠ c → (s.locs d).window = none := fun d hd => by
      by_contra hne
      exact hd (hclean.alone c d (.inr ⟨w, child, link, ref, _, hloc, hmoved⟩) hne).symm
    have hwindow : (s.locs c).window = ref.map (·, w) := by
      rw [hloc]
      rfl
    have hfree : ∀ d, (s'.locs d).window = none := fun d => by
      rw [hlocs, Function.update_apply]
      split
      · rfl
      · exact hothers d ‹_›
    -- what is taken is what this core left, and nothing if it left nothing
    have htaken : s.monitorAtSpawn = ref.map (·, w) := by
      cases ref with
      | some r => exact h.slot c _ hwindow
      | none =>
        refine h.empty fun d => ?_
        by_cases hd : d = c
        · rw [hd]
          exact hwindow
        · exact hothers d hd
    refine ⟨fun d m hd => ?_, fun d e hd _ => ?_, fun _ => congrArg Prod.fst hslot,
      fun d v child' link' ref' ms hd => ?_⟩
    · rw [hfree d] at hd
      cases hd
    · exact absurd (hfree d) hd
    · rw [hlocs, Function.update_apply] at hd
      split at hd
      · cases hd
        rw [htaken]
      · exact h.taken d v child' link' ref' ms hd
  | insert c w child link ref ms hloc hslot hlocs _ _ =>
    exact h.keep (congrArg Prod.fst hslot) hlocs (by rw [hloc]; rfl) (by simp)
  | register c w target r p hloc hslot hlocs _ _ _ =>
    exact h.keep (congrArg Prod.fst hslot) hlocs (by rw [hloc]; rfl) (by simp)
  | noproc c w target r hloc hslot hlocs _ _ =>
    exact h.keep (congrArg Prod.fst hslot) hlocs (by rw [hloc]; rfl) (by simp)
  | reap c pid p hslot hloc hlocs _ _ _ =>
    refine h.keep (congrArg Prod.fst hslot) hlocs ?_ (by simp)
    rcases hloc with hloc | hloc <;> (rw [hloc]; rfl)

/-- An inserted child has the monitors that were taken for it. -/
theorem insertChild_monitors (s : Machine n μ) (c : Fin n) (parent child : ℕ) (link : Bool)
    (ref : Option ℕ) (ms : List (ℕ × ℕ)) :
    ∃ p, (s.insertChild c parent child link ref ms).table child = some p ∧ p.monitors = ms := by
  unfold insertChild
  dsimp only
  split
  · exact ⟨_, setProc_table_self .., rfl⟩
  · exact ⟨_, setProc_table_self .., rfl⟩

end Step

end Machine

/-- A step that disturbs no `spawn_monitor`. -/
def UndisturbedStep (s s' : Machine n μ) : Prop := Step s s' ∧ s.Undisturbed s'

section Runs

variable {s : Machine n μ} {h : History μ}

/-- At boot the slot is empty and no core is in the window. -/
private theorem Machine.SlotOk.init (hinit : Init s) : s.SlotOk := by
  have hloc : ∀ c, s.locs c = .exec 0 .body := fun c => by rw [Machine.locs, hinit.1 c]
  refine ⟨fun c m hc => ?_, fun c d hc => ?_, fun _ => hinit.2.2.2.2.2.1,
    fun c w child link ref ms hc => ?_⟩
  · rw [hloc] at hc
    cases hc
  · rw [hloc] at hc
    exact absurd rfl hc
  · rw [hloc] at hc
    cases hc

/-- What holds of undisturbed runs. -/
theorem Recorded.undisturbed (hrun : Recorded UndisturbedStep s h) :
    Recorded.Inv s h ∧ s.SlotOk := by
  refine Transition.Reaches.invariant
    (P := fun x : Machine n μ × History μ => Recorded.Inv x.1 x.2 ∧ x.1.SlotOk) ?_ ?_ hrun
  · rintro ⟨s, h⟩ hinit
    exact ⟨Recorded.invariant (.init hinit), .init hinit.1⟩
  · rintro _ _ hrec (@⟨s, s', h, hstep, hclean⟩)
    exact ⟨hrec.1.step hstep, hrec.2.step hrec.1.inv hstep hclean⟩

/-- A call in order stays so. -/
private theorem CallOk.run {call : MonitorCall} {x y : Machine n μ × History μ}
    (hrun : Relation.ReflTransGen (RecordedStep Step) x y) (hx : Recorded.Inv x.1 x.2)
    (hcall : CallOk x.1 x.2 call) : Recorded.Inv y.1 y.2 ∧ CallOk y.1 y.2 call := by
  induction hrun with
  | refl => exact ⟨hx, hcall⟩
  | tail _ hlast ih =>
    obtain ⟨hstep⟩ := hlast
    exact ⟨ih.1.step hstep, ih.2.step ih.1.inv ih.1.exits hstep⟩

/-- In undisturbed runs `spawn_monitor` is atomic. A child is inserted with the monitor of
the `spawn_monitor` call that creates it and no other, and with none if another spawn call
creates it. From then on, whatever happens, all messages with the reference of the call go
to the caller and are about that child, there is at most one, and as long as the caller
lives it is registered on the child or the message with the reason of the child is sent. -/
theorem spawn_monitor_atomic (hrun : Recorded UndisturbedStep s h) {c : Fin n} {w child : ℕ}
    {link : Bool} {ref : Option ℕ} {ms : List (ℕ × ℕ)}
    (hloc : s.locs c = .exec w (.spawnInsert child link ref ms)) :
    (∃ p, (s.insertChild c w child link ref ms).table child = some p ∧
      p.monitors = (ref.map (·, w)).toList) ∧
    ∀ r, ref = some r → ∀ s' h', Relation.ReflTransGen (RecordedStep Step)
      (s.insertChild c w child link ref ms, h.after s (s.insertChild c w child link ref ms))
      (s', h') →
      (∀ v f, f ∈ h'.delivered v → f.ref? = some r →
        v = w ∧ ∃ reason, f = .down r child reason) ∧
      (h'.downs ⟨r, w, child, false⟩).length ≤ 1 ∧
      ∀ x, s'.table w = some x → x.state ≠ .dead →
        (s'.Registered ⟨r, w, child, false⟩ ∧ h'.downs ⟨r, w, child, false⟩ = []) ∨
        (¬s'.Registered ⟨r, w, child, false⟩ ∧ ∃ reason,
          h'.downs ⟨r, w, child, false⟩ = [reason] ∧ h'.exits child = some reason) := by
  obtain ⟨hrec, hslot⟩ := hrun.undisturbed
  have hms := hslot.taken c w child link ref ms hloc
  obtain ⟨p, hp, hmonitors⟩ := s.insertChild_monitors c w child link ref ms
  refine ⟨⟨p, hp, hmonitors.trans hms⟩, fun r hr s' h' hafter => ?_⟩
  have hstep : Step s (s.insertChild c w child link ref ms) := .spawnInsert hloc
  have hrec' := hrec.step hstep
  have hw : (s.insertChild c w child link ref ms).Known w ∨ w = 0 := by
    by_cases hzero : w = 0
    · exact .inr hzero
    · have howner : (s.cpu c).loc.owner = w := by
        rw [show (s.cpu c).loc = _ from hloc]
        rfl
      obtain ⟨x, hx, -⟩ := hrec.inv.owned howner hzero
      have hknown : s.Known w := .inl (by rw [hx]; rfl)
      exact .inl (hknown.step hrec.inv hstep)
  have hm : (r, w) ∈ p.monitors := by
    rw [hmonitors, hms, hr]
    exact List.mem_singleton_self _
  have hcall := CallOk.of_registered hrec'.refs hw hp hm
  obtain ⟨hrec'', hcall'⟩ := CallOk.run hafter hrec' hcall
  obtain ⟨honce, howed⟩ := hcall'.fires hrec''.refs
  refine ⟨fun v f hf hfr => ?_, honce, howed⟩
  obtain ⟨hv, reason, hf', -⟩ := hcall'.box v f hf hfr
  exact ⟨hv, reason, hf'⟩

end Runs

/-- On one core, only faults disturb. -/
private theorem undisturbedStep_one {s s' : Machine 1 Unit} (hstep : Step s s')
    (hloc : (s'.cpu 0).loc.eventful = false) : UndisturbedStep s s' := by
  refine ⟨hstep, fun c d _ _ => Subsingleton.elim c d, fun c w _ hc => ?_⟩
  rw [Subsingleton.elim c 0] at hc
  rw [show (s'.cpu 0).loc = _ from hc] at hloc
  cases hloc

/-- The first process spawns a child with a monitor, on the only core. -/
theorem first_child_monitored : ∃ (s : Machine 1 Unit) (h : History Unit) (p : Process Unit),
    Recorded UndisturbedStep s h ∧ s.locs 0 = .exec 1 (.spawnInsert 2 false (some 1) [(1, 1)]) ∧
    (s.insertChild 0 1 2 false (some 1) [(1, 1)]).table 2 = some p ∧ p.monitors = [(1, 1)] := by
  have hrunning := runningMachine_of_steps (X := Transition.Reaches Init UndisturbedStep)
    (.init bootMachine_init) fun _ _ h hstep _ hloc => h.step (undisturbedStep_one hstep hloc)
  have htaken := hrunning.step (undisturbedStep_one (.callSpawnMonitor (c := 0) rfl) rfl)
    |>.step (undisturbedStep_one (.spawnMonitor (c := 0) rfl) rfl)
    |>.step (undisturbedStep_one (.spawnInner (c := 0) rfl) rfl)
    |>.step (undisturbedStep_one (.spawnPid (c := 0) rfl) rfl)
  obtain ⟨h, hrec⟩ := exists_recorded htaken
  obtain ⟨⟨p, hp, hmonitors⟩, -⟩ := spawn_monitor_atomic hrec (c := 0) rfl
  exact ⟨_, h, p, hrec, rfl, hp, hmonitors⟩

/-- Two cores at boot. -/
def bootPair : Machine 2 Unit where
  cpu _ := ⟨.exec 0 .body, [], .none⟩
  table _ := none
  wheel := []
  ticks := 0
  nextPid := 1
  nextRef := 1
  monitorAtSpawn := none
  inserted := []
  reaped := []
  finalized := []

/-- With two cores the monitor can go to the wrong child. Process 1 calls `spawn_monitor` on
core 0 and leaves its monitor in the slot; process 2 calls `spawn` on core 1 and takes it.
The child of `spawn_monitor`, pid 3 with reference 1, starts with no monitor, and the child
of the other spawn with the monitor of process 1. -/
theorem spawn_monitor_race : ∃ (s : Machine 2 Unit) (p q : Process Unit), Reachable s ∧
    s.locs 0 = .exec 1 (.spawnEnqueue 3 (some 1)) ∧ s.table 3 = some p ∧ p.monitors = [] ∧
    s.locs 1 = .exec 2 (.spawnEnqueue 4 none) ∧ s.table 4 = some q ∧ q.monitors = [(1, 1)] := by
  have hboot : Reachable bootPair :=
    .init ⟨fun _ => rfl, fun _ => rfl, rfl, rfl, rfl, rfl, rfl, rfl, rfl⟩
  have hone := ((((hboot.step (.callSpawn (c := 0) false rfl)).step (.spawnInner (c := 0) rfl)).step
    (.spawnPid (c := 0) rfl)).step (.spawnInsert (c := 0) rfl)).step (.spawnEnqueue (c := 0) rfl)
  have htwo := ((((hone.step (.callSpawn (c := 0) false rfl)).step (.spawnInner (c := 0) rfl)).step
    (.spawnPid (c := 0) rfl)).step (.spawnInsert (c := 0) rfl)).step (.spawnEnqueue (c := 0) rfl)
  -- core 0 runs process 1
  have htop := htwo.step (.enterRun (c := 0) rfl)
  have hclock := htop.step (.readClock (c := 0) rfl rfl)
  have hdue := hclock.step (.popDue (c := 0) rfl)
  have hwoken := hdue.step (.wakeDue (c := 0) rfl)
  have hpumped := hwoken.step (.pumpDone (c := 0) rfl)
  have hpopped := hpumped.step (.popFront (c := 0) rfl rfl)
  have htaken := hpopped.step (.take (c := 0) rfl)
  have hheap := htaken.step (.heapPtr (c := 0) rfl)
  have hfirst := hheap.step (.switchIn (c := 0) rfl)
  -- core 1 steals process 2
  have htop' := hfirst.step (.enterRun (c := 1) rfl)
  have hskip' := htop'.step (.skipWheel (c := 1) rfl (by decide))
  have hpumped' := hskip'.step (.pumpDone (c := 1) rfl)
  have hempty' := hpumped'.step (.popEmpty (c := 1) rfl rfl)
  have hpopped' := hempty'.step (@Step.stealBack 2 Unit _ 1 0 2 [] rfl (by decide) rfl)
  have htaken' := hpopped'.step (.take (c := 1) rfl)
  have hheap' := htaken'.step (.heapPtr (c := 1) rfl)
  have hsecond := hheap'.step (.switchIn (c := 1) rfl)
  -- process 1 leaves its monitor and process 2 takes it
  have hcalled := hsecond.step (.callSpawnMonitor (c := 0) rfl)
  have hleft := hcalled.step (.spawnMonitor (c := 0) rfl)
  have hpid := hleft.step (.spawnInner (c := 0) rfl)
  have hcalled' := hpid.step (.callSpawn (c := 1) false rfl)
  have hpid' := hcalled'.step (.spawnInner (c := 1) rfl)
  have htook' := hpid'.step (.spawnPid (c := 1) rfl)
  have hinserted' := htook'.step (.spawnInsert (c := 1) rfl)
  have htook := hinserted'.step (.spawnPid (c := 0) rfl)
  exact ⟨_, _, _, htook.step (.spawnInsert (c := 0) rfl), rfl, rfl, rfl, rfl, rfl, rfl⟩

end Yggdrasil.Sched
