import Yggdrasil.Sched.Signals

/-!
# Every step keeps the scheduler invariant

The steps of the scheduler loop and of the routines a process runs about itself. Each
concerns the core that makes it and at most one process.
-/

namespace Yggdrasil.Sched

variable {n : ℕ} {μ : Type}

namespace Machine

variable {s s' : Machine n μ} {c : Fin n} {k : Cpu} {pid : ℕ} {p p' : Process μ}

/-- A process some core has switched into runs or is dead, and has no token. -/
theorem Inv.owned (h : s.Inv) (hown : (s.cpu c).loc.owner = pid) (hne : pid ≠ 0) :
    ∃ p, s.table pid = some p ∧ (p.state = .running ∨ p.state = .dead) ∧ s.tokens pid = 0 ∧
      s.holders pid = 1 := by
  have hle := s.le_holders c pid
  rw [hown, ind_self] at hle
  have hpid := h.pids pid hne
  unfold PidOk at hpid
  cases hp : s.table pid with
  | none =>
    rw [hp] at hpid
    omega
  | some p =>
    rw [hp] at hpid
    obtain ⟨-, -, -, -, -, -, hplace⟩ := hpid
    refine ⟨p, rfl, ?_⟩
    unfold Process.Placed at hplace
    cases hstate : p.state with
    | runnable =>
      rw [hstate] at hplace
      omega
    | waiting =>
      rw [hstate] at hplace
      omega
    | running =>
      rw [hstate] at hplace
      exact ⟨.inl rfl, hplace⟩
    | dead =>
      rw [hstate] at hplace
      exact ⟨.inr rfl, by omega⟩

/-- The state of the process a core has switched into. -/
theorem stateOf_eq (hp : s.table pid = some p) : s.stateOf pid = some p.state := by
  rw [stateOf, view, hp, Option.map_some, Option.map_some]

/-- A core changes the process it has switched into and keeps it. -/
theorem Inv.keep (h : s.Inv) {l l₀ : Loc} (hloc : (s.cpu c).loc = l₀) (hne : pid ≠ 0)
    (howner₀ : l₀.owner = pid) (howner : l.owner = pid) (htoken : l.token = l₀.token)
    (hnewborn : l.newborn = l₀.newborn) (hfin : l.finishing = l₀.finishing) (hdue : l₀.due = [])
    (hstate : p'.state = .running ∨ p'.state = .dead)
    (hcore : ((s.setProc pid p').setLoc c l).CoreOk (s.cpu c).postSwitch l) :
    ((s.setProc pid p').setLoc c l).Inv := by
  have hown : (s.cpu c).loc.owner = pid := by rw [hloc, howner₀]
  obtain ⟨p, hp, -, ht, hh⟩ := h.owned hown hne
  obtain ⟨hlt, hb, hf, hi, hr, hz, -⟩ := h.entry hp
  set k : Cpu := { s.cpu c with loc := l } with hk
  have hcpu : ((s.setProc pid p').setLoc c l).cpu = Function.update s.cpu c k := rfl
  have hsame : ∀ q, (s.cpu c).Same k q := .of_loc rfl (by rw [hloc]; exact htoken)
    (by rw [hown]; exact howner) (by rw [hloc]; exact hnewborn) (by rw [hloc]; exact hfin)
  have harmed := armed_update hcpu rfl (by rw [hloc]; exact hdue)
  obtain ⟨ht', hh', hb', hf'⟩ := counts_of_same hcpu (hsame pid)
  refine h.frame pid hcpu (fun q hq => setProc_table_ne hq ..) ⟨le_rfl, fun _ _ => id⟩
    (fun _ _ => rfl) (fun _ _ => rfl) (fun _ _ => rfl) (fun q _ _ => hsame q)
    (fun q _ _ => harmed q) (fun hzero => absurd hzero hne) (fun _ => ?_) (fun _ d hd howns => ?_)
    hcore
  · have hentry : ((s.setProc pid p').setLoc c l).table pid = some p' := setProc_table_self ..
    rw [PidOk, hentry]
    refine ⟨hlt, by omega, by omega, hi, hr, hz, ?_⟩
    unfold Process.Placed
    rcases hstate with hst | hst
    · rw [hst]
      exact ⟨by omega, by omega⟩
    · rw [hst]
      exact .inl ⟨by omega, by omega⟩
  · exact absurd howns (owner_ne_of_sole hh.le hown hd)

/-- The scheduler takes a runnable process. -/
theorem Inv.takeRunnable (h : s.Inv) (hloc : (s.cpu c).loc = .popped pid)
    (hp : s.table pid = some p) (hstate : p.state = .runnable) :
    ((s.setProc pid { p with state := .running, rsp := none }).setLoc c
      (.heapPtr pid p.rsp)).Inv := by
  have hne := h.ne_zero hp
  obtain ⟨hlt, hb, hf, hi, hr, hz, hplace⟩ := h.entry hp
  rw [Process.Placed, hstate] at hplace
  obtain ⟨ht, hh, -, hres⟩ := hplace
  have hpost : (s.cpu c).postSwitch = .none := h.core hloc
  set s' := (s.setProc pid { p with state := .running, rsp := none }).setLoc c
    (.heapPtr pid p.rsp) with hs'
  set k : Cpu := { s.cpu c with loc := .heapPtr pid p.rsp } with hk
  have hcpu : s'.cpu = Function.update s.cpu c k := rfl
  have hentry : s'.table pid = some { p with state := .running, rsp := none } :=
    setProc_table_self ..
  have harmed := armed_update hcpu rfl (by rw [hloc]; rfl)
  obtain ⟨ht', hh', hb', hf'⟩ := counts_update hcpu pid
  simp only [hloc, hk, Loc.token, Loc.owner, Loc.newborn, Loc.finishing, ind_self,
    ind_of_ne (Ne.symm hne)] at ht' hh' hb' hf'
  refine h.frame pid hcpu (fun q hq => setProc_table_ne hq ..) ⟨le_rfl, fun _ _ => id⟩
    (fun _ _ => rfl) (fun _ _ => rfl) (fun _ _ => rfl) (fun q hq hqp => ?_)
    (fun q _ _ => harmed q) (fun hzero => absurd hzero hne) (fun _ => ?_) (fun _ d _ howns => ?_) ?_
  · refine ⟨?_, ?_, ?_, ?_⟩ <;>
      simp [hloc, hk, Loc.token, Loc.owner, Loc.newborn, Loc.finishing, ind_of_ne (Ne.symm hqp),
        ind_of_ne (Ne.symm hq)]
  · rw [PidOk, hentry]
    exact ⟨hlt, by omega, by omega, hi, hr, hz, by omega, by omega⟩
  · exact absurd howns (owner_ne_of_holders hh d)
  · exact ⟨hne, hpost, hres, stateOf_eq hentry⟩

/-- Only a reaped process has stale queue entries. -/
theorem Inv.skip (h : s.Inv) (hloc : (s.cpu c).loc = .popped pid) (hp : s.table pid = none) :
    (s.setLoc c .top).Inv := by
  have hpost : (s.cpu c).postSwitch = .none := h.core hloc
  set k : Cpu := { s.cpu c with loc := .top } with hk
  have hcpu : (s.setLoc c .top).cpu = Function.update s.cpu c k := rfl
  have harmed := armed_update hcpu rfl (by rw [hloc]; rfl)
  refine h.frame pid hcpu (fun _ _ => rfl) ⟨le_rfl, fun _ _ => id⟩ (fun _ _ => rfl)
    (fun _ _ => rfl) (fun _ _ => rfl) (fun q hq hqp => ?_) (fun q _ _ => harmed q)
    (fun _ => h.zero.1) (fun hne => ?_) (fun _ _ _ _ => ⟨rfl, fun _ => harmed _⟩) hpost
  · refine ⟨?_, ?_, ?_, ?_⟩ <;>
      simp [hloc, hk, Loc.token, Loc.owner, Loc.newborn, Loc.finishing, ind_of_ne (Ne.symm hqp),
        ind_of_ne (Ne.symm hq)]
  · have ht := s.le_tokens c pid
    rw [hloc, show (Loc.popped pid).token = pid from rfl, ind_self] at ht
    obtain ⟨-, hh', hb', hf'⟩ := counts_update hcpu pid
    simp only [hloc, hk, Loc.owner, Loc.newborn, Loc.finishing, ind_of_ne (Ne.symm hne)]
      at hh' hb' hf'
    have hpid := h.pids pid hne
    rw [PidOk, hp] at hpid
    obtain ⟨hh, hf, hr, hcase⟩ := hpid
    rw [PidOk, show (s.setLoc c .top).table pid = none from hp]
    change _ ∧ _ + s.finalized.count pid = s.reaped.count pid ∧
      s.reaped.count pid = s.inserted.count pid ∧ _
    refine ⟨by omega, by omega, hr, .inr ?_⟩
    rcases hcase with hcase | hcase
    · omega
    · exact ⟨by omega, hcase.2⟩

/-- A dead process leaves the table, when no core has switched into it but perhaps the
one that reaps it. -/
theorem Inv.retire (h : s.Inv) (hp : s.table pid = some p)
    (hheld : s.holders pid = ind (s.cpu c).loc.owner pid)
    (howner : (s.cpu c).loc.owner = pid ∨ (s.cpu c).loc.owner = 0)
    (htoken : (s.cpu c).loc.token = pid ∨ (s.cpu c).loc.token = 0)
    (hnewborn : (s.cpu c).loc.newborn = 0) (hfin : (s.cpu c).loc.finishing = 0)
    (hdue : (s.cpu c).loc.due = [])
    (hcpu : s'.cpu = Function.update s.cpu c k) (hloc : k.loc = .finalize pid)
    (hrunq : k.runq = (s.cpu c).runq) (hpost : k.postSwitch = .none)
    (htable : s'.table = Function.update s.table pid none) (hwheel : s'.wheel = s.wheel)
    (hnext : s'.nextPid = s.nextPid) (hinserted : s'.inserted = s.inserted)
    (hreaped : s'.reaped = s.reaped ++ [pid]) (hfinal : s'.finalized = s.finalized) : s'.Inv := by
  have hne := h.ne_zero hp
  obtain ⟨hlt, hb, hf, hi, hr, hz, -⟩ := h.entry hp
  have harmed : ∀ q, s.Armed q → s'.Armed q := fun q hq =>
    hq.update hcpu (by rw [hwheel]; exact id) fun hd => absurd hd (by simp [hdue])
  obtain ⟨-, hh', hb', hf'⟩ := counts_update hcpu pid
  rw [hloc, show (Loc.finalize pid).owner = 0 from rfl, ind_of_ne (Ne.symm hne)] at hh'
  rw [hloc, show (Loc.finalize pid).newborn = 0 from rfl, hnewborn] at hb'
  rw [hloc, show (Loc.finalize pid).finishing = pid from rfl, hfin, ind_self,
    ind_of_ne (Ne.symm hne)] at hf'
  refine h.frame pid hcpu (fun q hq => by rw [htable, Function.update_of_ne hq])
    ⟨hnext.ge, fun q _ hq => hnext ▸ hq⟩ (fun q _ => by rw [hinserted])
    (fun q hq => by rw [hreaped, List.count_append]; simp [Ne.symm hq]) (fun q _ => by rw [hfinal])
    (fun q hq hqp => ?_) (fun q _ _ => harmed q) (fun hzero => absurd hzero hne) (fun _ => ?_)
    (fun _ d hd howns => ?_) (by rw [hloc]; exact hpost)
  · have hpid : ind pid q = 0 := ind_of_ne (Ne.symm hqp)
    have hzero : ind 0 q = 0 := ind_of_ne (Ne.symm hq)
    refine ⟨?_, ?_, ?_, ?_⟩
    · rw [hrunq, hloc, show (Loc.finalize pid).token = 0 from rfl, hzero]
      rcases htoken with heq | heq
      · rw [heq, hpid]
      · rw [heq, hzero]
    · rw [hloc, show (Loc.finalize pid).owner = 0 from rfl, hzero]
      rcases howner with heq | heq
      · rw [heq, hpid]
      · rw [heq, hzero]
    · rw [hloc, hnewborn, show (Loc.finalize pid).newborn = 0 from rfl]
    · rw [hloc, hfin, show (Loc.finalize pid).finishing = pid from rfl, hpid, hzero]
  · rw [PidOk, htable, Function.update_self, hreaped, hinserted, hfinal, hnext,
      List.count_append, List.count_singleton_self]
    exact ⟨by omega, by omega, by omega, .inr ⟨by omega, hi, hlt⟩⟩
  · by_cases hc : (s.cpu c).loc.owner = pid
    · exact absurd howns (owner_ne_of_sole (by rw [hheld, hc, ind_self]) hc hd)
    · rw [ind_of_ne hc] at hheld
      exact absurd howns (owner_ne_of_holders hheld d)

/-- The scheduler looks a popped pid up. -/
theorem Inv.take (h : s.Inv) (hloc : (s.cpu c).loc = .popped pid) : (s.take c pid).Inv := by
  have ht := s.le_tokens c pid
  rw [hloc, show (Loc.popped pid).token = pid from rfl, ind_self] at ht
  unfold Machine.take
  cases hp : s.table pid with
  | none => exact h.skip hloc hp
  | some p =>
    dsimp only
    obtain ⟨-, -, -, -, -, -, hplace⟩ := h.entry hp
    unfold Process.Placed at hplace
    cases hstate : p.state with
    | runnable => exact h.takeRunnable hloc hp hstate
    | running =>
      rw [hstate] at hplace
      omega
    | waiting =>
      rw [hstate] at hplace
      omega
    | dead =>
      rw [hstate] at hplace
      have hpost : (s.cpu c).postSwitch = .none := h.core hloc
      have hne := h.ne_zero hp
      have hretired : ((s.setLoc c (.finalize pid)).remove pid).Inv := by
        refine h.retire hp ?_ (.inr ?_) (.inl ?_) ?_ ?_ ?_ rfl rfl rfl hpost rfl rfl rfl rfl rfl rfl
        · simp only [hloc, Loc.owner, ind_of_ne (Ne.symm hne)]
          omega
        all_goals
          rw [hloc]
          rfl
      exact hretired.reap c p

/-- The scheduler lets go of a process that did not die: `m` entries are queued. -/
theorem Inv.release (h : s.Inv) (hloc : (s.cpu c).loc = .switched pid) (hne : pid ≠ 0)
    (hcpu : s'.cpu = Function.update s.cpu c k) (hkloc : k.loc = .top)
    (hpost : k.postSwitch = .none) {m : ℕ}
    (hcount : k.runq.count pid = (s.cpu c).runq.count pid + m)
    (hcounts : ∀ q, q ≠ pid → k.runq.count q = (s.cpu c).runq.count q)
    (htable : s'.table = Function.update s.table pid (some p')) (hwheel : s'.wheel = s.wheel)
    (hnext : s'.nextPid = s.nextPid) (hinserted : s'.inserted = s.inserted)
    (hreaped : s'.reaped = s.reaped) (hfinal : s'.finalized = s.finalized)
    (hplace : p'.Placed m 0 (s.Armed pid)) : s'.Inv := by
  have hown : (s.cpu c).loc.owner = pid := by rw [hloc]; rfl
  obtain ⟨p, hp, -, ht, hh⟩ := h.owned hown hne
  obtain ⟨hlt, hb, hf, hi, hr, hz, -⟩ := h.entry hp
  have harmed : ∀ q, s.Armed q → s'.Armed q := fun q hq =>
    hq.update hcpu (by rw [hwheel]; exact id) fun hd => absurd hd (by simp [hloc, Loc.due])
  obtain ⟨ht', hh', hb', hf'⟩ := counts_update hcpu pid
  simp only [hloc, hkloc, hcount, Loc.token, Loc.owner, Loc.newborn, Loc.finishing, ind_self,
    ind_of_ne (Ne.symm hne)] at ht' hh' hb' hf'
  refine h.frame pid hcpu (fun q hq => by rw [htable, Function.update_of_ne hq])
    ⟨hnext.ge, fun q _ hq => hnext ▸ hq⟩ (fun q _ => by rw [hinserted])
    (fun q _ => by rw [hreaped]) (fun q _ => by rw [hfinal]) (fun q hq hqp => ?_)
    (fun q _ _ => harmed q) (fun hzero => absurd hzero hne) (fun _ => ?_)
    (fun _ d hd howns => ?_) (by rw [hkloc]; exact hpost)
  · refine ⟨?_, ?_, ?_, ?_⟩ <;>
      simp [hloc, hkloc, hcounts q hqp, Loc.token, Loc.owner, Loc.newborn, Loc.finishing,
        ind_of_ne (Ne.symm hqp), ind_of_ne (Ne.symm hq)]
  · rw [PidOk, htable, Function.update_self, hreaped, hinserted, hfinal, hnext]
    refine ⟨hlt, by omega, by omega, hi, hr, hz, ?_⟩
    rw [show s'.tokens pid = m by omega, show s'.holders pid = 0 by omega]
    unfold Process.Placed at hplace ⊢
    cases hstate : p'.state with
    | waiting =>
      rw [hstate] at hplace
      obtain ⟨hm, hz', hkill, hmail, d, hrsp, harm⟩ := hplace
      exact ⟨hm, hz', hkill, hmail, d, hrsp, fun hd => harmed pid (harm hd)⟩
    | runnable | running | dead =>
      rw [hstate] at hplace
      exact hplace
  · exact absurd howns (owner_ne_of_sole hh.le hown hd)

/-- The state of the scheduler while it makes the deferred transition. -/
private abbrev loosed (s : Machine n μ) (c : Fin n) : Machine n μ :=
  s.setCpu c { s.cpu c with loc := .top, postSwitch := .none }

private theorem Inv.reapDead (h : s.Inv) (hloc : (s.cpu c).loc = .switched pid) (hne : pid ≠ 0)
    (hdead : p'.state = .dead) : (((s.loosed c).setProc pid p').reapDead c pid).Inv := by
  have hown : (s.cpu c).loc.owner = pid := by rw [hloc]; rfl
  obtain ⟨p, hp, -, -, hh⟩ := h.owned hown hne
  rw [Machine.reapDead, setProc_table_self]
  dsimp only
  rw [if_pos hdead]
  refine Inv.reap ?_ c p'
  refine h.retire hp (by rw [hown, ind_self, hh]) (.inl hown) (.inr ?_) ?_ ?_ ?_
    (k := { s.cpu c with loc := .finalize pid, postSwitch := .none }) ?_ rfl rfl rfl ?_ rfl rfl
    rfl rfl rfl
  · rw [hloc]; rfl
  · rw [hloc]; rfl
  · rw [hloc]; rfl
  · rw [hloc]; rfl
  · simp [remove, setLoc, setCpu, Machine.setProc, loosed]
  · simp [remove, setLoc, setCpu, Machine.setProc, loosed]

private theorem reapDead_of_alive {p : Process μ} (hp : s.table pid = some p)
    (hstate : p.state ≠ .dead) : s.reapDead c pid = s := by
  rw [Machine.reapDead, hp]
  exact if_neg hstate

private theorem loosed_eq_setProc (hp : s.table pid = some p) :
    s.loosed c = (s.loosed c).setProc pid p := by
  have htable : Function.update s.table pid (some p) = s.table := by
    rw [← hp, Function.update_eq_self]
  simp [loosed, Machine.setProc, setCpu, htable]

/-- A pending kill does not revive a dead process. -/
theorem honourKill_dead (hdead : p.state = .dead) : p.honourKill.state = .dead := by
  rw [Process.honourKill]
  split
  · rfl
  · exact hdead

private theorem honourKill_running (hrun : p.state = .running) :
    p.honourKill.state = .running ∨ p.honourKill.state = .dead := by
  rw [Process.honourKill]
  split
  · exact .inr rfl
  · exact .inl hrun

private theorem killPending_of_honourKill (hkill : p.honourKill.state = .running) :
    p.honourKill.killPending = false := by
  rw [Process.honourKill] at hkill ⊢
  split at hkill
  · cases hkill
  · rw [if_neg ‹_›]
    simpa using ‹¬p.killPending = true›

private theorem Inv.requeued (h : s.Inv) (hloc : (s.cpu c).loc = .switched pid) (hne : pid ≠ 0)
    (hkill : p.honourKill.state = .running) (hrsp : Resumable p.rsp) :
    ((((s.loosed c).setProc pid { p.honourKill with state := .runnable }).enqueue c pid).reapDead
      c pid).Inv := by
  set p' : Process μ := { p.honourKill with state := .runnable } with hp'
  have hentry : (((s.loosed c).setProc pid p').enqueue c pid).table pid = some p' :=
    setProc_table_self ..
  rw [reapDead_of_alive hentry (by simp [hp'])]
  refine h.release hloc hne (m := 1)
    (k := { s.cpu c with loc := .top, postSwitch := .none, runq := (s.cpu c).runq ++ [pid] })
    ?_ rfl rfl (by simp) (fun q hq => by simp [Ne.symm hq]) rfl rfl rfl rfl rfl rfl ?_
  · simp [enqueue, setCpu, Machine.setProc, loosed]
  · exact ⟨rfl, rfl, killPending_of_honourKill hkill, p.honourKill_rsp ▸ hrsp⟩

/-- The deferred transition keeps the invariant, whatever happened to the process
while it switched. -/
theorem Inv.afterSwitch (h : s.Inv) (hloc : (s.cpu c).loc = .switched pid) :
    (s.afterSwitch c pid).Inv := by
  have hcore := h.core hloc
  obtain ⟨hne, hcase⟩ := hcore
  have hown : (s.cpu c).loc.owner = pid := by rw [hloc]; rfl
  obtain ⟨p, hp, -, -, -⟩ := h.owned hown hne
  have htable : (s.loosed c).table pid = some p := hp
  unfold Machine.afterSwitch
  rcases hcase with ⟨hdead, hpost⟩ | ⟨hview, hpost⟩ | ⟨d, hview, hpost, harm⟩
  · have hstate : p.state = .dead := by simpa [stateOf_eq hp] using hdead
    have hkill := honourKill_dead hstate
    rcases hpost with hpost | hpost | hpost
    · rw [hpost]
      change ((s.loosed c).reapDead c pid).Inv
      rw [loosed_eq_setProc hp]
      exact h.reapDead hloc hne hstate
    · rw [hpost]
      change (((s.loosed c).requeue c pid).reapDead c pid).Inv
      rw [requeue, htable]
      dsimp only
      rw [if_neg (by simp [hkill])]
      exact h.reapDead hloc hne hkill
    · rw [hpost]
      change (((s.loosed c).block c pid).reapDead c pid).Inv
      rw [block, htable]
      dsimp only
      rw [if_neg (by simp [hkill])]
      exact h.reapDead hloc hne hkill
  · rw [view, hp, Option.map_some, Option.some.injEq, Prod.mk.injEq] at hview
    rw [hpost]
    change (((s.loosed c).requeue c pid).reapDead c pid).Inv
    rw [requeue, htable]
    dsimp only
    rcases honourKill_running hview.1 with hkill | hkill
    · rw [if_pos hkill]
      exact h.requeued hloc hne hkill ⟨.body, hview.2, by simp⟩
    · rw [if_neg (by simp [hkill])]
      exact h.reapDead hloc hne hkill
  · rw [view, hp, Option.map_some, Option.some.injEq, Prod.mk.injEq] at hview
    rw [hpost]
    change (((s.loosed c).block c pid).reapDead c pid).Inv
    rw [block, htable]
    dsimp only
    rcases honourKill_running hview.1 with hkill | hkill
    · rw [if_pos hkill]
      split
      · rename_i hempty
        set p' : Process μ := { p.honourKill with state := .waiting } with hp'
        have hentry : ((s.loosed c).setProc pid p').table pid = some p' := setProc_table_self ..
        rw [reapDead_of_alive hentry (by simp [hp'])]
        refine h.release hloc hne (m := 0) rfl rfl rfl rfl (fun _ _ => rfl) rfl rfl rfl rfl rfl
          rfl ?_
        have hmail : p.honourKill.mailbox = p.mailbox := by
          rw [Process.honourKill]
          split <;> rfl
        exact ⟨rfl, rfl, killPending_of_honourKill hkill,
          hmail.trans (List.isEmpty_iff.mp hempty), d, p.honourKill_rsp.trans hview.2, harm⟩
      · exact h.requeued hloc hne hkill ⟨.recv d, hview.2, by simp⟩
    · rw [if_neg (by simp [hkill])]
      exact h.reapDead hloc hne hkill

end Machine

end Yggdrasil.Sched
