import Yggdrasil.Sched.Inv

/-!
# Deliveries and exit signals

The sections that one core runs on processes of others: delivering a message, marking
a process dead, and the exit signals of a reaped process. They keep the invariant
because they never touch the state of a process that some core has switched into.
-/

namespace Yggdrasil.Sched

variable {n : ℕ} {μ : Type}

namespace Machine

variable {s s' : Machine n μ} {c : Fin n} {pid : ℕ} {p p' : Process μ}

/-- The entry that was written is there. -/
theorem setProc_table_self (pid : ℕ) (p : Process μ) (s : Machine n μ) :
    (s.setProc pid p).table pid = some p := Function.update_self ..

/-- Writing an entry leaves the others. -/
theorem setProc_table_ne {q : ℕ} (h : q ≠ pid) (p : Process μ) (s : Machine n μ) :
    (s.setProc pid p).table q = s.table q := Function.update_of_ne h ..

/-- A process in the table is not the reserved pid. -/
theorem Inv.ne_zero (h : s.Inv) (hp : s.table pid = some p) : pid ≠ 0 := by
  rintro rfl
  rw [h.zero.1] at hp
  cases hp

/-- The invariant of a process in the table. -/
theorem Inv.entry (h : s.Inv) (hp : s.table pid = some p) : pid < s.nextPid ∧ s.births pid = 0 ∧
    s.finishing pid = 0 ∧ s.inserted.count pid = 1 ∧ s.reaped.count pid = 0 ∧
    s.finalized.count pid = 0 ∧
    p.Placed (s.tokens pid) (s.holders pid) (s.Armed pid) := by
  have hpid := h.pids pid (h.ne_zero hp)
  rw [PidOk, hp] at hpid
  exact hpid

/-- A process no core has switched into has no owner. -/
theorem owner_ne_of_holders (h : s.holders pid = 0) (d : Fin n) : (s.cpu d).loc.owner ≠ pid := by
  intro heq
  have hle := s.le_holders d pid
  rw [heq, ind_self] at hle
  omega

/-- If only core `c` may have switched into a process, no other core has. -/
theorem owner_ne_of_sole (h : s.holders pid ≤ 1) (hc : (s.cpu c).loc.owner = pid) {d : Fin n}
    (hd : d ≠ c) : (s.cpu d).loc.owner ≠ pid := by
  intro heq
  have htwo : 2 ≤ s.holders pid :=
    Tally.two_le hd (by rw [heq, ind_self]; omega) (by rw [hc, ind_self]; omega)
  omega

/-- Changing a process but not its state, context or the mailbox it waits on. -/
theorem Inv.setProc (h : s.Inv) (hp : s.table pid = some p) (hstate : p'.state = p.state)
    (hrsp : p'.rsp = p.rsp) (hkill : p.state ≠ .running → p'.killPending = p.killPending)
    (hmail : p.state = .waiting → p'.mailbox = p.mailbox) :
    (s.setProc pid p').Inv := by
  obtain ⟨hlt, hb, hf, hi, hr, hz, hplace⟩ := h.entry hp
  have hview : ∀ q, (s.setProc pid p').view q = s.view q := by
    intro q
    by_cases hq : q = pid
    · rw [view, view, hq, setProc_table_self, hp, Option.map_some, Option.map_some, hstate, hrsp]
    · rw [view, view, setProc_table_ne hq]
  refine ⟨⟨?_, h.zero.2⟩, fun q hq => ?_, fun d => (h.cores d).congr (fun _ => hview _) fun _ => id⟩
  · rw [setProc_table_ne (Ne.symm (h.ne_zero hp))]
    exact h.zero.1
  · by_cases hqp : q = pid
    · subst hqp
      rw [PidOk, setProc_table_self]
      refine ⟨hlt, hb, hf, hi, hr, hz, ?_⟩
      unfold Process.Placed at hplace ⊢
      rw [hstate, hrsp]
      cases hw : p.state with
      | waiting =>
        rw [hw] at hplace
        rw [hmail hw, hkill (by simp [hw])]
        exact hplace
      | runnable =>
        rw [hw] at hplace
        rw [hkill (by simp [hw])]
        exact hplace
      | running | dead =>
        rw [hw] at hplace
        exact hplace
    · exact (h.pids q hq).congr (setProc_table_ne hqp ..) Iff.rfl rfl rfl rfl rfl rfl rfl rfl id

/-- Changing a process no core has switched into, and queueing it on core `c`. -/
theorem Inv.setProc_enqueue (h : s.Inv) (hp : s.table pid = some p) (hheld : s.holders pid = 0)
    (hplace : p'.Placed (s.tokens pid + 1) 0 (s.Armed pid)) :
    ((s.setProc pid p').enqueue c pid).Inv := by
  obtain ⟨hlt, hb, hf, hi, hr, hz, -⟩ := h.entry hp
  have hne := h.ne_zero hp
  set k : Cpu := { s.cpu c with runq := (s.cpu c).runq ++ [pid] } with hk
  have hcpu : ((s.setProc pid p').enqueue c pid).cpu = Function.update s.cpu c k := rfl
  have harmed : ∀ q, s.Armed q → ((s.setProc pid p').enqueue c pid).Armed q := fun q hq =>
    hq.update hcpu id .inr
  obtain ⟨ht, hh, hbirths, hfin⟩ := counts_update hcpu pid
  have hcount : k.runq.count pid = (s.cpu c).runq.count pid + 1 := by
    rw [hk]
    simp
  simp only [hk] at hcount hh hbirths hfin ht
  refine h.frame pid hcpu (fun q hq => setProc_table_ne hq ..) ⟨le_rfl, fun _ _ => id⟩
    (fun _ _ => rfl) (fun _ _ => rfl) (fun _ _ => rfl) (fun q _ hq => ?_) (fun q _ _ => harmed q)
    (fun hzero => absurd hzero hne) (fun _ => ?_) (fun _ d _ hd => ?_) ?_
  · exact ⟨by simp [hk, Ne.symm hq], rfl, rfl, rfl⟩
  · have hentry : ((s.setProc pid p').enqueue c pid).table pid = some p' := setProc_table_self ..
    rw [PidOk, hentry,
      show ((s.setProc pid p').enqueue c pid).tokens pid = s.tokens pid + 1 by omega,
      show ((s.setProc pid p').enqueue c pid).holders pid = 0 by omega]
    refine ⟨hlt, by omega, by omega, hi, hr, hz, ?_⟩
    unfold Process.Placed at hplace ⊢
    cases hw : p'.state with
    | waiting =>
      rw [hw] at hplace
      exact absurd hplace.1 (by omega)
    | runnable | running | dead =>
      rw [hw] at hplace
      exact hplace
  · exact absurd hd (owner_ne_of_holders hheld d)
  · refine (h.cores c).congr (fun _ => ?_) fun _ => harmed _
    have hown : (s.cpu c).loc.owner ≠ pid := owner_ne_of_holders hheld c
    change ((s.setProc pid p').table _).map _ = _
    rw [setProc_table_ne hown]
    rfl

/-- A waiting process can be woken. -/
theorem Inv.wake (h : s.Inv) (hp : s.table pid = some p) (hwait : p.state = .waiting)
    (hstate : p'.state = .runnable) (hrsp : p'.rsp = p.rsp)
    (hkill : p'.killPending = p.killPending) :
    ((s.setProc pid p').enqueue c pid).Inv := by
  obtain ⟨-, -, -, -, -, -, hplace⟩ := h.entry hp
  rw [Process.Placed, hwait] at hplace
  obtain ⟨ht, hh, hk, -, d, hd, -⟩ := hplace
  refine h.setProc_enqueue hp hh ?_
  rw [Process.Placed, hstate]
  exact ⟨by omega, rfl, hkill.trans hk, .recv d, hrsp.trans hd, by simp⟩

/-- A process that does not run can be killed. -/
theorem Inv.doom (h : s.Inv) (hp : s.table pid = some p)
    (hstate : p.state = .runnable ∨ p.state = .waiting) (hdead : p'.state = .dead) :
    ((s.setProc pid p').enqueue c pid).Inv := by
  obtain ⟨-, -, -, -, -, -, hplace⟩ := h.entry hp
  rw [Process.Placed] at hplace
  have hheld : s.holders pid = 0 := by
    rcases hstate with hw | hw
    · rw [hw] at hplace
      exact hplace.2.1
    · rw [hw] at hplace
      exact hplace.2.1
  refine h.setProc_enqueue hp hheld ?_
  rw [Process.Placed, hdead]
  exact .inr ⟨by omega, rfl⟩

/-- Delivering a message keeps the invariant. -/
theorem Inv.deliverFragment (h : s.Inv) (c : Fin n) (dest : ℕ) (frag : Fragment μ) :
    (s.deliverFragment c dest frag).Inv := by
  unfold Machine.deliverFragment
  cases hp : s.table dest with
  | none => exact h
  | some p =>
    dsimp only
    split
    · exact h
    · split
      · exact h.wake hp ‹_› rfl rfl rfl
      · exact h.setProc hp rfl rfl (fun _ => rfl) fun hw => absurd hw ‹_›

/-- Marking a process dead keeps the invariant. -/
theorem Inv.markDead (h : s.Inv) (c : Fin n) (pid : ℕ) (reason : String) :
    (s.markDead c pid reason).Inv := by
  unfold Machine.markDead
  cases hp : s.table pid with
  | none => exact h
  | some p =>
    dsimp only
    cases hw : p.state with
    | dead => exact h
    | running =>
      dsimp only
      split
      · exact h
      · exact h.setProc hp hw.symm rfl (fun hrun => absurd hw hrun) fun hwait =>
          absurd (hw.symm.trans hwait) (by simp)
    | runnable => exact h.doom hp (.inl hw) rfl
    | waiting => exact h.doom hp (.inr hw) rfl

/-- The messages to monitors keep the invariant. -/
theorem Inv.notifyMonitors (h : s.Inv) (c : Fin n) (dead : ℕ) (reason : String)
    (ms : List (ℕ × ℕ)) : (s.notifyMonitors c dead reason ms).Inv := by
  induction ms generalizing s with
  | nil => exact h
  | cons m ms ih => exact ih (h.deliverFragment c m.2 _)

/-- The exit signals to links keep the invariant. -/
theorem Inv.signalLinks (h : s.Inv) (c : Fin n) (reason : String) (ls : List ℕ) :
    (s.signalLinks c reason ls).Inv := by
  induction ls generalizing s with
  | nil => exact h
  | cons l ls ih => exact ih (h.markDead c l reason)

/-- Reaping keeps the invariant once the process is out of the table. -/
theorem Inv.reap (h : (s.remove pid).Inv) (c : Fin n) (p : Process μ) : (s.reap c pid p).Inv := by
  have hmonitors := h.notifyMonitors c pid p.exitReason p.monitors
  unfold Machine.reap
  dsimp only
  split
  · exact hmonitors
  · exact hmonitors.signalLinks c p.exitReason p.links

end Machine

end Yggdrasil.Sched
