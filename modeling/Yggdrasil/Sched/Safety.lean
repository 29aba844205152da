import Yggdrasil.Sched.Routines

/-!
# Wakeups are not lost and processes are reaped safely

The invariant holds in every reachable state, whatever the interleaving of the cores.
So a waiting process has nothing to receive and cannot miss its deadline, a process
that may run or be reaped is queued or in some core's hands, and a process is run by
one core at a time and reaped once, after that core has left its stack.
-/

namespace Yggdrasil.Sched

variable {n : ℕ} {μ : Type}

namespace Machine

variable {s s' : Machine n μ} {c : Fin n} {pid : ℕ} {p : Process μ}

/-- A core has taken the process and not switched back to its scheduler. -/
def Executes (s : Machine n μ) (c : Fin n) (pid : ℕ) : Prop :=
  pid ≠ 0 ∧ (s.cpu c).loc.owner = pid ∧ (s.cpu c).loc ≠ .switched pid

/-- A core runs on the stack of the process. -/
def OnStack (s : Machine n μ) (c : Fin n) (pid : ℕ) : Prop :=
  pid ≠ 0 ∧ ∃ pos, (s.cpu c).loc = .exec pid pos

private theorem PosOk.post_of {post : PostSwitch} {pos : Pos} (h : s.PosOk pid post pos) :
    post.Of pid := by
  cases pos with
  | yieldSwitch => exact .inr (.inl h.2.1)
  | recvSwitch d => exact .inr (.inr h.2.1)
  | fatalSwitch => exact h.2.1
  | recvStore | exitSwitch | yieldStore | recv | recvWheel | exit => exact .inl h.2.1
  | body | monitor | spawnMonitor | spawnInner | spawnPid | spawnInsert | spawnEnqueue =>
    exact .inl h.1

private theorem die_setLoc (l : Loc) (reason : String) (pos : Pos) :
    (s.setLoc c l).die c pid reason pos = s.die c pid reason pos := by
  unfold die
  rw [show (s.setLoc c l).table pid = s.table pid from rfl]
  cases s.table pid <;> simp [setLoc, setCpu, setProc]

/-- A process marks itself dead. -/
private theorem Inv.die (h : s.Inv) {pos pos' : Pos} {reason : String}
    (hloc : (s.cpu c).loc = .exec pid pos) (hne : pid ≠ 0)
    (htoken : (Loc.exec pid pos').token = (Loc.exec pid pos).token)
    (hnewborn : (Loc.exec pid pos').newborn = (Loc.exec pid pos).newborn)
    (hpos' : ∀ s' : Machine n μ, s'.stateOf pid = some .dead →
      s'.PosOk pid (s.cpu c).postSwitch pos') : (s.die c pid reason pos').Inv := by
  obtain ⟨p, hp, -⟩ := h.owned (by rw [hloc]; rfl) hne
  rw [Machine.die, hp]
  refine h.keep hloc hne rfl rfl htoken hnewborn rfl rfl (.inr rfl) (hpos' _ ?_)
  exact stateOf_eq (setProc_table_self ..)

/-- A context switch to the scheduler completes. -/
private theorem Inv.saveContext (h : s.Inv) {pos : Pos} {ctx : Ctx}
    (hloc : (s.cpu c).loc = .exec pid pos) (hne : pid ≠ 0)
    (htoken : (Loc.exec pid pos).token = 0) (hnewborn : (Loc.exec pid pos).newborn = 0)
    (hcore : ∀ (s' : Machine n μ) (state : State), s.stateOf pid = some state →
      s'.view pid = some (state, some ctx) → (s.Armed pid → s'.Armed pid) →
      s'.SwitchedOk pid (s.cpu c).postSwitch) :
    (s.saveContext c pid ctx).Inv := by
  obtain ⟨p, hp, hstate, -⟩ := h.owned (by rw [hloc]; rfl) hne
  rw [Machine.saveContext, hp]
  have hentry : ((s.setProc pid { p with rsp := some ctx }).setLoc c (.switched pid)).table pid =
      some { p with rsp := some ctx } := setProc_table_self ..
  refine h.keep hloc hne rfl rfl htoken.symm hnewborn.symm rfl rfl hstate
    (hcore _ p.state (stateOf_eq hp) ?_ fun harm => harm.update rfl id fun hd => ?_)
  · rw [view, hentry, Option.map_some]
  · exact absurd hd (by simp [hloc, Loc.due])

/-- A pass of `recv_where` over the mailbox. -/
private theorem Inv.recvPass (h : s.Inv) {deadline : Option ℕ} (scan : Scan)
    (hloc : (s.cpu c).loc = .exec pid (.recv deadline)) :
    (s.recvPass c pid deadline scan).Inv := by
  have hcore := h.core hloc
  obtain ⟨hne, hpost, hrun⟩ := hcore
  obtain ⟨p, hp, -⟩ := h.owned (by rw [hloc]; rfl) hne
  have hstate : p.state = .running := by simpa [stateOf_eq hp] using hrun
  unfold Machine.recvPass
  rw [hp]
  dsimp only
  split
  · rename_i hdead
    have hentry : ((s.setProc pid p.honourKill).setLoc c (.exec pid .exitSwitch)).table pid =
        some p.honourKill := setProc_table_self ..
    refine h.keep hloc hne rfl rfl rfl rfl rfl rfl (.inr hdead) ⟨hne, hpost, ?_⟩
    rw [stateOf_eq hentry, hdead]
  · cases scan with
    | hit i =>
      have htaken : (s.setProc pid { p with mailbox := p.mailbox.eraseIdx i }).Inv :=
        h.setProc hp rfl rfl (fun _ => rfl) fun hwait => absurd (hstate.symm.trans hwait) (by simp)
      refine htaken.move hloc rfl rfl rfl rfl rfl ⟨hpost, fun _ => ?_⟩
      rw [stateOf_eq (setProc_table_self ..)]
      exact congrArg some hstate
    | quota => exact h.move hloc rfl rfl rfl rfl rfl ⟨hne, hpost, hrun⟩
    | miss =>
      cases deadline with
      | none => exact h.move hloc rfl rfl rfl rfl rfl ⟨hne, hpost, hrun, by simp⟩
      | some d =>
        dsimp only
        split
        · exact h.move hloc rfl rfl rfl rfl rfl ⟨hpost, fun _ => hrun⟩
        · exact h.move hloc rfl rfl rfl rfl rfl ⟨hne, hpost, hrun⟩

private theorem Inv.registerMonitor (h : s.Inv) (c : Fin n) (me target : ℕ) (ref : ℕ) :
    (s.registerMonitor c me target ref).Inv := by
  unfold Machine.registerMonitor
  cases hp : s.table target with
  | none => exact h.deliverFragment c me _
  | some p =>
    dsimp only
    split
    · exact h.deliverFragment c me _
    · exact h.setProc hp rfl rfl (fun _ => rfl) fun _ => rfl

/-- A guard page is hit. -/
private theorem Inv.fatal (h : s.Inv) {pos : Pos} {reason : String}
    (hloc : (s.cpu c).loc = .exec pid pos) (hne : pid ≠ 0)
    (hpos : ∀ child ref, pos ≠ .spawnEnqueue child ref) :
    (s.die c pid reason .fatalSwitch).Inv := by
  have hcore := h.core hloc
  have hpost : (s.cpu c).postSwitch.Of pid := PosOk.post_of hcore
  have hfatal : ∀ s' : Machine n μ, s'.stateOf pid = some .dead →
      s'.PosOk pid (s.cpu c).postSwitch .fatalSwitch := fun s' hdead => ⟨hne, hpost, hdead⟩
  -- a child whose pid is taken but which is not inserted is abandoned first
  have habandon : ∀ child, (Loc.exec pid pos).newborn = child → child ≠ 0 →
      (Loc.exec pid pos).token = 0 → s.CoreOk (s.cpu c).postSwitch (.exec pid .body) →
      (s.die c pid reason .fatalSwitch).Inv := by
    intro child hnewborn hchild htoken hbody
    rw [← die_setLoc (.exec pid .body)]
    refine (h.abandon hloc hnewborn hchild htoken hbody).die (setLoc_loc ..) hne rfl rfl ?_
    intro s' hdead
    rw [show ((s.setLoc c (.exec pid .body)).cpu c).postSwitch = (s.cpu c).postSwitch by
      simp [setLoc, setCpu]]
    exact hfatal s' hdead
  cases pos with
  | spawnEnqueue child ref => exact absurd rfl (hpos child ref)
  | spawnPid child link ref => exact habandon child rfl hcore.2.2 rfl ⟨hcore.1, hcore.2.1⟩
  | spawnInsert child link ref monitors =>
    exact habandon child rfl hcore.2.2 rfl ⟨hcore.1, hcore.2.1⟩
  | body | monitor | spawnMonitor | spawnInner | yieldStore | yieldSwitch | recv | recvWheel
  | recvStore | recvSwitch | exit | exitSwitch | fatalSwitch =>
    exact h.die hloc hne rfl rfl hfatal

/-- Every step keeps the invariant. -/
theorem Inv.step (h : s.Inv) (hstep : Step s s') : s'.Inv := by
  cases hstep with
  | tick k => exact ⟨h.zero, h.pids, h.cores⟩
  | @enterRun c hloc =>
    have hcore := h.core hloc
    exact h.move hloc rfl rfl rfl rfl rfl hcore.1
  | readClock hloc _ => exact h.move hloc rfl rfl rfl rfl rfl (h.core hloc :)
  | skipWheel hloc _ => exact h.move hloc rfl rfl rfl rfl rfl (h.core hloc :)
  | popDue hloc => exact h.popDue hloc
  | wakeDue hloc => exact h.wakeDue hloc
  | pumpDeliver hloc => exact h.deliverFragment _ _ _
  | pumpDone hloc => exact h.move hloc rfl rfl rfl rfl rfl (h.core hloc :)
  | popFront hloc hrunq => exact h.popFront hloc hrunq
  | popEmpty hloc _ => exact h.move hloc rfl rfl rfl rfl rfl (h.core hloc :)
  | stealBack hloc hdc hrunq => exact h.stealBack hloc hdc hrunq
  | stealNext hloc _ => exact h.move hloc rfl rfl rfl rfl rfl (h.core hloc :)
  | stealDone hloc _ => exact h.move hloc rfl rfl rfl rfl rfl (h.core hloc :)
  | take hloc => exact h.take hloc
  | @heapPtr c pid rsp hloc =>
    have hcore := h.core hloc
    obtain ⟨p, hp, -⟩ := h.owned (by rw [hloc]; rfl) hcore.1
    rw [hp]
    exact h.move hloc rfl rfl rfl rfl rfl hcore
  | @switchIn c pid rsp hloc =>
    have hcore := h.core hloc
    obtain ⟨hne, hpost, ⟨ctx, rfl, hctx⟩, hrun⟩ := hcore
    cases ctx with
    | body => exact h.move hloc rfl rfl rfl rfl rfl ⟨hpost, fun _ => hrun⟩
    | recv d => exact h.move hloc rfl rfl rfl rfl rfl ⟨hne, hpost, hrun⟩
    | unreachable => exact absurd rfl hctx
  | afterSwitch hloc => exact h.afterSwitch hloc
  | finalize hloc => exact h.finalize hloc
  | send hloc => exact h.deliverFragment _ _ _
  | kill hloc => exact h.markDead _ _ _
  | @callMonitor c _ _ hloc =>
    have hcore := h.core hloc
    have hnext : { s with nextRef := s.nextRef + 1 }.Inv := ⟨h.zero, h.pids, h.cores⟩
    exact hnext.move hloc rfl rfl rfl rfl rfl hcore
  | @monitor c pid target ref hloc =>
    have hcore := h.core hloc
    have hmoved : (s.setLoc c (.exec pid .body)).Inv := h.move hloc rfl rfl rfl rfl rfl hcore
    exact hmoved.registerMonitor c pid target ref
  | callSpawn link hloc => exact h.move hloc rfl rfl rfl rfl rfl (h.core hloc :)
  | @callSpawnMonitor c _ hloc =>
    have hcore := h.core hloc
    have hnext : { s with nextRef := s.nextRef + 1 }.Inv := ⟨h.zero, h.pids, h.cores⟩
    exact hnext.move hloc rfl rfl rfl rfl rfl hcore
  | @spawnMonitor c pid ref hloc =>
    have hcore := h.core hloc
    have hleft : { s with monitorAtSpawn := some (ref, pid) }.Inv := ⟨h.zero, h.pids, h.cores⟩
    exact hleft.move hloc rfl rfl rfl rfl rfl hcore
  | spawnInner hloc => exact h.spawnInner hloc
  | @spawnPid c _ _ _ _ hloc =>
    have hcore := h.core hloc
    have htaken : { s with monitorAtSpawn := none }.Inv := ⟨h.zero, h.pids, h.cores⟩
    exact htaken.move hloc rfl rfl rfl rfl rfl hcore
  | spawnInsert hloc => exact h.insertChild hloc
  | spawnEnqueue hloc => exact h.spawnEnqueue hloc
  | @callYield c pid hloc hne =>
    have hcore := h.core hloc
    obtain ⟨p, hp, -⟩ := h.owned (by rw [hloc]; rfl) hne
    rw [hp]
    exact h.move hloc rfl rfl rfl rfl rfl ⟨hne, hcore.1, hcore.2 hne⟩
  | @yieldStore c pid hloc =>
    have hcore := h.core hloc
    refine h.quiet rfl ?_ ?_ ?_ ?_ ?_ ⟨hcore.1, rfl, hcore.2.2⟩
    all_goals
      rw [hloc]
      first | rfl | exact fun q hq => hq
  | @yieldSwitch c pid hloc =>
    have hcore := h.core hloc
    obtain ⟨hne, hpost, hrun⟩ := hcore
    refine h.saveContext hloc hne rfl rfl fun s' state hstate hview _ => ⟨hne, .inr (.inl ?_)⟩
    rw [hrun, Option.some.injEq] at hstate
    exact ⟨hstate ▸ hview, hpost⟩
  | @callRecv c pid timeout hloc hne =>
    have hcore := h.core hloc
    exact h.move hloc rfl rfl rfl rfl rfl ⟨hne, hcore.1, hcore.2 hne⟩
  | recvPass scan hloc _ _ => exact h.recvPass scan hloc
  | @recvWheel c pid deadline hloc =>
    have hcore := h.core hloc
    have hpushed := h.setWheel fun q hq => hq.push deadline pid
    exact hpushed.move hloc rfl rfl rfl rfl rfl
      ⟨hcore.1, hcore.2.1, hcore.2.2, fun _ => .inl (Wheel.has_push ..)⟩
  | @recvStore c pid deadline hloc =>
    have hcore := h.core hloc
    refine h.quiet rfl ?_ ?_ ?_ ?_ ?_ ⟨hcore.1, rfl, hcore.2.2⟩
    all_goals
      rw [hloc]
      first | rfl | exact fun q hq => hq
  | @recvSwitch c pid deadline hloc =>
    have hcore := h.core hloc
    obtain ⟨hne, hpost, hrun, harm⟩ := hcore
    refine h.saveContext hloc hne rfl rfl fun s' state hstate hview harmed =>
      ⟨hne, .inr (.inr ⟨deadline, ?_, hpost, fun hd => harmed (harm hd)⟩)⟩
    rw [hrun, Option.some.injEq] at hstate
    exact hstate ▸ hview
  | @callExit c pid reason hloc hne =>
    have hcore := h.core hloc
    exact h.move hloc rfl rfl rfl rfl rfl ⟨hne, hcore.1, hcore.2 hne⟩
  | @exit c pid reason hloc =>
    have hcore := h.core hloc
    exact h.die hloc hcore.1 rfl rfl fun s' hdead => ⟨hcore.1, hcore.2.1, hdead⟩
  | @exitSwitch c pid hloc =>
    have hcore := h.core hloc
    obtain ⟨hne, hpost, hdead⟩ := hcore
    refine h.saveContext hloc hne rfl rfl fun s' state hstate hview _ =>
      ⟨hne, .inl ⟨?_, .inl hpost⟩⟩
    rw [stateOf, hview, Option.map_some, ← hstate, hdead]
  | fatal hloc hne hpos => exact h.fatal hloc hne hpos
  | @fatalSwitch c pid hloc =>
    have hcore := h.core hloc
    exact h.move hloc rfl rfl rfl rfl rfl ⟨hcore.1, .inl ⟨hcore.2.2, hcore.2.1⟩⟩

/-- The invariant holds at boot. -/
theorem Inv.init (h : Init s) : s.Inv := by
  obtain ⟨hcpu, htable, -, hnext, -, -, hinserted, hreaped, hfinal⟩ := h
  have hzero : ∀ f : Cpu → ℕ, f ⟨.exec 0 .body, [], .none⟩ = 0 → Tally.tally f s.cpu = 0 :=
    fun f hf => Tally.eq_zero fun c => by rw [hcpu, hf]
  refine ⟨⟨htable 0, by omega⟩, fun pid hne => ?_, fun c => ?_⟩
  · have ht : s.tokens pid = 0 := hzero _ (by simp [Loc.token, ind_of_ne (Ne.symm hne)])
    have hh : s.holders pid = 0 := hzero _ (ind_of_ne (Ne.symm hne))
    have hb : s.births pid = 0 := hzero _ (ind_of_ne (Ne.symm hne))
    have hf : s.finishing pid = 0 := hzero _ (ind_of_ne (Ne.symm hne))
    rw [PidOk, htable, hinserted, hreaped, hfinal]
    exact ⟨hh, by simp [hf], rfl, .inl ⟨ht, rfl, by omega, fun _ => hb⟩⟩
  · rw [hcpu c]
    exact ⟨rfl, fun h => absurd rfl h⟩

end Machine

open Machine

/-- The invariant holds in every reachable state. -/
theorem Reachable.inv {s : Machine n μ} (h : Reachable s) : s.Inv :=
  Transition.Reaches.invariant (P := Inv) (fun _ hs => .init hs)
    (fun _ _ hs hstep => hs.step hstep) h

namespace Machine

variable {s s' : Machine n μ} {c : Fin n} {pid : ℕ}

section Observe

variable {β : Type} (obs : Machine n μ → β)
  (hproc : ∀ (s : Machine n μ) pid p, obs (s.setProc pid p) = obs s)
  (henqueue : ∀ (s : Machine n μ) c pid, obs (s.enqueue c pid) = obs s)

include hproc henqueue

/-- A delivery changes nothing but the receiver and a run queue. -/
theorem deliverFragment_observe (c : Fin n) (dest : ℕ) (frag : Fragment μ) (s : Machine n μ) :
    obs (s.deliverFragment c dest frag) = obs s := by
  unfold deliverFragment
  split
  · rfl
  · dsimp only
    split
    · rfl
    · split
      · rw [henqueue, hproc]
      · rw [hproc]

/-- A killing changes nothing but the process and a run queue. -/
theorem markDead_observe (c : Fin n) (pid : ℕ) (reason : String) (s : Machine n μ) :
    obs (s.markDead c pid reason) = obs s := by
  unfold markDead
  split
  · rfl
  · split
    · rfl
    · split
      · rfl
      · rw [hproc]
    · rw [henqueue, hproc]
    · rw [henqueue, hproc]

/-- Reaping removes the process; its exit signals deliver and kill. -/
theorem reap_observe (c : Fin n) (pid : ℕ) (p : Process μ) (s : Machine n μ) :
    obs (s.reap c pid p) = obs (s.remove pid) := by
  have hmonitors : ∀ (ms : List (ℕ × ℕ)) (s : Machine n μ),
      obs (s.notifyMonitors c pid p.exitReason ms) = obs s := by
    intro ms
    induction ms with
    | nil => exact fun _ => rfl
    | cons m ms ih => exact fun s => (ih _).trans (deliverFragment_observe obs hproc henqueue ..)
  have hlinks : ∀ (ls : List ℕ) (s : Machine n μ),
      obs (s.signalLinks c p.exitReason ls) = obs s := by
    intro ls
    induction ls with
    | nil => exact fun _ => rfl
    | cons l ls ih => exact fun s => (ih _).trans (markDead_observe obs hproc henqueue ..)
  unfold reap
  dsimp only
  split
  · exact hmonitors ..
  · exact (hlinks ..).trans (hmonitors ..)

/-- The deferred transition changes nothing but the process and a run queue. -/
theorem deferred_observe (c : Fin n) (post : PostSwitch) (s : Machine n μ) :
    obs (s.deferred c post) = obs s := by
  cases post with
  | none => rfl
  | requeue pid =>
    change obs (s.requeue c pid) = obs s
    unfold requeue
    split
    · rfl
    · split
      · rw [henqueue, hproc]
      · rw [hproc]
  | block pid =>
    change obs (s.block c pid) = obs s
    unfold block
    split
    · rfl
    · split
      · split
        · rw [hproc]
        · rw [henqueue, hproc]
      · rw [hproc]

end Observe

private theorem deliverFragment_reaped (c : Fin n) (dest : ℕ) (frag : Fragment μ)
    (s : Machine n μ) : (s.deliverFragment c dest frag).reaped = s.reaped :=
  deliverFragment_observe reaped (fun _ _ _ => rfl) (fun _ _ _ => rfl) ..

/-- The pid that is reaped is recorded. -/
theorem reap_reaped (c : Fin n) (pid : ℕ) (p : Process μ) (s : Machine n μ) :
    (s.reap c pid p).reaped = s.reaped ++ [pid] :=
  reap_observe reaped (fun _ _ _ => rfl) (fun _ _ _ => rfl) ..

private theorem wakeDue_reaped (c : Fin n) (now : ℕ) (due : List ℕ) (s : Machine n μ) :
    (s.wakeDue c now due).reaped = s.reaped := by
  induction due generalizing s with
  | nil => rfl
  | cons pid due ih =>
    refine (ih _).trans ?_
    change (s.wakeOne c now pid).reaped = s.reaped
    unfold wakeOne
    split
    · rfl
    · split <;> rfl

/-- The deferred transition reaps nothing. -/
theorem deferred_reaped (c : Fin n) (post : PostSwitch) (s : Machine n μ) :
    (s.deferred c post).reaped = s.reaped :=
  deferred_observe reaped (fun _ _ _ => rfl) (fun _ _ _ => rfl) ..

/-- Only the lookup of a popped pid and the deferred transition reap. -/
theorem Step.reaped (h : Step s s') : s'.reaped = s.reaped ∨
    ∃ c pid, ((s.cpu c).loc = .popped pid ∧ s.stateOf pid = some .dead ∨
      (s.cpu c).loc = .switched pid) ∧ s'.reaped = s.reaped ++ [pid] := by
  cases h with
  | @take c pid hloc =>
    unfold Machine.take
    split
    · exact .inl rfl
    · rename_i p hp
      split
      · exact .inl rfl
      · rename_i hdead
        exact .inr ⟨c, pid, .inl ⟨hloc, by rw [stateOf_eq hp, hdead]⟩, reap_reaped ..⟩
      · exact .inl rfl
      · exact .inl rfl
  | @afterSwitch c pid hloc =>
    unfold Machine.afterSwitch reapDead
    split
    · exact .inl (deferred_reaped ..)
    · split
      · refine .inr ⟨c, pid, .inr hloc, (reap_reaped ..).trans ?_⟩
        exact congrArg (· ++ [pid]) (deferred_reaped ..)
      · exact .inl (deferred_reaped ..)
  | wakeDue hloc => exact .inl (wakeDue_reaped ..)
  | pumpDeliver hloc => exact .inl (deliverFragment_reaped ..)
  | send hloc => exact .inl (deliverFragment_reaped ..)
  | kill hloc => exact .inl (markDead_observe reaped (fun _ _ _ => rfl) (fun _ _ _ => rfl) ..)
  | monitor hloc =>
    unfold registerMonitor
    split
    · exact .inl (deliverFragment_reaped ..)
    · split
      · exact .inl (deliverFragment_reaped ..)
      · exact .inl rfl
  | spawnInsert hloc =>
    unfold insertChild
    refine .inl ?_
    dsimp only
    split <;> rfl
  | yieldSwitch hloc | recvSwitch hloc | exitSwitch hloc =>
    unfold saveContext
    split <;> exact .inl rfl
  | exit hloc =>
    unfold die
    split <;> exact .inl rfl
  | fatal hloc =>
    unfold die
    split <;> exact .inl rfl
  | recvPass scan hloc =>
    unfold recvPass
    split
    · exact .inl rfl
    · split
      · exact .inl rfl
      · split
        · exact .inl rfl
        · exact .inl rfl
        · split
          · exact .inl rfl
          · split <;> exact .inl rfl
  | tick | enterRun | readClock | skipWheel | popDue | pumpDone | popFront | popEmpty | stealBack
  | stealNext | stealDone | heapPtr | switchIn | finalize | callMonitor | callSpawn
  | callSpawnMonitor | spawnMonitor | spawnInner | spawnPid | spawnEnqueue | callYield
  | yieldStore | callRecv | recvWheel | recvStore | callExit | fatalSwitch => exact .inl rfl

private theorem exists_token (h : 1 ≤ s.tokens pid) (hne : pid ≠ 0) :
    (∃ c, pid ∈ (s.cpu c).runq) ∨ (∃ c, (s.cpu c).loc = .popped pid) ∨
      ∃ c parent ref, (s.cpu c).loc = .exec parent (.spawnEnqueue pid ref) := by
  obtain ⟨c, hc⟩ := Tally.exists_pos h
  by_cases hqueued : pid ∈ (s.cpu c).runq
  · exact .inl ⟨c, hqueued⟩
  have htoken : (s.cpu c).loc.token = pid := by
    by_contra hother
    rw [List.count_eq_zero_of_not_mem hqueued, ind_of_ne hother] at hc
    omega
  cases hloc : (s.cpu c).loc with
  | popped q =>
    rw [hloc] at htoken
    exact .inr (.inl ⟨c, by rw [hloc, ← htoken]; rfl⟩)
  | exec parent pos =>
    rw [hloc] at htoken
    cases pos with
    | spawnEnqueue child ref => exact .inr (.inr ⟨c, parent, ref, by rw [hloc, ← htoken]; rfl⟩)
    | body | monitor | spawnMonitor | spawnInner | spawnPid | spawnInsert | yieldStore
    | yieldSwitch | recv | recvWheel | recvStore | recvSwitch | exit | exitSwitch | fatalSwitch =>
      exact absurd htoken (Ne.symm hne)
  | top | wheelLock | wheelDue | pump | pop | steal | heapPtr | switchIn | switched | finalize
  | panic =>
    rw [hloc] at htoken
    exact absurd htoken (Ne.symm hne)

private theorem exists_holder (h : s.holders pid = 1) (hne : pid ≠ 0) :
    (∃ c, s.Executes c pid) ∨ ∃ c, (s.cpu c).loc = .switched pid := by
  have hpos : 0 < s.holders pid := by omega
  obtain ⟨c, hc⟩ := Tally.exists_pos hpos
  have howner : (s.cpu c).loc.owner = pid := by
    by_contra hother
    rw [ind_of_ne hother] at hc
    omega
  by_cases hloc : (s.cpu c).loc = .switched pid
  · exact .inr ⟨c, hloc⟩
  · exact .inl ⟨c, hne, howner, hloc⟩

private theorem OnStack.owner (h : s.OnStack c pid) : (s.cpu c).loc.owner = pid := by
  obtain ⟨-, pos, hloc⟩ := h
  rw [hloc]
  rfl

/-- A process runs on one core. -/
theorem Inv.owner_unique (h : s.Inv) {d : Fin n} (hne : pid ≠ 0)
    (hc : (s.cpu c).loc.owner = pid) (hd : (s.cpu d).loc.owner = pid) : c = d := by
  obtain ⟨-, -, -, -, hh⟩ := h.owned hc hne
  by_contra hcd
  exact owner_ne_of_sole hh.le hc (Ne.symm hcd) hd

private theorem Inv.not_owner_of_reaped (h : s.Inv) (hne : pid ≠ 0) (hreaped : pid ∈ s.reaped)
    (c : Fin n) : (s.cpu c).loc.owner ≠ pid := by
  intro howner
  obtain ⟨p, hp, -⟩ := h.owned howner hne
  obtain ⟨-, -, -, -, hcount, -⟩ := h.entry hp
  exact absurd (List.count_pos_iff.mpr hreaped) (by omega)

private theorem Inv.not_onStack_of_reap (h : s.Inv) (hstep : Step s s') (hne : pid ≠ 0)
    (hnew : s.reaped.count pid < s'.reaped.count pid) (d : Fin n) : ¬s.OnStack d pid := by
  intro hstack
  rcases Step.reaped hstep with hsame | ⟨c, q, hcase, hreaped⟩
  · rw [hsame] at hnew
    omega
  have hq : q = pid := by
    by_contra hother
    rw [hreaped, List.count_append, List.count_singleton, if_neg (by simpa using hother)] at hnew
    omega
  subst hq
  rcases hcase with ⟨hpop, hdead⟩ | hswitched
  · -- the popped entry is a token, and a process that some core runs has none
    have hle := s.le_tokens c q
    rw [hpop, show (Loc.popped q).token = q from rfl, ind_self] at hle
    obtain ⟨-, -, -, ht, -⟩ := h.owned hstack.owner hne
    omega
  · have hcd := h.owner_unique hne (by rw [hswitched]; rfl) hstack.owner
    subst hcd
    obtain ⟨-, pos, hexec⟩ := hstack
    rw [hswitched] at hexec
    cases hexec

end Machine

/-- One core at boot. -/
def bootMachine : Machine 1 Unit where
  cpu _ := ⟨.exec 0 .body, [], .none⟩
  table _ := none
  wheel := []
  ticks := 0
  nextPid := 1
  nextRef := 1
  monitorAtSpawn := none
  inserted := []
  reaped := []
  finalized := []

/-- One core that executes the first process, which boot code spawned. -/
def runningMachine : Machine 1 Unit where
  cpu _ := ⟨.exec 1 .body, [], .none⟩
  table := Function.update (fun _ => none) 1
    (some { Process.fresh [] [] with state := .running, rsp := none })
  wheel := []
  ticks := 0
  nextPid := 2
  nextRef := 1
  monitorAtSpawn := none
  inserted := [1]
  reaped := []
  finalized := []

/-- A core is in an exception handler or in a receive that may enter the timer wheel. -/
def Loc.eventful : Loc → Bool
  | .exec _ .fatalSwitch | .exec _ (.recv _) | .exec _ (.recvWheel _) => true
  | _ => false

/-- The machine of the example is as at boot. -/
theorem bootMachine_init : Init bootMachine :=
  ⟨fun _ => rfl, fun _ => rfl, rfl, rfl, rfl, rfl, rfl, rfl, rfl⟩

/-- Boot code spawns the first process and lets it run, without faults and receives: what these
steps keep and holds at boot holds then. -/
theorem runningMachine_of_steps {X : Machine 1 Unit → Prop} (hboot : X bootMachine)
    (hstep : ∀ s s', X s → Step s s' → (s.cpu 0).loc.eventful = false →
      (s'.cpu 0).loc.eventful = false → X s') : X runningMachine := by
  have hcalled := hstep _ _ hboot (.callSpawn (c := 0) false rfl) rfl rfl
  have hpid := hstep _ _ hcalled (.spawnInner (c := 0) rfl) rfl rfl
  have hmonitors := hstep _ _ hpid (.spawnPid (c := 0) rfl) rfl rfl
  have hinserted := hstep _ _ hmonitors (.spawnInsert (c := 0) rfl) rfl rfl
  have hqueued := hstep _ _ hinserted (.spawnEnqueue (c := 0) rfl) rfl rfl
  have htop := hstep _ _ hqueued (.enterRun (c := 0) rfl) rfl rfl
  have hclock := hstep _ _ htop (.readClock (c := 0) rfl rfl) rfl rfl
  have hdue := hstep _ _ hclock (.popDue (c := 0) rfl) rfl rfl
  have hwoken := hstep _ _ hdue (.wakeDue (c := 0) rfl) rfl rfl
  have hpumped := hstep _ _ hwoken (.pumpDone (c := 0) rfl) rfl rfl
  have hpopped := hstep _ _ hpumped (.popFront (c := 0) rfl rfl) rfl rfl
  have htaken := hstep _ _ hpopped (.take (c := 0) rfl) rfl rfl
  have hheap := hstep _ _ htaken (.heapPtr (c := 0) rfl) rfl rfl
  have hrunning := hstep _ _ hheap (.switchIn (c := 0) rfl) rfl rfl
  refine cast (congrArg X ?_) hrunning
  refine congrArg₂ (Machine.mk · · [] 0 2 1 none [1] [] []) ?_ ?_
  · funext c
    rw [Subsingleton.elim c 0]
    rfl
  · exact Function.update_idem ..

/-- The first process can run. -/
theorem runningMachine_reachable : Reachable runningMachine :=
  runningMachine_of_steps (.init bootMachine_init) fun _ _ h hstep _ _ => h.step hstep

/-- No wakeup and no timeout is lost. In every reachable state, a waiting process has
an empty mailbox; if it waits with a deadline, its pid is in the timer wheel or among
the due pids some core is about to wake; and a process that is runnable or killed is
being executed, or in a run queue, or popped by a core that is about to look it up,
or about to make its deferred transition, or about to be queued by its parent. -/
theorem no_lost_wakeup {s : Machine n μ} (h : Reachable s) {pid : ℕ} {p : Process μ}
    (hp : s.table pid = some p) :
    (p.state = .waiting → p.mailbox = []) ∧
    (∀ d, p.state = .waiting → p.rsp = some (.recv (some d)) →
      s.wheel.Has pid ∨ ∃ c now due, (s.cpu c).loc = .wheelDue now due ∧ pid ∈ due) ∧
    (p.state = .runnable ∨ p.state = .dead ∨ p.killPending = true →
      (∃ c, s.Executes c pid) ∨ (∃ c, pid ∈ (s.cpu c).runq) ∨
      (∃ c, (s.cpu c).loc = .popped pid) ∨ (∃ c, (s.cpu c).loc = .switched pid) ∨
      ∃ c parent ref, (s.cpu c).loc = .exec parent (.spawnEnqueue pid ref)) := by
  have hinv := h.inv
  have hne := hinv.ne_zero hp
  obtain ⟨-, -, -, -, -, -, hplace⟩ := hinv.entry hp
  have htoken : 1 ≤ s.tokens pid → _ := fun ht => exists_token ht hne
  have hholder : s.holders pid = 1 → _ := fun hh => exists_holder hh hne
  unfold Process.Placed at hplace
  refine ⟨fun hwait => ?_, fun d hwait hrsp => ?_, fun hready => ?_⟩
  · rw [hwait] at hplace
    exact hplace.2.2.2.1
  · rw [hwait] at hplace
    obtain ⟨-, -, -, -, d', hrsp', harm⟩ := hplace
    rw [hrsp, Option.some.injEq, Ctx.recv.injEq] at hrsp'
    rcases harm (by simp [← hrsp']) with hwheel | ⟨c, hdue⟩
    · exact .inl hwheel
    · refine .inr ?_
      cases hloc : (s.cpu c).loc with
      | wheelDue now due =>
        rw [hloc] at hdue
        exact ⟨c, now, due, hloc, hdue⟩
      | top | wheelLock | pump | pop | steal | popped | heapPtr | switchIn | exec | switched
      | finalize | panic =>
        rw [hloc] at hdue
        exact absurd hdue (by simp [Loc.due])
  · cases hstate : p.state with
    | runnable =>
      rw [hstate] at hplace
      rcases htoken (by omega) with hq | hpop | hpush
      · exact .inr (.inl hq)
      · exact .inr (.inr (.inl hpop))
      · exact .inr (.inr (.inr (.inr hpush)))
    | waiting =>
      rw [hstate] at hplace hready
      exact absurd hready (by simp [hplace.2.2.1])
    | running =>
      rw [hstate] at hplace
      rcases hholder hplace.2 with hexec | hswitched
      · exact .inl hexec
      · exact .inr (.inr (.inr (.inl hswitched)))
    | dead =>
      rw [hstate] at hplace
      rcases hplace with ⟨-, hh⟩ | ⟨ht, -⟩
      · rcases hholder hh with hexec | hswitched
        · exact .inl hexec
        · exact .inr (.inr (.inr (.inl hswitched)))
      · rcases htoken ht with hq | hpop | hpush
        · exact .inr (.inl hq)
        · exact .inr (.inr (.inl hpop))
        · exact .inr (.inr (.inr (.inr hpush)))

/-- The first process waits for 10 ms. Its mailbox is empty, and it is in the timer wheel. -/
theorem waiting_process_not_lost : ∃ (s : Machine 1 Unit) (p : Process Unit), Reachable s ∧
    s.table 1 = some p ∧ p.state = .waiting ∧ p.rsp = some (.recv (some 10)) ∧
    p.mailbox = [] ∧
    (s.wheel.Has 1 ∨ ∃ c now due, (s.cpu c).loc = .wheelDue now due ∧ 1 ∈ due) := by
  have hpassed := runningMachine_reachable.step (.callRecv (c := 0) (some 10) rfl (by decide))
    |>.step (.recvPass (c := 0) .miss rfl nofun nofun)
  have hwaits := hpassed.step (.recvWheel (c := 0) rfl) |>.step (.recvStore (c := 0) rfl)
    |>.step (.recvSwitch (c := 0) rfl) |>.step (.afterSwitch (c := 0) rfl)
  have hkept := @no_lost_wakeup 1 Unit _ hwaits 1 _ rfl
  exact ⟨_, _, hwaits, rfl, rfl, rfl, hkept.1 rfl, hkept.2.1 10 rfl rfl⟩

/-- Processes are executed by one core at a time and reaped safely. In every reachable
state, at most one core executes a process; a core about to resume a context has one
whose saving switch has completed, while no core is on that stack; no core panics; a
process once in the table is there or has been reaped exactly once, and finalized at
most once after that; a reaped process is not executed; and the step that reaps a
process is made while no core is on its stack. -/
theorem single_execution_and_safe_reaping {s : Machine n μ} (h : Reachable s) :
    (∀ pid c d, s.Executes c pid → s.Executes d pid → c = d) ∧
    (∀ c pid rsp, (s.cpu c).loc = .heapPtr pid rsp ∨ (s.cpu c).loc = .switchIn pid rsp →
      Resumable rsp ∧ ∀ d, ¬s.OnStack d pid) ∧
    (∀ c, (s.cpu c).loc ≠ .panic) ∧
    (∀ pid, pid ≠ 0 → s.inserted.count pid ≤ 1 ∧ s.finalized.count pid ≤ s.reaped.count pid ∧
      s.reaped.count pid + (if (s.table pid).isSome then 1 else 0) = s.inserted.count pid) ∧
    (∀ pid ∈ s.reaped, ∀ c, ¬s.Executes c pid ∧ ¬s.OnStack c pid) ∧
    ∀ s', Step s s' → ∀ pid, s.reaped.count pid < s'.reaped.count pid →
      ∀ c, ¬s.OnStack c pid ∧ ¬s'.OnStack c pid := by
  have hinv := h.inv
  refine ⟨?_, ?_, ?_, ?_, ?_, ?_⟩
  · intro pid c d hc hd
    exact hinv.owner_unique hc.1 hc.2.1 hd.2.1
  · intro c pid rsp hloc
    have hcore : pid ≠ 0 ∧ (s.cpu c).postSwitch = .none ∧ Resumable rsp ∧
        s.stateOf pid = some .running := by
      rcases hloc with hloc | hloc
      · exact (hinv.core hloc :)
      · exact (hinv.core hloc :)
    have howner : (s.cpu c).loc.owner = pid := by
      rcases hloc with hloc | hloc <;> rw [hloc] <;> rfl
    refine ⟨hcore.2.2.1, fun d hd => ?_⟩
    have hcd := hinv.owner_unique hcore.1 howner hd.owner
    subst hcd
    obtain ⟨-, pos, hexec⟩ := hd
    rcases hloc with hloc | hloc
    · rw [hloc] at hexec
      cases hexec
    · rw [hloc] at hexec
      cases hexec
  · intro c hpanic
    exact (hinv.core hpanic :)
  · intro pid hne
    have hpid := hinv.pids pid hne
    unfold PidOk at hpid
    cases hp : s.table pid with
    | none =>
      rw [hp] at hpid
      simp only [Option.isSome_none, Bool.false_eq_true, if_false]
      omega
    | some p =>
      rw [hp] at hpid
      simp only [Option.isSome_some, if_true]
      omega
  · intro pid hreaped c
    exact ⟨fun hc => hinv.not_owner_of_reaped hc.1 hreaped c hc.2.1,
      fun hc => hinv.not_owner_of_reaped hc.1 hreaped c hc.owner⟩
  · intro s' hstep pid hnew c
    have hmem : pid ∈ s'.reaped := List.count_pos_iff.mp (by omega)
    exact ⟨fun hc => hinv.not_onStack_of_reap hstep hc.1 hnew c hc,
      fun hc => (hinv.step hstep).not_owner_of_reaped hc.1 hmem c hc.owner⟩

/-- The first process is executed and exits. The step that reaps it is made while no core is on
its stack, and it is reaped once and never executed again. -/
theorem exited_process_reaped : ∃ s s' : Machine 1 Unit, runningMachine.Executes 0 1 ∧
    Reachable s ∧ Step s s' ∧ (∀ c, ¬s.OnStack c 1 ∧ ¬s'.OnStack c 1) ∧ Reachable s' ∧
    s'.reaped.count 1 = s'.inserted.count 1 ∧ s'.inserted.count 1 ≤ 1 ∧
    ∀ c, ¬s'.Executes c 1 := by
  have hleft := runningMachine_reachable.step (.callExit (c := 0) "bye" rfl (by decide))
    |>.step (.exit (c := 0) rfl) |>.step (.exitSwitch (c := 0) rfl)
  have hafter := hleft.step (.afterSwitch (c := 0) rfl)
  obtain ⟨-, -, -, hcounts, hreaped, -⟩ := single_execution_and_safe_reaping hafter
  have hone := hcounts 1 (by decide)
  refine ⟨_, _, ⟨by decide, rfl, nofun⟩, hleft, .afterSwitch (c := 0) rfl, ?_, hafter, hone.2.2,
    hone.1, fun c => (hreaped 1 (by decide) c).1⟩
  exact (single_execution_and_safe_reaping hleft).2.2.2.2.2 _ (.afterSwitch (c := 0) rfl) 1
    (by decide)

end Yggdrasil.Sched
