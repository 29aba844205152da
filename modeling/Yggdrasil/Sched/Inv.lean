import Yggdrasil.Lib.Tally
import Yggdrasil.Sched.Step

/-!
# The scheduler invariant

Run queues may hold stale pids, so what keeps a process safe is a count. A process
that is not running has one token if it is runnable, none if it waits and at least
one if it is dead, where tokens are queue entries, pids popped but not looked up, and
children not queued yet. A running process has no token and exactly one core. The
invariant says so for every pid, and what each core may rely on where it stands.
-/

namespace Yggdrasil.Sched

open Tally

variable {n : ℕ} {μ : Type}

/-- 1 if the two pids are the same. -/
def ind (a b : ℕ) : ℕ := if a = b then 1 else 0

/-- A pid counts for itself. -/
@[simp] theorem ind_self (a : ℕ) : ind a a = 1 := if_pos rfl

/-- It does not count for another one. -/
theorem ind_of_ne {a b : ℕ} (h : a ≠ b) : ind a b = 0 := if_neg h

namespace Loc

/-- The process a core has switched into, from the lookup to the deferred transition. -/
def owner : Loc → ℕ
  | .heapPtr pid _ => pid
  | .switchIn pid _ => pid
  | .exec pid _ => pid
  | .switched pid => pid
  | _ => 0

/-- A pid that a core holds instead of a run queue. -/
def token : Loc → ℕ
  | .popped pid => pid
  | .exec _ (.spawnEnqueue child _) => child
  | _ => 0

/-- A pid taken for a child that is not in the table yet. -/
def newborn : Loc → ℕ
  | .exec _ (.spawnPid child _ _) => child
  | .exec _ (.spawnInsert child _ _ _) => child
  | _ => 0

/-- A reaped process whose resources are to be freed. -/
def finishing : Loc → ℕ
  | .finalize pid => pid
  | _ => 0

/-- Pids taken out of the timer wheel that are still to be woken. -/
def due : Loc → List ℕ
  | .wheelDue _ due => due
  | _ => []

end Loc

/-- A context that was saved and may be run. -/
def Resumable (rsp : Option Ctx) : Prop := ∃ ctx, rsp = some ctx ∧ ctx ≠ .unreachable

/-- How a process is placed, by its tokens and the cores that have switched into it. -/
def Process.Placed (p : Process μ) (tokens holders : ℕ) (armed : Prop) : Prop :=
  match p.state with
  | .runnable => tokens = 1 ∧ holders = 0 ∧ p.killPending = false ∧ Resumable p.rsp
  | .running => tokens = 0 ∧ holders = 1
  | .waiting => tokens = 0 ∧ holders = 0 ∧ p.killPending = false ∧ p.mailbox = [] ∧
      ∃ d, p.rsp = some (.recv d) ∧ (d.isSome = true → armed)
  | .dead => (tokens = 0 ∧ holders = 1) ∨ (1 ≤ tokens ∧ holders = 0)

/-- The deferred transition left by a process. -/
def PostSwitch.Of (pid : ℕ) (post : PostSwitch) : Prop :=
  post = .none ∨ post = .requeue pid ∨ post = .block pid

namespace Machine

/-- Tokens of a pid. -/
def tokens (s : Machine n μ) (pid : ℕ) : ℕ :=
  tally (fun k => k.runq.count pid + ind k.loc.token pid) s.cpu

/-- Cores that have switched into a process. -/
def holders (s : Machine n μ) (pid : ℕ) : ℕ := tally (fun k => ind k.loc.owner pid) s.cpu

/-- Cores that have taken a pid and are to insert it. -/
def births (s : Machine n μ) (pid : ℕ) : ℕ := tally (fun k => ind k.loc.newborn pid) s.cpu

/-- Cores that are to free the resources of a process. -/
def finishing (s : Machine n μ) (pid : ℕ) : ℕ := tally (fun k => ind k.loc.finishing pid) s.cpu

/-- A pid is in the timer wheel, or due. -/
def Armed (s : Machine n μ) (pid : ℕ) : Prop :=
  s.wheel.Has pid ∨ ∃ c, pid ∈ (s.cpu c).loc.due

/-- The state and the saved context of a process. -/
def view (s : Machine n μ) (pid : ℕ) : Option (State × Option Ctx) :=
  (s.table pid).map fun p => (p.state, p.rsp)

/-- The state of a process. -/
def stateOf (s : Machine n μ) (pid : ℕ) : Option State := (s.view pid).map Prod.fst

/-- The invariant of a pid: in the table and placed, not born, or gone for good. -/
def PidOk (s : Machine n μ) (pid : ℕ) : Prop :=
  match s.table pid with
  | some p => pid < s.nextPid ∧ s.births pid = 0 ∧ s.finishing pid = 0 ∧
      s.inserted.count pid = 1 ∧ s.reaped.count pid = 0 ∧ s.finalized.count pid = 0 ∧
      p.Placed (s.tokens pid) (s.holders pid) (s.Armed pid)
  | none => s.holders pid = 0 ∧ s.finishing pid + s.finalized.count pid = s.reaped.count pid ∧
      s.reaped.count pid = s.inserted.count pid ∧
      ((s.tokens pid = 0 ∧ s.inserted.count pid = 0 ∧ s.births pid ≤ 1 ∧
          (s.nextPid ≤ pid → s.births pid = 0)) ∨
        (s.births pid = 0 ∧ s.inserted.count pid = 1 ∧ pid < s.nextPid))

/-- What a core may rely on at a position in code of `pid`. -/
def PosOk (s : Machine n μ) (pid : ℕ) (post : PostSwitch) : Pos → Prop
  | .yieldSwitch => pid ≠ 0 ∧ post = .requeue pid ∧ s.stateOf pid = some .running
  | .recvStore d => pid ≠ 0 ∧ post = .none ∧ s.stateOf pid = some .running ∧
      (d.isSome = true → s.Armed pid)
  | .recvSwitch d => pid ≠ 0 ∧ post = .block pid ∧ s.stateOf pid = some .running ∧
      (d.isSome = true → s.Armed pid)
  | .exitSwitch => pid ≠ 0 ∧ post = .none ∧ s.stateOf pid = some .dead
  | .fatalSwitch => pid ≠ 0 ∧ post.Of pid ∧ s.stateOf pid = some .dead
  | .yieldStore => pid ≠ 0 ∧ post = .none ∧ s.stateOf pid = some .running
  | .recv _ => pid ≠ 0 ∧ post = .none ∧ s.stateOf pid = some .running
  | .recvWheel _ => pid ≠ 0 ∧ post = .none ∧ s.stateOf pid = some .running
  | .exit _ => pid ≠ 0 ∧ post = .none ∧ s.stateOf pid = some .running
  | .spawnPid child _ _ => post = .none ∧ (pid ≠ 0 → s.stateOf pid = some .running) ∧ child ≠ 0
  | .spawnInsert child _ _ _ =>
    post = .none ∧ (pid ≠ 0 → s.stateOf pid = some .running) ∧ child ≠ 0
  | _ => post = .none ∧ (pid ≠ 0 → s.stateOf pid = some .running)

/-- What a core may rely on back on the scheduler's stack. -/
def SwitchedOk (s : Machine n μ) (pid : ℕ) (post : PostSwitch) : Prop :=
  pid ≠ 0 ∧ ((s.stateOf pid = some .dead ∧ post.Of pid) ∨
    (s.view pid = some (.running, some .body) ∧ post = .requeue pid) ∨
    ∃ d, s.view pid = some (.running, some (.recv d)) ∧ post = .block pid ∧
      (d.isSome = true → s.Armed pid))

/-- What a core may rely on where it stands. -/
def CoreOk (s : Machine n μ) (post : PostSwitch) : Loc → Prop
  | .heapPtr pid rsp => pid ≠ 0 ∧ post = .none ∧ Resumable rsp ∧ s.stateOf pid = some .running
  | .switchIn pid rsp => pid ≠ 0 ∧ post = .none ∧ Resumable rsp ∧ s.stateOf pid = some .running
  | .exec pid pos => s.PosOk pid post pos
  | .switched pid => s.SwitchedOk pid post
  | .panic => False
  | _ => post = .none

/-- The invariant of the scheduler. -/
structure Inv (s : Machine n μ) : Prop where
  /-- Pid 0 is never used. -/
  zero : s.table 0 = none ∧ 0 < s.nextPid
  /-- All other pids are in order. -/
  pids : ∀ pid, pid ≠ 0 → s.PidOk pid
  /-- All cores are in order. -/
  cores : ∀ c, s.CoreOk (s.cpu c).postSwitch (s.cpu c).loc

section

variable {s s' : Machine n μ} {c : Fin n} {k : Cpu} {pid : ℕ}

/-- A core's condition depends on the process it has switched into only. -/
theorem CoreOk.congr {post : PostSwitch} {loc : Loc} (h : s.CoreOk post loc)
    (hview : loc.owner ≠ 0 → s'.view loc.owner = s.view loc.owner)
    (harmed : s.stateOf loc.owner = some .running → s.Armed loc.owner → s'.Armed loc.owner) :
    s'.CoreOk post loc := by
  have hstate : loc.owner ≠ 0 → s'.stateOf loc.owner = s.stateOf loc.owner := fun hne => by
    rw [stateOf, hview hne, stateOf]
  cases loc with
  | heapPtr pid rsp => exact ⟨h.1, h.2.1, h.2.2.1, (hstate h.1).trans h.2.2.2⟩
  | switchIn pid rsp => exact ⟨h.1, h.2.1, h.2.2.1, (hstate h.1).trans h.2.2.2⟩
  | switched pid =>
    obtain ⟨hne, hcase⟩ := h
    refine ⟨hne, ?_⟩
    rcases hcase with ⟨hdead, hpost⟩ | ⟨hv, hpost⟩ | ⟨d, hv, hpost, harm⟩
    · exact .inl ⟨(hstate hne).trans hdead, hpost⟩
    · exact .inr (.inl ⟨(hview hne).trans hv, hpost⟩)
    · have hrun : s.stateOf pid = some .running := by rw [stateOf, hv, Option.map_some]
      exact .inr (.inr ⟨d, (hview hne).trans hv, hpost, fun hd => harmed hrun (harm hd)⟩)
  | exec pid pos =>
    cases pos with
    | recvStore d =>
      exact ⟨h.1, h.2.1, (hstate h.1).trans h.2.2.1, fun hd => harmed h.2.2.1 (h.2.2.2 hd)⟩
    | recvSwitch d =>
      exact ⟨h.1, h.2.1, (hstate h.1).trans h.2.2.1, fun hd => harmed h.2.2.1 (h.2.2.2 hd)⟩
    | yieldStore | yieldSwitch | recv | recvWheel | exit | exitSwitch | fatalSwitch =>
      exact ⟨h.1, h.2.1, (hstate h.1).trans h.2.2⟩
    | spawnPid | spawnInsert =>
      exact ⟨h.1, fun hne => (hstate hne).trans (h.2.1 hne), h.2.2⟩
    | body | monitor | spawnMonitor | spawnInner | spawnEnqueue =>
      exact ⟨h.1, fun hne => (hstate hne).trans (h.2 hne)⟩
  | top | wheelLock | wheelDue | pump | pop | steal | popped | finalize | panic => exact h

end

end Machine

/-- Two states of a core count the same for a pid. -/
structure Cpu.Same (k k' : Cpu) (pid : ℕ) : Prop where
  /-- Tokens. -/
  token : k'.runq.count pid + ind k'.loc.token pid = k.runq.count pid + ind k.loc.token pid
  /-- The process switched into. -/
  owner : ind k'.loc.owner pid = ind k.loc.owner pid
  /-- The child to be inserted. -/
  newborn : ind k'.loc.newborn pid = ind k.loc.newborn pid
  /-- The process to be finalized. -/
  finishing : ind k'.loc.finishing pid = ind k.loc.finishing pid

/-- Locations that stand for the same pids count the same. -/
theorem Cpu.Same.of_loc {k k' : Cpu} (hrunq : k'.runq = k.runq)
    (htoken : k'.loc.token = k.loc.token) (howner : k'.loc.owner = k.loc.owner)
    (hnewborn : k'.loc.newborn = k.loc.newborn) (hfin : k'.loc.finishing = k.loc.finishing)
    (pid : ℕ) : k.Same k' pid :=
  ⟨by rw [hrunq, htoken], by rw [howner], by rw [hnewborn], by rw [hfin]⟩

namespace Machine

section

variable {s s' : Machine n μ} {c : Fin n} {k : Cpu} {pid : ℕ}

/-- What the change of one core does to the counts of a pid. -/
theorem counts_update (hcpu : s'.cpu = Function.update s.cpu c k) (pid : ℕ) :
    s'.tokens pid + ((s.cpu c).runq.count pid + ind (s.cpu c).loc.token pid) =
        s.tokens pid + (k.runq.count pid + ind k.loc.token pid) ∧
      s'.holders pid + ind (s.cpu c).loc.owner pid = s.holders pid + ind k.loc.owner pid ∧
      s'.births pid + ind (s.cpu c).loc.newborn pid = s.births pid + ind k.loc.newborn pid ∧
      s'.finishing pid + ind (s.cpu c).loc.finishing pid =
        s.finishing pid + ind k.loc.finishing pid := by
  rw [tokens, holders, births, finishing, hcpu]
  exact ⟨tally_update (fun k : Cpu => k.runq.count pid + ind k.loc.token pid) s.cpu c k,
    tally_update (fun k : Cpu => ind k.loc.owner pid) s.cpu c k,
    tally_update (fun k : Cpu => ind k.loc.newborn pid) s.cpu c k,
    tally_update (fun k : Cpu => ind k.loc.finishing pid) s.cpu c k⟩

/-- A core that stands for a pid as before leaves the counts of the pid. -/
theorem counts_of_same (hcpu : s'.cpu = Function.update s.cpu c k) (h : (s.cpu c).Same k pid) :
    s'.tokens pid = s.tokens pid ∧ s'.holders pid = s.holders pid ∧
      s'.births pid = s.births pid ∧ s'.finishing pid = s.finishing pid := by
  obtain ⟨ht, hh, hb, hf⟩ := counts_update hcpu pid
  obtain ⟨ht', hh', hb', hf'⟩ := h
  omega

/-- What one core contributes to the tokens. -/
theorem le_tokens (s : Machine n μ) (c : Fin n) (pid : ℕ) :
    (s.cpu c).runq.count pid + ind (s.cpu c).loc.token pid ≤ s.tokens pid :=
  le_tally (fun k : Cpu => k.runq.count pid + ind k.loc.token pid) s.cpu c

/-- What one core contributes to the holders. -/
theorem le_holders (s : Machine n μ) (c : Fin n) (pid : ℕ) :
    ind (s.cpu c).loc.owner pid ≤ s.holders pid :=
  le_tally (fun k : Cpu => ind k.loc.owner pid) s.cpu c

/-- What one core contributes to the births. -/
theorem le_births (s : Machine n μ) (c : Fin n) (pid : ℕ) :
    ind (s.cpu c).loc.newborn pid ≤ s.births pid :=
  le_tally (fun k : Cpu => ind k.loc.newborn pid) s.cpu c

/-- What one core contributes to the removals. -/
theorem le_finishing (s : Machine n μ) (c : Fin n) (pid : ℕ) :
    ind (s.cpu c).loc.finishing pid ≤ s.finishing pid :=
  le_tally (fun k : Cpu => ind k.loc.finishing pid) s.cpu c

/-- A process keeps its place when its counts do and it does not lose its alarm. -/
theorem PidOk.congr (h : s.PidOk pid) (htable : s'.table pid = s.table pid)
    (hnext : pid < s'.nextPid ↔ pid < s.nextPid)
    (hinserted : s'.inserted.count pid = s.inserted.count pid)
    (hreaped : s'.reaped.count pid = s.reaped.count pid)
    (hfinal : s'.finalized.count pid = s.finalized.count pid)
    (htokens : s'.tokens pid = s.tokens pid) (hholders : s'.holders pid = s.holders pid)
    (hbirths : s'.births pid = s.births pid) (hfin : s'.finishing pid = s.finishing pid)
    (harmed : s.Armed pid → s'.Armed pid) : s'.PidOk pid := by
  unfold PidOk at h ⊢
  rw [htable, htokens, hholders, hbirths, hfin, hinserted, hreaped, hfinal]
  cases hentry : s.table pid with
  | none =>
    rw [hentry] at h
    simpa only [hnext, ← not_lt] using h
  | some p =>
    rw [hentry] at h
    obtain ⟨hlt, hb, hf, hi, hr, hz, hplace⟩ := h
    refine ⟨hnext.mpr hlt, hb, hf, hi, hr, hz, ?_⟩
    unfold Process.Placed at hplace ⊢
    cases hstate : p.state with
    | waiting =>
      rw [hstate] at hplace
      obtain ⟨ht, hh, hkill, hm, d, hrsp, harm⟩ := hplace
      exact ⟨ht, hh, hkill, hm, d, hrsp, fun hd => harmed (harm hd)⟩
    | runnable | running | dead =>
      rw [hstate] at hplace
      exact hplace

/-- A step of core `c` that concerns the process `pid` only keeps the invariant if it
puts both in order. -/
theorem Inv.frame (h : s.Inv) (pid : ℕ) (hcpu : s'.cpu = Function.update s.cpu c k)
    (htable : ∀ q, q ≠ pid → s'.table q = s.table q)
    (hnext : s.nextPid ≤ s'.nextPid ∧ ∀ q, q ≠ pid → q < s'.nextPid → q < s.nextPid)
    (hinserted : ∀ q, q ≠ pid → s'.inserted.count q = s.inserted.count q)
    (hreaped : ∀ q, q ≠ pid → s'.reaped.count q = s.reaped.count q)
    (hfinal : ∀ q, q ≠ pid → s'.finalized.count q = s.finalized.count q)
    (hsame : ∀ q, q ≠ 0 → q ≠ pid → (s.cpu c).Same k q)
    (harmed : ∀ q, q ≠ 0 → q ≠ pid → s.Armed q → s'.Armed q)
    (hzero : pid = 0 → s'.table 0 = none) (hpid : pid ≠ 0 → s'.PidOk pid)
    (hothers : pid ≠ 0 → ∀ d, d ≠ c → (s.cpu d).loc.owner = pid →
      s'.view pid = s.view pid ∧
        (s.stateOf pid = some .running → s.Armed pid → s'.Armed pid))
    (hcore : s'.CoreOk k.postSwitch k.loc) : s'.Inv := by
  refine ⟨⟨?_, Nat.lt_of_lt_of_le h.zero.2 hnext.1⟩, fun q hq => ?_, fun d => ?_⟩
  · by_cases hp : pid = 0
    · exact hzero hp
    · rw [htable 0 (Ne.symm hp)]
      exact h.zero.1
  · by_cases hqp : q = pid
    · subst hqp
      exact hpid hq
    · obtain ⟨ht, hh, hb, hf⟩ := counts_of_same hcpu (hsame q hq hqp)
      exact (h.pids q hq).congr (htable q hqp)
        ⟨hnext.2 q hqp, fun hlt => Nat.lt_of_lt_of_le hlt hnext.1⟩ (hinserted q hqp)
        (hreaped q hqp) (hfinal q hqp) ht hh hb hf (harmed q hq hqp)
  · by_cases hd : d = c
    · subst hd
      rw [hcpu, Function.update_self]
      exact hcore
    · rw [hcpu, Function.update_of_ne hd]
      refine (h.cores d).congr (fun hne => ?_) fun hrun harm => ?_
      · by_cases hp : (s.cpu d).loc.owner = pid
        · rw [hp]
          exact (hothers (hp ▸ hne) d hd hp).1
        · rw [view, htable _ hp, view]
      · have hne : (s.cpu d).loc.owner ≠ 0 := fun hzero => by
          rw [hzero, stateOf, view, h.zero.1] at hrun
          cases hrun
        by_cases hp : (s.cpu d).loc.owner = pid
        · rw [hp] at harm hrun ⊢
          exact (hothers (hp ▸ hne) d hd hp).2 hrun harm
        · exact harmed _ hne hp harm

/-- Changing one core, a pid is still armed if the core keeps its due pids. -/
theorem Armed.update (h : s.Armed pid) (hcpu : s'.cpu = Function.update s.cpu c k)
    (hwheel : s.wheel.Has pid → s'.wheel.Has pid)
    (hdue : pid ∈ (s.cpu c).loc.due → s'.wheel.Has pid ∨ pid ∈ k.loc.due) : s'.Armed pid := by
  rcases h with h | ⟨d, hd⟩
  · exact .inl (hwheel h)
  · by_cases hdc : d = c
    · subst hdc
      rcases hdue hd with hw | hk
      · exact .inl hw
      · exact .inr ⟨d, by rwa [hcpu, Function.update_self]⟩
    · exact .inr ⟨d, by rwa [hcpu, Function.update_of_ne hdc]⟩

/-- A core without due pids leaves the others armed. -/
theorem armed_update (hcpu : s'.cpu = Function.update s.cpu c k) (hwheel : s'.wheel = s.wheel)
    (hdue : (s.cpu c).loc.due = []) (q : ℕ) (h : s.Armed q) : s'.Armed q := by
  refine h.update hcpu (fun hq => hwheel ▸ hq) fun hq => ?_
  rw [hdue] at hq
  cases hq

/-- A change of one core that concerns no process. -/
theorem Inv.quiet (h : s.Inv) (hrunq : k.runq = (s.cpu c).runq)
    (htoken : k.loc.token = (s.cpu c).loc.token) (howner : k.loc.owner = (s.cpu c).loc.owner)
    (hnewborn : k.loc.newborn = (s.cpu c).loc.newborn)
    (hfin : k.loc.finishing = (s.cpu c).loc.finishing)
    (hdue : ∀ q ∈ (s.cpu c).loc.due, q ∈ k.loc.due) (hcore : s.CoreOk k.postSwitch k.loc) :
    (s.setCpu c k).Inv := by
  have harmed : ∀ q, s.Armed q → (s.setCpu c k).Armed q := fun q hq =>
    hq.update rfl id fun hd => .inr (hdue q hd)
  refine h.frame 0 rfl (fun _ _ => rfl) ⟨le_rfl, fun _ _ => id⟩ (fun _ _ => rfl)
    (fun _ _ => rfl) (fun _ _ => rfl) (fun q _ _ => .of_loc hrunq htoken howner hnewborn hfin q)
    (fun q _ _ => harmed q) (fun _ => h.zero.1) (fun h => absurd rfl h) (fun h => absurd rfl h) ?_
  exact hcore.congr (fun _ => rfl) fun _ => harmed _

/-- What a core may rely on at its location. -/
theorem Inv.core (h : s.Inv) {l : Loc} (hloc : (s.cpu c).loc = l) :
    s.CoreOk (s.cpu c).postSwitch l := hloc ▸ h.cores c

/-- A core moves on without concern to any process. -/
theorem Inv.move (h : s.Inv) {l l₀ : Loc} (hloc : (s.cpu c).loc = l₀) (htoken : l.token = l₀.token)
    (howner : l.owner = l₀.owner) (hnewborn : l.newborn = l₀.newborn)
    (hfin : l.finishing = l₀.finishing) (hdue : l₀.due = [])
    (hcore : s.CoreOk (s.cpu c).postSwitch l) : (s.setLoc c l).Inv := by
  subst hloc
  exact h.quiet rfl htoken howner hnewborn hfin (by simp [hdue]) hcore

end

end Machine

end Yggdrasil.Sched
