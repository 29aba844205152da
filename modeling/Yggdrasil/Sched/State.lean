import Mathlib.Logic.Function.Basic
import Mathlib.Data.Nat.Notation

/-!
# State of the scheduler

Processes are green threads with their own stacks, kept in one table. Each core has
a run queue and runs the scheduler loop, which switches into processes and back. A
core's location says where in the source it stands between two lock-protected
sections. The type `μ` is that of the messages programs exchange.
-/

namespace Yggdrasil.Sched

/-- Process identifiers; 0 stands for code outside processes. -/
abbrev Pid := ℕ

/-- Whether a process may run. -/
inductive State where
  | runnable
  | running
  | waiting
  | dead
  deriving DecidableEq, Repr

/-- A message in a mailbox. -/
inductive Fragment (μ : Type) where
  | sent (msg : μ)
  | down (ref : ℕ) (pid : Pid) (reason : String)
  deriving DecidableEq, Repr

/-- Where a saved context resumes: in the process's own code, at the head of the
loop of `recv_where`, or behind a switch that must not return. -/
inductive Ctx where
  | body
  | recv (deadline : Option ℕ)
  | unreachable
  deriving DecidableEq, Repr

/-- A process, with the fields of `Process` that the scheduler reads. -/
structure Process (μ : Type) where
  /-- Whether it may run. -/
  state : State
  /-- The saved context; `none` once a core has taken it and runs on the stack. -/
  rsp : Option Ctx
  /-- Messages not received yet. -/
  mailbox : List (Fragment μ)
  /-- Killed while running; honoured at its next switch or receive. -/
  killPending : Bool
  /-- Linked processes. -/
  links : List Pid
  /-- Who watches this process, by reference. -/
  monitors : List (ℕ × Pid)
  /-- Why it died. -/
  exitReason : String
  deriving DecidableEq, Repr

/-- The timer wheel: pids to wake by deadline, earliest first. -/
abbrev Wheel := List (ℕ × List Pid)

namespace Wheel

/-- Add a pid under a deadline. -/
def push (deadline : ℕ) (pid : Pid) : Wheel → Wheel
  | [] => [(deadline, [pid])]
  | (d, pids) :: w =>
    if deadline < d then (deadline, [pid]) :: (d, pids) :: w
    else if deadline = d then (d, pids ++ [pid]) :: w
    else (d, pids) :: push deadline pid w

/-- Take out the pids whose deadline has passed. -/
def popDue (now : ℕ) (w : Wheel) : List Pid × Wheel :=
  ((w.takeWhile fun e => e.1 ≤ now).flatMap Prod.snd, w.dropWhile fun e => e.1 ≤ now)

/-- A pid is somewhere in the wheel. -/
def Has (w : Wheel) (pid : Pid) : Prop := ∃ e ∈ w, pid ∈ e.2

/-- A pushed pid is in the wheel. -/
theorem has_push (deadline : ℕ) (pid : Pid) (w : Wheel) : Has (push deadline pid w) pid := by
  induction w with
  | nil => exact ⟨_, List.mem_singleton_self _, List.mem_singleton_self _⟩
  | cons e w ih =>
    obtain ⟨d, pids⟩ := e
    rw [push]
    split
    · exact ⟨_, List.mem_cons_self .., List.mem_singleton_self _⟩
    · split
      · exact ⟨_, List.mem_cons_self .., by simp⟩
      · obtain ⟨e, he, hpid⟩ := ih
        exact ⟨e, List.mem_cons_of_mem _ he, hpid⟩

/-- Pushing keeps what is in the wheel. -/
theorem Has.push {w : Wheel} {pid : Pid} (h : w.Has pid) (deadline : ℕ) (other : Pid) :
    Has (Wheel.push deadline other w) pid := by
  induction w with
  | nil => exact absurd h (by simp [Has])
  | cons e w ih =>
    obtain ⟨d, pids⟩ := e
    obtain ⟨e, he, hpid⟩ := h
    rw [Wheel.push]
    split
    · exact ⟨e, List.mem_cons_of_mem _ he, hpid⟩
    rcases List.mem_cons.mp he with rfl | he
    · split
      · exact ⟨_, List.mem_cons_self .., List.mem_append_left _ hpid⟩
      · exact ⟨_, List.mem_cons_self .., hpid⟩
    · split
      · exact ⟨e, List.mem_cons_of_mem _ he, hpid⟩
      · obtain ⟨e, he, hpid⟩ := ih ⟨e, he, hpid⟩
        exact ⟨e, List.mem_cons_of_mem _ he, hpid⟩

/-- What is in the wheel is due or stays. -/
theorem Has.popDue {w : Wheel} {pid : Pid} (h : w.Has pid) (now : ℕ) :
    pid ∈ (Wheel.popDue now w).1 ∨ Has (Wheel.popDue now w).2 pid := by
  obtain ⟨e, he, hpid⟩ := h
  rw [← List.takeWhile_append_dropWhile (p := fun e => decide (e.1 ≤ now)) (l := w)] at he
  rcases List.mem_append.mp he with he | he
  · exact .inl (List.mem_flatMap.mpr ⟨e, he, hpid⟩)
  · exact .inr ⟨e, he, hpid⟩

end Wheel

/-- Positions of running code between sections: in its own code, or inside a routine
of the process module. -/
inductive Pos where
  | body
  /-- `monitor` has its reference. -/
  | monitor (target : Pid) (ref : ℕ)
  /-- `spawn_monitor` has its reference. -/
  | spawnMonitor (ref : ℕ)
  /-- `spawn_inner` begins; `ref` is that of a `spawn_monitor` around it. -/
  | spawnInner (link : Bool) (ref : Option ℕ)
  /-- `spawn_inner` has the pid of the child. -/
  | spawnPid (child : Pid) (link : Bool) (ref : Option ℕ)
  /-- `spawn_inner` has the monitors of the child. -/
  | spawnInsert (child : Pid) (link : Bool) (ref : Option ℕ) (monitors : List (ℕ × Pid))
  /-- `spawn_inner` has inserted the child and not queued it yet. -/
  | spawnEnqueue (child : Pid) (ref : Option ℕ)
  /-- `yield_now` is about to request its requeueing. -/
  | yieldStore
  /-- `yield_now` is about to switch to the scheduler. -/
  | yieldSwitch
  /-- The head of the loop of `recv_where`. -/
  | recv (deadline : Option ℕ)
  /-- `recv_where` found nothing and is about to enter the timer wheel. -/
  | recvWheel (deadline : ℕ)
  /-- `recv_where` is about to request that it blocks. -/
  | recvStore (deadline : Option ℕ)
  /-- `recv_where` is about to switch to the scheduler. -/
  | recvSwitch (deadline : Option ℕ)
  /-- `exit` begins. -/
  | exit (reason : String)
  /-- The process is dead and about to switch to the scheduler. -/
  | exitSwitch
  /-- The same from an exception handler, which abandons the context. -/
  | fatalSwitch
  deriving DecidableEq, Repr

/-- Where a core stands in the scheduler loop or in a routine of its process. -/
inductive Loc where
  /-- The head of the scheduler loop. -/
  | top
  /-- `check_wheel` has read the clock. -/
  | wheelLock (now : ℕ)
  /-- `check_wheel` holds due pids, `now` being the time it read. -/
  | wheelDue (now : ℕ) (due : List Pid)
  /-- The ports deliver completions. -/
  | pump
  /-- About to pop the own queue. -/
  | pop
  /-- The own queue was empty; about to steal from core `k`. -/
  | steal (k : ℕ)
  /-- A pid popped, the table not locked yet. -/
  | popped (pid : Pid)
  /-- The process is marked running and its context is read. -/
  | heapPtr (pid : Pid) (rsp : Option Ctx)
  /-- About to switch into the process. -/
  | switchIn (pid : Pid) (rsp : Option Ctx)
  /-- Running code of a process, or other code if the pid is 0. -/
  | exec (pid : Pid) (pos : Pos)
  /-- Back on the scheduler's stack, the deferred transition to be made. -/
  | switched (pid : Pid)
  /-- A process is reaped, its resources to be freed. -/
  | finalize (pid : Pid)
  /-- A kernel panic. -/
  | panic
  deriving DecidableEq, Repr

/-- The deferred transition of the process that switches out. -/
inductive PostSwitch where
  | none
  | requeue (pid : Pid)
  | block (pid : Pid)
  deriving DecidableEq, Repr

/-- The state of a core: where it stands, its run queue and the deferred transition. -/
structure Cpu where
  /-- Where it stands. -/
  loc : Loc
  /-- Its run queue, next pid first. -/
  runq : List Pid
  /-- The deferred transition. -/
  postSwitch : PostSwitch
  deriving DecidableEq, Repr

/-- `n` cores and what they share. -/
structure Machine (n : ℕ) (μ : Type) where
  /-- The cores; core 0 drives the timer wheel. -/
  cpu : Fin n → Cpu
  /-- The process table. -/
  table : Pid → Option (Process μ)
  /-- The timer wheel. -/
  wheel : Wheel
  /-- The clock. -/
  ticks : ℕ
  /-- The next pid. -/
  nextPid : ℕ
  /-- The next monitor reference. -/
  nextRef : ℕ
  /-- The monitor that the next spawned process starts with. -/
  monitorAtSpawn : Option (ℕ × Pid)
  /-- History: the processes put in the table so far. -/
  inserted : List Pid
  /-- History: the processes reaped so far. -/
  reaped : List Pid
  /-- History: the processes whose stack and spans have been freed. -/
  finalized : List Pid

end Yggdrasil.Sched
