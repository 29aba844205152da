import Yggdrasil.Sched.State

/-!
# Lock-protected sections

What the routines of the process module do while they hold the process table, a run
queue or the timer wheel. Each is one atomic step of the machine, executed by a
core `c`.
-/

namespace Yggdrasil.Sched

variable {n : ℕ} {μ : Type}

/-- A pending kill takes effect. -/
def Process.honourKill (p : Process μ) : Process μ :=
  if p.killPending then { p with state := .dead } else p

/-- A process that is killed so keeps its context. -/
@[simp] theorem Process.honourKill_rsp (p : Process μ) : p.honourKill.rsp = p.rsp := by
  unfold honourKill
  split <;> rfl

/-- A fresh process. -/
def Process.fresh (links : List Pid) (monitors : List (ℕ × Pid)) : Process μ where
  state := .runnable
  rsp := some .body
  mailbox := []
  killPending := false
  links := links
  monitors := monitors
  exitReason := "normal"

/-- Where a core gets by switching to a saved context. Running behind a switch that
must not return is a panic, and so is here a context some core still runs on. -/
def resume (pid : Pid) : Option Ctx → Loc
  | some .body => .exec pid .body
  | some (.recv deadline) => .exec pid (.recv deadline)
  | some .unreachable => .panic
  | none => .panic

/-- What a pass of `recv_where` over the mailbox comes to: a message taken, none
found, or the heap quota exceeded by a copy. -/
inductive Scan where
  | hit (i : ℕ)
  | miss
  | quota
  deriving DecidableEq, Repr

namespace Machine

/-- Replace the state of a core. -/
def setCpu (c : Fin n) (k : Cpu) (s : Machine n μ) : Machine n μ :=
  { s with cpu := Function.update s.cpu c k }

/-- Move a core. -/
def setLoc (c : Fin n) (loc : Loc) (s : Machine n μ) : Machine n μ :=
  s.setCpu c { s.cpu c with loc := loc }

/-- Replace a process. -/
def setProc (pid : Pid) (p : Process μ) (s : Machine n μ) : Machine n μ :=
  { s with table := Function.update s.table pid (some p) }

/-- `enqueue`: queue a process on this core. -/
def enqueue (c : Fin n) (pid : Pid) (s : Machine n μ) : Machine n μ :=
  s.setCpu c { s.cpu c with runq := (s.cpu c).runq ++ [pid] }

/-- The core is where it was moved to. -/
@[simp] theorem setLoc_loc (c : Fin n) (loc : Loc) (s : Machine n μ) :
    ((s.setLoc c loc).cpu c).loc = loc := by
  simp [setLoc, setCpu]

/-- Queueing moves no core. -/
@[simp] theorem enqueue_loc (c d : Fin n) (pid : Pid) (s : Machine n μ) :
    ((s.enqueue c pid).cpu d).loc = (s.cpu d).loc := by
  by_cases h : d = c
  · simp [enqueue, setCpu, h]
  · simp [enqueue, setCpu, h]

/-- `deliver_fragment`: put a message in a mailbox and wake a waiting receiver. -/
def deliverFragment (c : Fin n) (dest : Pid) (frag : Fragment μ) (s : Machine n μ) :
    Machine n μ :=
  match s.table dest with
  | none => s
  | some p =>
    if p.state = .dead then s
    else
      let p' := { p with mailbox := p.mailbox ++ [frag] }
      if p.state = .waiting then
        (s.setProc dest { p' with state := .runnable }).enqueue c dest
      else s.setProc dest p'

/-- `mark_dead`: kill a process that is not running, flag one that is. -/
def markDead (c : Fin n) (pid : Pid) (reason : String) (s : Machine n μ) : Machine n μ :=
  match s.table pid with
  | none => s
  | some p =>
    match p.state with
    | .dead => s
    | .running =>
      if p.killPending then s
      else s.setProc pid { p with killPending := true, exitReason := reason }
    | .runnable | .waiting =>
      (s.setProc pid { p with state := .dead, exitReason := reason }).enqueue c pid

/-- `deliver_down`: tell a watcher that a process is dead. -/
def deliverDown (c : Fin n) (watcher : Pid) (ref : ℕ) (dead : Pid) (reason : String)
    (s : Machine n μ) : Machine n μ :=
  s.deliverFragment c watcher (.down ref dead reason)

/-- The messages to all monitors of a dead process. -/
def notifyMonitors (c : Fin n) (dead : Pid) (reason : String) :
    List (ℕ × Pid) → Machine n μ → Machine n μ
  | [], s => s
  | (ref, watcher) :: ms, s =>
    notifyMonitors c dead reason ms (s.deliverDown c watcher ref dead reason)

/-- The exit signals to all links of a dead process. -/
def signalLinks (c : Fin n) (reason : String) : List Pid → Machine n μ → Machine n μ
  | [], s => s
  | linked :: ls, s => signalLinks c reason ls (s.markDead c linked reason)

/-- Take a process out of the table. -/
def remove (pid : Pid) (s : Machine n μ) : Machine n μ :=
  { s with table := Function.update s.table pid none, reaped := s.reaped ++ [pid] }

/-- `reap`: remove the dead process `p`, then deliver its exit signals. -/
def reap (c : Fin n) (pid : Pid) (p : Process μ) (s : Machine n μ) : Machine n μ :=
  let s := (s.remove pid).notifyMonitors c pid p.exitReason p.monitors
  if p.exitReason = "normal" then s else s.signalLinks c p.exitReason p.links

/-- The scheduler locks the table for a popped pid: it takes a runnable process,
reaps a dead one and skips stale entries. -/
def take (c : Fin n) (pid : Pid) (s : Machine n μ) : Machine n μ :=
  match s.table pid with
  | none => s.setLoc c .top
  | some p =>
    match p.state with
    | .runnable =>
      (s.setProc pid { p with state := .running, rsp := none }).setLoc c (.heapPtr pid p.rsp)
    | .dead => (s.setLoc c (.finalize pid)).reap c pid p
    | .running | .waiting => s.setLoc c .top

/-- The deferred transition of `yield_now`: the process is queued again. -/
def requeue (c : Fin n) (pid : Pid) (s : Machine n μ) : Machine n μ :=
  match s.table pid with
  | none => s
  | some p =>
    if p.honourKill.state = .running then
      (s.setProc pid { p.honourKill with state := .runnable }).enqueue c pid
    else s.setProc pid p.honourKill

/-- The deferred transition of `recv_where`: the process waits, unless a message came
while it was switching. -/
def block (c : Fin n) (pid : Pid) (s : Machine n μ) : Machine n μ :=
  match s.table pid with
  | none => s
  | some p =>
    if p.honourKill.state = .running then
      if p.mailbox.isEmpty then s.setProc pid { p.honourKill with state := .waiting }
      else (s.setProc pid { p.honourKill with state := .runnable }).enqueue c pid
    else s.setProc pid p.honourKill

/-- Make the deferred transition of the process that switched out. -/
def deferred (c : Fin n) (post : PostSwitch) (s : Machine n μ) : Machine n μ :=
  match post with
  | .none => s
  | .requeue pid => s.requeue c pid
  | .block pid => s.block c pid

/-- Reap a process that turned out dead. -/
def reapDead (c : Fin n) (pid : Pid) (s : Machine n μ) : Machine n μ :=
  match s.table pid with
  | none => s
  | some p => if p.state = .dead then (s.setLoc c (.finalize pid)).reap c pid p else s

/-- The scheduler, back on its own stack, makes the deferred transition of the
process it ran and then reaps it if it is dead. -/
def afterSwitch (c : Fin n) (pid : Pid) (s : Machine n μ) : Machine n μ :=
  ((s.setCpu c { s.cpu c with loc := .top, postSwitch := .none }).deferred c
    (s.cpu c).postSwitch).reapDead c pid

/-- `check_wheel` wakes one due process; one that is still running is tried again at
the next tick. -/
def wakeOne (c : Fin n) (now : ℕ) (pid : Pid) (s : Machine n μ) : Machine n μ :=
  match s.table pid with
  | none => s
  | some p =>
    match p.state with
    | .waiting => (s.setProc pid { p with state := .runnable }).enqueue c pid
    | .running => { s with wheel := s.wheel.push (now + 1) pid }
    | .runnable | .dead => s

/-- `check_wheel` wakes all due processes under one lock. -/
def wakeDue (c : Fin n) (now : ℕ) : List Pid → Machine n μ → Machine n μ
  | [], s => s.setLoc c .pump
  | pid :: due, s => wakeDue c now due ((s.wakeOne c now pid).setLoc c (.wheelDue now due))

/-- `spawn_inner` inserts the child, linked to its parent if asked for. -/
def insertChild (c : Fin n) (parent child : Pid) (link : Bool) (ref : Option ℕ)
    (monitors : List (ℕ × Pid)) (s : Machine n μ) : Machine n μ :=
  let linked :=
    match link, s.table parent with
    | true, some pp =>
      (s.setProc parent { pp with links := pp.links ++ [child] }).setProc child
        (.fresh [parent] monitors)
    | _, _ => s.setProc child (.fresh [] monitors)
  { linked with inserted := s.inserted ++ [child] }.setLoc c
    (.exec parent (.spawnEnqueue child ref))

/-- `monitor` registers the watcher, or answers at once if the target is gone. -/
def registerMonitor (c : Fin n) (me target : Pid) (ref : ℕ) (s : Machine n μ) :
    Machine n μ :=
  match s.table target with
  | none => s.deliverDown c me ref target "noproc"
  | some p =>
    if p.state = .dead then s.deliverDown c me ref target "noproc"
    else s.setProc target { p with monitors := p.monitors ++ [(ref, me)] }

/-- The current process marks itself dead, to switch away for good. -/
def die (c : Fin n) (pid : Pid) (reason : String) (pos : Pos) (s : Machine n μ) :
    Machine n μ :=
  match s.table pid with
  | none => s.setLoc c .panic
  | some p =>
    (s.setProc pid { p with state := .dead, exitReason := reason }).setLoc c (.exec pid pos)

/-- One pass of `recv_where` under the table lock. -/
def recvPass (c : Fin n) (pid : Pid) (deadline : Option ℕ) (scan : Scan) (s : Machine n μ) :
    Machine n μ :=
  match s.table pid with
  | none => s.setLoc c .panic
  | some p =>
    if p.honourKill.state = .dead then
      (s.setProc pid p.honourKill).setLoc c (.exec pid .exitSwitch)
    else
      match scan with
      | .hit i =>
        (s.setProc pid { p with mailbox := p.mailbox.eraseIdx i }).setLoc c (.exec pid .body)
      | .quota => s.setLoc c (.exec pid (.exit "heap quota exceeded"))
      | .miss =>
        match deadline with
        | none => s.setLoc c (.exec pid (.recvStore none))
        | some d =>
          if s.ticks ≥ d then s.setLoc c (.exec pid .body)
          else s.setLoc c (.exec pid (.recvWheel d))

/-- A context switch to the scheduler completes: the context is saved. -/
def saveContext (c : Fin n) (pid : Pid) (ctx : Ctx) (s : Machine n μ) : Machine n μ :=
  match s.table pid with
  | none => s.setLoc c .panic
  | some p => (s.setProc pid { p with rsp := some ctx }).setLoc c (.switched pid)

end Machine

end Yggdrasil.Sched
