import Yggdrasil.Sched.Section
import Yggdrasil.Lib.Transition

/-!
# Steps of the scheduler

Every step is made by one core, apart from the clock. Processes are arbitrary
programs: in its own code a process may call any routine with any arguments.
-/

namespace Yggdrasil.Sched

variable {n : ℕ} {μ : Type}

open Machine

/-- One step of some core, or of the clock. -/
inductive Step : Machine n μ → Machine n μ → Prop
  /-- The clock advances. -/
  | tick {s : Machine n μ} (k : ℕ) : Step s { s with ticks := s.ticks + k }
  /-- Boot code enters the scheduler loop. -/
  | enterRun {s : Machine n μ} {c : Fin n} : (s.cpu c).loc = .exec 0 .body →
      Step s (s.setLoc c .top)
  /-- Core 0 looks at the clock. -/
  | readClock {s : Machine n μ} {c : Fin n} : (s.cpu c).loc = .top → c.val = 0 →
      Step s (s.setLoc c (.wheelLock s.ticks))
  /-- The other cores do not drive the timer wheel. -/
  | skipWheel {s : Machine n μ} {c : Fin n} : (s.cpu c).loc = .top → c.val ≠ 0 →
      Step s (s.setLoc c .pump)
  /-- Due pids are taken out of the wheel. -/
  | popDue {s : Machine n μ} {c : Fin n} {now : ℕ} : (s.cpu c).loc = .wheelLock now →
      Step s ({ s with wheel := (s.wheel.popDue now).2 }.setLoc c
        (.wheelDue now (s.wheel.popDue now).1))
  /-- Due processes are woken. -/
  | wakeDue {s : Machine n μ} {c : Fin n} {now : ℕ} {due : List Pid} :
      (s.cpu c).loc = .wheelDue now due → Step s (s.wakeDue c now due)
  /-- A port completion is sent to its owner. -/
  | pumpDeliver {s : Machine n μ} {c : Fin n} {dest : Pid} {msg : μ} : (s.cpu c).loc = .pump →
      Step s (s.deliverFragment c dest (.sent msg))
  /-- All completions are sent. -/
  | pumpDone {s : Machine n μ} {c : Fin n} : (s.cpu c).loc = .pump → Step s (s.setLoc c .pop)
  /-- The own queue is popped at the front. -/
  | popFront {s : Machine n μ} {c : Fin n} {pid : Pid} {rest : List Pid} :
      (s.cpu c).loc = .pop → (s.cpu c).runq = pid :: rest →
      Step s (s.setCpu c { s.cpu c with loc := .popped pid, runq := rest })
  /-- The own queue is empty. -/
  | popEmpty {s : Machine n μ} {c : Fin n} : (s.cpu c).loc = .pop → (s.cpu c).runq = [] →
      Step s (s.setLoc c (.steal 0))
  /-- The back of another core's queue is stolen. -/
  | stealBack {s : Machine n μ} {c d : Fin n} {pid : Pid} {rest : List Pid} :
      (s.cpu c).loc = .steal d → d ≠ c → (s.cpu d).runq = rest ++ [pid] →
      Step s ((s.setCpu d { s.cpu d with runq := rest }).setLoc c (.popped pid))
  /-- There is nothing to steal from a core, or it is the core itself. -/
  | stealNext {s : Machine n μ} {c d : Fin n} : (s.cpu c).loc = .steal d →
      d = c ∨ (s.cpu d).runq = [] → Step s (s.setLoc c (.steal (d + 1)))
  /-- Nothing is runnable anywhere: the core sleeps until an interrupt. -/
  | stealDone {s : Machine n μ} {c : Fin n} {k : ℕ} : (s.cpu c).loc = .steal k → n ≤ k →
      Step s (s.setLoc c .top)
  /-- The table is locked for a popped pid. -/
  | take {s : Machine n μ} {c : Fin n} {pid : Pid} : (s.cpu c).loc = .popped pid →
      Step s (s.take c pid)
  /-- The heap pointer of the process is read. -/
  | heapPtr {s : Machine n μ} {c : Fin n} {pid : Pid} {rsp : Option Ctx} :
      (s.cpu c).loc = .heapPtr pid rsp →
      Step s (s.setLoc c (if (s.table pid).isSome then .switchIn pid rsp else .panic))
  /-- The core switches into the process. -/
  | switchIn {s : Machine n μ} {c : Fin n} {pid : Pid} {rsp : Option Ctx} :
      (s.cpu c).loc = .switchIn pid rsp → Step s (s.setLoc c (resume pid rsp))
  /-- The deferred transition is made. -/
  | afterSwitch {s : Machine n μ} {c : Fin n} {pid : Pid} : (s.cpu c).loc = .switched pid →
      Step s (s.afterSwitch c pid)
  /-- The stack and the spans of a reaped process are freed. -/
  | finalize {s : Machine n μ} {c : Fin n} {pid : Pid} : (s.cpu c).loc = .finalize pid →
      Step s ({ s with finalized := s.finalized ++ [pid] }.setLoc c .top)
  /-- A message is sent. -/
  | send {s : Machine n μ} {c : Fin n} {pid dest : Pid} {msg : μ} :
      (s.cpu c).loc = .exec pid .body → Step s (s.deliverFragment c dest (.sent msg))
  /-- A process is killed. -/
  | kill {s : Machine n μ} {c : Fin n} {pid target : Pid} {reason : String} :
      (s.cpu c).loc = .exec pid .body → Step s (s.markDead c target reason)
  /-- `monitor` takes a reference. -/
  | callMonitor {s : Machine n μ} {c : Fin n} {pid target : Pid} :
      (s.cpu c).loc = .exec pid .body →
      Step s ({ s with nextRef := s.nextRef + 1 }.setLoc c
        (.exec pid (.monitor target s.nextRef)))
  /-- `monitor` registers the watcher. -/
  | monitor {s : Machine n μ} {c : Fin n} {pid target : Pid} {ref : ℕ} :
      (s.cpu c).loc = .exec pid (.monitor target ref) →
      Step s ((s.setLoc c (.exec pid .body)).registerMonitor c pid target ref)
  /-- `spawn`, `spawn_with_heap` or `spawn_link` is called. -/
  | callSpawn {s : Machine n μ} {c : Fin n} {pid : Pid} (link : Bool) :
      (s.cpu c).loc = .exec pid .body →
      Step s (s.setLoc c (.exec pid (.spawnInner link none)))
  /-- `spawn_monitor` takes a reference. -/
  | callSpawnMonitor {s : Machine n μ} {c : Fin n} {pid : Pid} :
      (s.cpu c).loc = .exec pid .body →
      Step s ({ s with nextRef := s.nextRef + 1 }.setLoc c
        (.exec pid (.spawnMonitor s.nextRef)))
  /-- `spawn_monitor` leaves the monitor for `spawn_inner`. -/
  | spawnMonitor {s : Machine n μ} {c : Fin n} {pid : Pid} {ref : ℕ} :
      (s.cpu c).loc = .exec pid (.spawnMonitor ref) →
      Step s ({ s with monitorAtSpawn := some (ref, pid) }.setLoc c
        (.exec pid (.spawnInner false (some ref))))
  /-- `spawn_inner` takes a pid. -/
  | spawnInner {s : Machine n μ} {c : Fin n} {pid : Pid} {link : Bool} {ref : Option ℕ} :
      (s.cpu c).loc = .exec pid (.spawnInner link ref) →
      Step s ({ s with nextPid := s.nextPid + 1 }.setLoc c
        (.exec pid (.spawnPid s.nextPid link ref)))
  /-- `spawn_inner` takes the monitor left for it. -/
  | spawnPid {s : Machine n μ} {c : Fin n} {pid child : Pid} {link : Bool} {ref : Option ℕ} :
      (s.cpu c).loc = .exec pid (.spawnPid child link ref) →
      Step s ({ s with monitorAtSpawn := none }.setLoc c
        (.exec pid (.spawnInsert child link ref s.monitorAtSpawn.toList)))
  /-- `spawn_inner` inserts the child. -/
  | spawnInsert {s : Machine n μ} {c : Fin n} {pid child : Pid} {link : Bool} {ref : Option ℕ}
      {monitors : List (ℕ × Pid)} :
      (s.cpu c).loc = .exec pid (.spawnInsert child link ref monitors) →
      Step s (s.insertChild c pid child link ref monitors)
  /-- `spawn_inner` queues the child. -/
  | spawnEnqueue {s : Machine n μ} {c : Fin n} {pid child : Pid} {ref : Option ℕ} :
      (s.cpu c).loc = .exec pid (.spawnEnqueue child ref) →
      Step s ((s.enqueue c child).setLoc c (.exec pid .body))
  /-- A process calls `yield_now`. -/
  | callYield {s : Machine n μ} {c : Fin n} {pid : Pid} : (s.cpu c).loc = .exec pid .body →
      pid ≠ 0 →
      Step s (s.setLoc c (if (s.table pid).isSome then .exec pid .yieldStore else .panic))
  /-- `yield_now` requests the requeueing. -/
  | yieldStore {s : Machine n μ} {c : Fin n} {pid : Pid} :
      (s.cpu c).loc = .exec pid .yieldStore →
      Step s (s.setCpu c { s.cpu c with loc := .exec pid .yieldSwitch, postSwitch := .requeue pid })
  /-- `yield_now` switches to the scheduler. -/
  | yieldSwitch {s : Machine n μ} {c : Fin n} {pid : Pid} :
      (s.cpu c).loc = .exec pid .yieldSwitch → Step s (s.saveContext c pid .body)
  /-- A process calls `recv_where`. -/
  | callRecv {s : Machine n μ} {c : Fin n} {pid : Pid} (timeout : Option ℕ) :
      (s.cpu c).loc = .exec pid .body → pid ≠ 0 →
      Step s (s.setLoc c (.exec pid (.recv (timeout.map (s.ticks + ·)))))
  /-- `recv_where` passes over the mailbox. -/
  | recvPass {s : Machine n μ} {c : Fin n} {pid : Pid} {deadline : Option ℕ} (scan : Scan) :
      (s.cpu c).loc = .exec pid (.recv deadline) →
      (∀ p, s.table pid = some p → scan = .quota → p.mailbox ≠ []) →
      (∀ p i, s.table pid = some p → scan = .hit i → i < p.mailbox.length) →
      Step s (s.recvPass c pid deadline scan)
  /-- `recv_where` enters the timer wheel. -/
  | recvWheel {s : Machine n μ} {c : Fin n} {pid : Pid} {deadline : ℕ} :
      (s.cpu c).loc = .exec pid (.recvWheel deadline) →
      Step s ({ s with wheel := s.wheel.push deadline pid }.setLoc c
        (.exec pid (.recvStore (some deadline))))
  /-- `recv_where` requests that it blocks. -/
  | recvStore {s : Machine n μ} {c : Fin n} {pid : Pid} {deadline : Option ℕ} :
      (s.cpu c).loc = .exec pid (.recvStore deadline) →
      Step s (s.setCpu c
        { s.cpu c with loc := .exec pid (.recvSwitch deadline), postSwitch := .block pid })
  /-- `recv_where` switches to the scheduler. -/
  | recvSwitch {s : Machine n μ} {c : Fin n} {pid : Pid} {deadline : Option ℕ} :
      (s.cpu c).loc = .exec pid (.recvSwitch deadline) →
      Step s (s.saveContext c pid (.recv deadline))
  /-- A process calls `exit`. -/
  | callExit {s : Machine n μ} {c : Fin n} {pid : Pid} (reason : String) :
      (s.cpu c).loc = .exec pid .body → pid ≠ 0 → Step s (s.setLoc c (.exec pid (.exit reason)))
  /-- `exit` marks the process dead. -/
  | exit {s : Machine n μ} {c : Fin n} {pid : Pid} {reason : String} :
      (s.cpu c).loc = .exec pid (.exit reason) → Step s (s.die c pid reason .exitSwitch)
  /-- The dead process switches to the scheduler. -/
  | exitSwitch {s : Machine n μ} {c : Fin n} {pid : Pid} :
      (s.cpu c).loc = .exec pid .exitSwitch → Step s (s.saveContext c pid .unreachable)
  /-- A guard page is hit and `fatal_current` marks the process dead. This may happen anywhere on
  the stack of a process but while it queues a child: that `enqueue` does not overflow the stack
  is assumed. -/
  | fatal {s : Machine n μ} {c : Fin n} {pid : Pid} {pos : Pos} {reason : String} :
      (s.cpu c).loc = .exec pid pos → pid ≠ 0 → (∀ child ref, pos ≠ .spawnEnqueue child ref) →
      Step s (s.die c pid reason .fatalSwitch)
  /-- The exception handler switches to the scheduler and saves nothing. -/
  | fatalSwitch {s : Machine n μ} {c : Fin n} {pid : Pid} :
      (s.cpu c).loc = .exec pid .fatalSwitch → Step s (s.setLoc c (.switched pid))

/-- Boot: all cores run boot code and there is no process. -/
def Init (s : Machine n μ) : Prop :=
  (∀ c, s.cpu c = ⟨.exec 0 .body, [], .none⟩) ∧ (∀ pid, s.table pid = none) ∧ s.wheel = [] ∧
    s.nextPid = 1 ∧ s.nextRef = 1 ∧ s.monitorAtSpawn = none ∧ s.inserted = [] ∧ s.reaped = [] ∧
    s.finalized = []

/-- The states of a machine after boot. -/
abbrev Reachable (s : Machine n μ) : Prop := Transition.Reaches Init Step s

end Yggdrasil.Sched
