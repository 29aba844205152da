import Yggdrasil.Ports.Port
import Yggdrasil.Lib.Transition

/-!
# The port runtime on several cores

Cores submit and pump concurrently. What they do while they hold the lock on the ports
is one step, and so is each delivery. Completions are delivered after the lock is
released.
-/

namespace Yggdrasil.Ports

variable {n : ℕ} {δ : Type}

/-- Where a core stands in the port runtime. -/
inductive Loc where
  /-- Elsewhere. -/
  | idle
  /-- `open` has a number for the new port. -/
  | opening (id owner : ℕ) (kind : PortKind)
  /-- `pump` begins. -/
  | pumping
  /-- `pump` has released the lock and delivers completions. -/
  | delivering (ds : List Delivery)

/-- `n` cores and the ports they share. -/
structure Machine (n : ℕ) (δ : Type) where
  /-- The cores. -/
  core : Fin n → Loc
  /-- The ports by number. -/
  ports : ℕ → Option Port
  /-- The next number of a port. -/
  nextPort : ℕ
  /-- What the drivers share. -/
  hub : Hub δ
  /-- Processes that are dead. -/
  dead : ℕ → Bool
  /-- History: the submissions accepted, by port. -/
  accepted : ℕ → List Sqe
  /-- History: the completions that reached the owner's mailbox, by port. -/
  delivered : ℕ → List Cqe
  /-- History: the bytes put in the serial ring. -/
  received : List UInt8

/-- What may happen: a step of a core, an interrupt, a device, or a death. -/
inductive Event (n : ℕ) (δ : Type) where
  /-- Process `owner` calls `open`, which takes a number. -/
  | openTake (c : Fin n) (owner : ℕ) (kind : PortKind)
  /-- `open` inserts the port. -/
  | openInsert (c : Fin n)
  /-- Some process calls `submit`. -/
  | submit (c : Fin n) (id : ℕ) (sqe : Sqe)
  /-- The scheduler loop calls `pump`. -/
  | pump (c : Fin n)
  /-- `pump` collects completions. -/
  | collect (c : Fin n)
  /-- `pump` delivers one completion. -/
  | deliver (c : Fin n)
  /-- `pump` returns. -/
  | finish (c : Fin n)
  /-- The interrupt handler receives a byte. -/
  | irq (b : UInt8)
  /-- The devices go on. -/
  | device (dev : δ)
  /-- Other users change the buffer table. -/
  | buffers (buffers : Buffers Word (List UInt8))
  /-- A process dies. -/
  | die (pid : ℕ)
  /-- `close_owned_by`: the ports of a dead process are closed. -/
  | close (pid : ℕ)

namespace Machine

/-- Move a core. -/
def setCore (c : Fin n) (loc : Loc) (s : Machine n δ) : Machine n δ :=
  { s with core := Function.update s.core c loc }

/-- The locked part of `submit`, and the call of `pump` that follows if it succeeds. -/
def submit (io : Devices δ) (c : Fin n) (id : ℕ) (sqe : Sqe) (s : Machine n δ) : Machine n δ :=
  match s.ports id with
  | none => s
  | some p =>
    match p.submit (driver io) sqe s.hub with
    | (none, _) => s
    | (some p', hub) =>
      { s with
        ports := Function.update s.ports id (some p')
        hub := hub
        accepted := Function.update s.accepted id (s.accepted id ++ [sqe]) }.setCore c .pumping

/-- The locked part of `pump`; ports are visited in the order of their numbers. -/
def collect (io : Devices δ) (c : Fin n) (s : Machine n δ) : Machine n δ :=
  let r := pumpPorts (serve io) (List.range s.nextPort) s.ports s.hub
  { s with ports := r.1.2, hub := r.2 }.setCore c (.delivering r.1.1)

/-- `deliver`: the owner gets the completion unless it is dead. -/
def deliver (d : Delivery) (s : Machine n δ) : Machine n δ :=
  if s.dead d.owner then s
  else { s with
    delivered := Function.update s.delivered d.port (s.delivered d.port ++ [d.cqe]) }

/-- `serial_rx_irq` for one byte, which is lost if the ring is full. -/
def irq (b : UInt8) (s : Machine n δ) : Machine n δ :=
  match s.hub.serialRx.push b with
  | none => s
  | some rx => { s with hub := { s.hub with serialRx := rx }, received := s.received ++ [b] }

/-- `close_owned_by`. -/
def close (pid : ℕ) (s : Machine n δ) : Machine n δ :=
  { s with ports := fun id => (s.ports id).filter fun p => p.owner ≠ pid }

/-- A new port. -/
def newPort (owner : ℕ) (kind : PortKind) : Port := ⟨owner, kind, .empty, .empty, .empty, []⟩

/-- The locked part of `open`. -/
def insert (c : Fin n) (id owner : ℕ) (kind : PortKind) (s : Machine n δ) : Machine n δ :=
  { s with ports := Function.update s.ports id (some (newPort owner kind)) }.setCore c .idle

/-- What an event does, if it can happen. -/
def step (io : Devices δ) (s : Machine n δ) : Event n δ → Option (Machine n δ)
  | .openTake c owner kind =>
    match s.core c with
    | .idle =>
      if kind = .serial ∨ io.has kind = true then
        some ({ s with nextPort := s.nextPort + 1 }.setCore c (.opening s.nextPort owner kind))
      else some s
    | _ => none
  | .openInsert c =>
    match s.core c with
    | .opening id owner kind => some (s.insert c id owner kind)
    | _ => none
  | .submit c id sqe =>
    match s.core c with
    | .idle => some (s.submit io c id sqe)
    | _ => none
  | .pump c =>
    match s.core c with
    | .idle => some (s.setCore c .pumping)
    | _ => none
  | .collect c =>
    match s.core c with
    | .pumping => some (s.collect io c)
    | _ => none
  | .deliver c =>
    match s.core c with
    | .delivering (d :: ds) => some ((s.deliver d).setCore c (.delivering ds))
    | _ => none
  | .finish c =>
    match s.core c with
    | .delivering [] => some (s.setCore c .idle)
    | _ => none
  | .irq b => some (s.irq b)
  | .device dev => some { s with hub := { s.hub with dev := dev } }
  | .buffers buffers => some { s with hub := { s.hub with buffers := buffers } }
  | .die pid => some { s with dead := Function.update s.dead pid true }
  | .close pid => if s.dead pid then some (s.close pid) else none

end Machine

/-- Boot: no ports, no input. Code outside processes gets no messages. -/
def Init (s : Machine n δ) : Prop :=
  (∀ c, s.core c = .idle) ∧ (∀ id, s.ports id = none) ∧ s.nextPort = 1 ∧
    s.hub.serialRx.entries = [] ∧ s.dead 0 = true ∧ (∀ id, s.accepted id = []) ∧
    (∀ id, s.delivered id = []) ∧ s.received = []

/-- A step by an event that meets a condition on the state before it. -/
def StepIf (io : Devices δ) (ok : Machine n δ → Event n δ → Prop) (s s' : Machine n δ) : Prop :=
  ∃ e, ok s e ∧ s.step io e = some s'

/-- The states that runs of events under a condition lead to. -/
abbrev ReachesIf (io : Devices δ) (ok : Machine n δ → Event n δ → Prop) : Machine n δ → Prop :=
  Transition.Reaches Init (StepIf io ok)

/-- A run goes on with an event. -/
theorem ReachesIf.event {io : Devices δ} {ok : Machine n δ → Event n δ → Prop}
    {s s' : Machine n δ} (h : ReachesIf io ok s) (e : Event n δ) (hok : ok s e)
    (hstep : s.step io e = some s') : ReachesIf io ok s' :=
  h.step ⟨e, hok, hstep⟩

/-- The states that all runs lead to. -/
abbrev Reachable (io : Devices δ) : Machine n δ → Prop := ReachesIf io fun _ _ => True

/-- A run goes on with events that meet the condition in every state. -/
theorem ReachesIf.events {io : Devices δ} {ok : Machine n δ → Event n δ → Prop}
    {s s' : Machine n δ} (h : ReachesIf io ok s) (es : List (Event n δ))
    (hok : ∀ s, ∀ e ∈ es, ok s e) (hrun : Transition.run (Machine.step io) es s = some s') :
    ReachesIf io ok s' :=
  Transition.Reaches.run h es (fun s _ e he hstep => ⟨e, hok s e he, hstep⟩) hrun

end Yggdrasil.Ports
