import Yggdrasil.Modload.Table
import Yggdrasil.Interp.Run
import Yggdrasil.Ports.Ring

/-!
# The system interface over the kernel

The kernel's implementation of the engines' interface for the code of one loaded
module. The services below it, such as sending, receiving and ports, are parameters
that act on the whole kernel state, since other processes may run while they wait.
The pending tail-call target is kept per core, outside their reach: it is written
last before a function returns and read first thing afterwards.
-/

namespace Yggdrasil

/-- The kernel state as the module loader sees it. -/
structure Kernel (σ : Type) where
  /-- Processes, memory and devices. -/
  host : σ
  /-- The module table. -/
  modules : ModuleTable
  /-- The registry of running versions. -/
  running : Running
  /-- The atom table. -/
  atoms : AtomTable

/-- The kernel state and the executing core's pending tail-call target. -/
structure Core (σ : Type) where
  /-- The kernel state. -/
  kernel : Kernel σ
  /-- The stashed tail-call target. -/
  tailTarget : Option TailTarget

/-- The kernel services under the system interface. -/
structure Services (σ : Type) where
  /-- Memory and the heap of the running process. -/
  store : Kernel σ → Store
  /-- Replace memory and heap after an allocation. -/
  setStore : Store → Kernel σ → Kernel σ
  /-- The running process. -/
  current : σ → Word
  /-- `proc::send`: whether the message was delivered. -/
  send : Word → Term → Effect (Kernel σ) Bool
  /-- `proc::recv`. -/
  recv : Effect (Kernel σ) Term
  /-- `spawn_fn`: a process running a function of the instance. -/
  spawnFn : LoadedModule → UInt32 → Term → Effect (Kernel σ) Word
  /-- `proc::safepoint`. -/
  safepoint : Effect (Kernel σ) Unit
  /-- `print_term`. -/
  printTerm : Term → Effect (Kernel σ) Unit
  /-- `ports::open`. -/
  portOpen : UInt8 → Effect (Kernel σ) (Option Term)
  /-- `ports::submit`: whether the entry was accepted. -/
  portSubmit : Word → Sqe → Effect (Kernel σ) Bool
  /-- `ports::buf_write`. -/
  bufWrite : Word → ℕ → List UInt8 → Effect (Kernel σ) Bool
  /-- `ports::buf_create`. -/
  bufCreate : List UInt8 → Effect (Kernel σ) Word
  /-- `ports::buf_read`. -/
  bufRead : Word → ℕ → ℕ → Effect (Kernel σ) (Option (List UInt8))
  /-- `ports::buf_take`. -/
  bufTake : Word → Effect (Kernel σ) (Option (List UInt8))
  /-- `proc::grow_current_heap`. -/
  growHeap : Effect (Kernel σ) Bool
  /-- `proc::recv_where` with a predicate that never holds. -/
  recvNever : Word → Effect (Kernel σ) Unit
  /-- `irq::ticks`. -/
  ticks : Kernel σ → Word

/-- A single process without devices or room to grow. -/
def Services.isolated : Services Store where
  store k := k.host
  setStore st k := { k with host := st }
  current _ := 1
  send _ _ := pure false
  recv := throw .gone
  spawnFn _ _ _ := throw .gone
  safepoint := pure ()
  printTerm _ := pure ()
  portOpen _ := pure none
  portSubmit _ _ := pure false
  bufWrite _ _ _ := pure false
  bufCreate _ := throw .gone
  bufRead _ _ _ := pure none
  bufTake _ := pure none
  growHeap := pure false
  recvNever _ := pure ()
  ticks _ := 0

/-- Record that a process executes an instance. -/
def Kernel.noteRunning {σ : Type} (k : Kernel σ) (pid : Word) (m : LoadedModule) : Kernel σ :=
  { k with running := Function.update k.running pid (some (m.name, m.version)) }

namespace Core

variable {σ ε α : Type}

/-- A computation on the kernel state leaves the tail target alone. -/
def onKernel (x : EStateM ε (Kernel σ) α) : EStateM ε (Core σ) α := fun c =>
  match x c.kernel with
  | .ok a k => .ok a { c with kernel := k }
  | .error e k => .error e { c with kernel := k }

/-- A service as a callback that may trap. -/
def attempt (x : Effect (Kernel σ) α) : Attempt (Core σ) α := fun c =>
  match x c.kernel with
  | .ok a k => .ok a { c with kernel := k }
  | .error .gone k => .error .gone { c with kernel := k }

/-- Trap unless there is a value. -/
def okOr (t : Trap) : Option α → Attempt (Core σ) α
  | some a => pure a
  | none => throw (.trap t)

/-- Record the instance the running process executes. -/
def noteRunning (svc : Services σ) (m : LoadedModule) (c : Core σ) : Core σ :=
  { c with kernel := c.kernel.noteRunning (svc.current c.kernel.host) m }

end Core

namespace KernelApi

variable {σ : Type} (svc : Services σ) (limit : ℕ)

/-- `alloc_retry`: allocate, growing the heap while it is full; the process exits
at its quota. -/
def allocRetry (f : HeapM Term) : ℕ → Attempt (Core σ) Term
  | 0 => throw .gone
  | n + 1 => fun c =>
    match f (svc.store c.kernel) with
    | .ok t st => .ok t { c with kernel := svc.setStore st c.kernel }
    | .error _ st =>
      (do
        if ← Core.attempt svc.growHeap then allocRetry f n
        else throw .gone : Attempt (Core σ) Term) { c with kernel := svc.setStore st c.kernel }

/-- The bytes of a binary term, or a trap. -/
def binary (bin : Term) (ok : Bool) : Attempt (Core σ) (List UInt8) := fun c =>
  let mem := (svc.store c.kernel).mem
  if bin.isBoxed then
    match bin.kind mem with
    | none => .error .panic c
    | some .binary => if ok then .ok (bin.binBytes mem) c else .error (.trap .badarg) c
    | some _ => .error (.trap .badarg) c
  else .error (.trap .badarg) c

/-- `port_submit`: submit a request with one argument. -/
def portSubmit (port : Term) (op : UInt8) (arg0 tag : Term) : Attempt (Core σ) Unit := do
  let id ← Core.okOr .badarg port.asPort
  let a0 ← Core.okOr .badarg arg0.asInt
  let tg ← Core.okOr .badarg tag.asInt
  if ← Core.attempt (svc.portSubmit id ⟨op.toUInt32, tg, a0, 0⟩) then return ()
  else throw (.trap .badarg)

/-- `port_submit2`: submit a request with two arguments. -/
def portSubmit2 (port op arg0 arg1 tag : Term) : Attempt (Core σ) Unit := do
  let id ← Core.okOr .badarg port.asPort
  let o ← Core.okOr .badarg op.asInt
  let tg ← Core.okOr .badarg tag.asInt
  let a0 ← Core.okOr .badarg arg0.asInt
  let a1 ← Core.okOr .badarg arg1.asInt
  if ← Core.attempt (svc.portSubmit id ⟨UInt32.ofBitVec (o.setWidth 32), tg, a0, a1⟩) then return ()
  else throw (.trap .badarg)

/-- `buf_write`: copy a binary into a buffer. -/
def bufWrite (buf off bin : Term) : Attempt (Core σ) Term := do
  let id ← Core.okOr .badarg buf.asInt
  let o ← Core.okOr .badarg off.asInt
  let data ← binary svc bin (0 ≤ o.toInt)
  if ← Core.attempt (svc.bufWrite id o.toNat data) then return Term.int 0
  else throw (.trap .badarg)

/-- `buf_new`: a buffer of zero bytes. -/
def bufNew (size : Term) : Attempt (Core σ) Term := do
  let n ← Core.okOr .badarg size.asInt
  if n.toInt < 0 ∨ 2 ^ 26 < n.toInt then throw (.trap .badarg)
  return Term.int (← Core.attempt (svc.bufCreate (List.replicate n.toNat 0)))

/-- `buf_read`: part of a buffer as a binary. -/
def bufRead (buf off len : Term) : Attempt (Core σ) Term := do
  let id ← Core.okOr .badarg buf.asInt
  let o ← Core.okOr .badarg off.asInt
  let n ← Core.okOr .badarg len.asInt
  if o.toInt < 0 ∨ n.toInt < 0 then throw (.trap .badarg)
  let data ← Core.okOr .badarg (← Core.attempt (svc.bufRead id o.toNat n.toNat))
  allocRetry svc (Heap.binary data) limit

/-- `buf_to_bin`: take a buffer out of the table as a binary. -/
def bufToBin (id : Word) : Attempt (Core σ) Term := do
  let data ← Core.okOr .badarg (← Core.attempt (svc.bufTake id))
  allocRetry svc (Heap.binary data) limit

/-- `bin_to_buf`: a buffer with the bytes of a binary. -/
def binToBuf (bin : Term) : Attempt (Core σ) Term := do
  let data ← binary svc bin true
  return Term.int (← Core.attempt (svc.bufCreate data))

/-- `atom_global`: the global index of an atom of the module. -/
def atomGlobal (m : LoadedModule) (a : UInt32) : Effect (Core σ) UInt32 := fun c =>
  match m.atomMap[a.toNat]? with
  | some g => .ok g c
  | none =>
    let (atoms, g) := c.kernel.atoms.intern "?"
    .ok g { c with kernel.atoms := atoms }

/-- The interface for the code of instance `m`, apart from calls that leave the
function. -/
def base (m : LoadedModule) : SystemApi (Core σ) where
  store c := svc.store c.kernel
  setStore st c := { c with kernel := svc.setStore st c.kernel }
  selfPid c := svc.current c.kernel.host
  send dst msg := do
    let pid ← Core.okOr .badarg dst.asPid
    let _ ← Core.attempt (svc.send pid msg)
  recv := Core.onKernel svc.recv
  spawn fn arg := do
    if m.module.functions[fn.toNat]?.isNone then throw (.trap .badCode)
    Core.attempt (svc.spawnFn m fn arg)
  safepoint := Core.onKernel svc.safepoint
  atomGlobal := atomGlobal m
  print t := Core.onKernel (svc.printTerm t)
  portOpen kind := do Core.okOr .badarg (← Core.attempt (svc.portOpen kind))
  portSubmit := portSubmit svc
  callExt _ _ _ := throw .gone
  bufToBin := bufToBin svc limit
  binToBuf := binToBuf svc
  heapGrow := Core.onKernel svc.growHeap
  tailCall _ _ _ := throw .gone
  tailCallLocal _ _ := throw .gone
  bufWrite := bufWrite svc
  bufNew := bufNew svc
  bufRead := bufRead svc limit
  sleepMs ms := Core.onKernel (svc.recvNever ms)
  ticks c := Term.int (svc.ticks c.kernel)
  portSubmit2 := portSubmit2 svc

end KernelApi

end Yggdrasil
