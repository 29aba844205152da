import Yggdrasil.Ports.Ring

/-!
# Ports and their drivers

A port is a submission ring, a completion ring and a ring of parked reads. The drivers
take submissions and complete them at once or park them; the pump completes parked reads
as input arrives and takes the completions out for delivery. Both are written over what they
call: one model of the calls is given here, where the devices are arbitrary functions on their
state and nothing panics.
-/

namespace Yggdrasil

/-- The kinds of ports. -/
inductive PortKind where
  | serial
  | blk
  | net
  | gpu
  | rng
  deriving DecidableEq, Repr

/-- The devices, by what the drivers get from them. -/
structure Devices (δ : Type) where
  /-- Which kinds of ports can be opened. -/
  has : PortKind → Bool
  /-- `serial::raw_write_byte`. -/
  rawWriteByte : UInt8 → δ → δ
  /-- `virtio::blk_write`: whether a sector was written. -/
  blkWrite : Word → List UInt8 → δ → Bool × δ
  /-- `virtio::blk_read`. -/
  blkRead : Word → δ → Option (List UInt8) × δ
  /-- `virtio::random_bytes`. -/
  randomBytes : ℕ → δ → Option (List UInt8) × δ
  /-- `virtio::net_send`: whether a frame was sent. -/
  netSend : List UInt8 → δ → Bool × δ
  /-- `virtio::net_try_recv`. -/
  netTryRecv : δ → Option (List UInt8) × δ
  /-- `virtio::gpu_ctrl` with a command and the capacity for the response. -/
  gpuCtrl : List UInt8 → ℕ → δ → Option (List UInt8) × δ
  /-- The physical address of a buffer. -/
  virtToPhys : Word → δ → Word

/-- The bytes of a buffer with a part overwritten in place. -/
def overwrite (off : ℕ) (data bytes : List UInt8) : List UInt8 :=
  bytes.take off ++ data ++ bytes.drop (off + data.length)

/-- Overwriting a part inside the buffer keeps its length. -/
theorem length_overwrite {off : ℕ} {data bytes : List UInt8}
    (h : off + data.length ≤ bytes.length) : (overwrite off data bytes).length = bytes.length := by
  simp only [overwrite, List.length_append, List.length_take, List.length_drop]
  omega

/-- The buffer table: buffers `β` by numbers `ι`. -/
structure Buffers (ι β : Type) where
  /-- The buffers by number. -/
  data : ι → Option β
  /-- Buffers that devices use as backing store. -/
  pinned : ι → Bool
  /-- The next number. -/
  next : ι

namespace Buffers

variable {ι β : Type} [DecidableEq ι]

/-- `buf_create`. -/
def create [Add ι] [OfNat ι 1] (b : β) (t : Buffers ι β) : ι × Buffers ι β :=
  (t.next, { t with data := Function.update t.data t.next (some b), next := t.next + 1 })

/-- `buf_take`: pinned buffers stay. -/
def take (id : ι) (t : Buffers ι β) : Option β × Buffers ι β :=
  if t.pinned id then (none, t)
  else (t.data id, { t with data := Function.update t.data id none })

/-- `buf_pin`, with the length of the buffer. -/
def pin (length : β → ℕ) (id : ι) (t : Buffers ι β) : Option ℕ × Buffers ι β :=
  match t.data id with
  | none => (none, t)
  | some b => (some (length b), { t with pinned := Function.update t.pinned id true })

end Buffers

/-- What the drivers share. -/
structure HubOf (β δ : Type) where
  /-- The serial receive ring, filled by the interrupt handler. -/
  serialRx : Ring UInt8 256
  /-- The buffer table. -/
  buffers : Buffers Word β
  /-- The devices. -/
  dev : δ

namespace HubOf

variable {α β δ : Type} {m : Type → Type} [Monad m]

/-- Change the buffer table. -/
def onBuffers (f : Buffers Word β → α × Buffers Word β) : StateT (HubOf β δ) m α := fun h =>
  pure ((f h.buffers).1, { h with buffers := (f h.buffers).2 })

/-- Ask a device. -/
def ask (f : δ → α × δ) : StateT (HubOf β δ) m α := fun h =>
  pure ((f h.dev).1, { h with dev := (f h.dev).2 })

/-- Take a byte out of the serial receive ring. -/
def popSerial : StateT (HubOf β δ) m (Option UInt8) := fun h =>
  match h.serialRx.pop with
  | some (b, rx) => pure (some b, { h with serialRx := rx })
  | none => pure (none, h)

end HubOf

/-- What they share where a buffer is its bytes. -/
abbrev Hub (δ : Type) := HubOf (List UInt8) δ

/-- A port, of a kind in `κ`. -/
structure PortOf (κ : Type) where
  /-- The process that gets the completions. -/
  owner : ℕ
  /-- Its kind. -/
  kind : κ
  /-- The submission ring. -/
  sq : Ring Sqe 64
  /-- The completion ring. -/
  cq : Ring Cqe 64
  /-- Reads waiting for input. -/
  pendingReads : Ring Sqe 64
  /-- History: all completions pushed to the completion ring. -/
  pushed : List Cqe

/-- A port of one of the kinds there are. -/
abbrev Port := PortOf PortKind

/-- WRITE. -/
def opWrite : UInt32 := 1

/-- READ. -/
def opRead : UInt32 := 2

/-- FLUSH. -/
def opFlush : UInt32 := 3

/-- TRY_READ. -/
def opTryRead : UInt32 := 4

/-- CTRL of a gpu. -/
def opCtrl : UInt32 := 1

/-- CTRL_ATTACH of a gpu. -/
def opCtrlAttach : UInt32 := 2

/-- The largest number of random bytes in one request. -/
def rngMaxRequest : ℕ := 4096

namespace PortOf

variable {κ : Type}

/-- Push a completion, which is lost if the ring is full. -/
def complete (cqe : Cqe) (p : PortOf κ) : PortOf κ :=
  match p.cq.push cqe with
  | some cq => { p with cq := cq, pushed := p.pushed ++ [cqe] }
  | none => p

/-- Complete a submission, unless its tag suppresses that. -/
def finish (sqe : Sqe) (result : Word) (byte : Option UInt8) (p : PortOf κ) : PortOf κ :=
  if sqe.tag ≠ skipCqe then p.complete ⟨sqe.tag, result, byte⟩ else p

/-- Park a read, which is lost if the ring is full. -/
def park (sqe : Sqe) (p : PortOf κ) : PortOf κ :=
  { p with pendingReads := p.pendingReads.offer sqe }

end PortOf

/-- What the drivers and the pump call. -/
structure Calls (m : Type → Type) (β : Type) where
  /-- `serial::raw_write_byte`. -/
  rawWriteByte : UInt8 → m Unit
  /-- `pop` of the serial receive ring. -/
  popSerial : m (Option UInt8)
  /-- `buf_create`. -/
  bufCreate : β → m Word
  /-- `buf_take`. -/
  bufTake : Word → m (Option β)
  /-- `buf_get`. -/
  bufGet : Word → m (Option β)
  /-- `buf_pin`. -/
  bufPin : Word → m (Option ℕ)
  /-- `virtio::blk_write`. -/
  blkWrite : Word → β → m Bool
  /-- `virtio::blk_read`. -/
  blkRead : Word → m (Option β)
  /-- `virtio::random_bytes`. -/
  randomBytes : ℕ → m (Option β)
  /-- `virtio::net_send`. -/
  netSend : β → m Bool
  /-- `virtio::net_try_recv`. -/
  netTryRecv : m (Option β)
  /-- `virtio::gpu_ctrl`. -/
  gpuCtrl : β → ℕ → m (Option β)
  /-- The physical address of a buffer. -/
  virtToPhys : Word → m Word
  /-- `extend_from_slice`. -/
  extendFromSlice : β → List UInt8 → m β

section Drivers

variable {m : Type → Type} [Monad m] {β κ : Type} (k : Calls m β)

/-- The low byte of a word. -/
def lowByte (w : Word) : UInt8 := UInt8.ofBitVec (w.setWidth 8)

/-- One round of `serial_drain_sq`. -/
def serialSqe (sqe : Sqe) (p : PortOf κ) : m (PortOf κ) := do
  if sqe.op = opWrite then
    k.rawWriteByte (lowByte sqe.arg0)
    return p.finish sqe 0 none
  else if sqe.op = opRead then return p.park sqe
  else if sqe.op = opTryRead then
    match ← k.popSerial with
    | some b => return p.finish sqe (b.toBitVec.setWidth 64) (some b)
    | none => return p.finish sqe (-1) none
  else return p.finish sqe (-1) none

/-- The number of a new buffer, or an error. -/
def created : Option β → m Word
  | some b => k.bufCreate b
  | none => return -1

/-- The result of a blk request. -/
def blkResult (sqe : Sqe) : m Word := do
  if sqe.op = opWrite then
    match ← k.bufGet sqe.arg1 with
    | some b => return if ← k.blkWrite sqe.arg0 b then 0 else -1
    | none => return -1
  else if sqe.op = opRead then created k (← k.blkRead sqe.arg0)
  else if sqe.op = opFlush then return 0
  else return -1

/-- The result of a rng request. -/
def rngResult (sqe : Sqe) : m Word := do
  if sqe.op ≠ opRead ∨ sqe.arg0 = 0 ∨ rngMaxRequest < sqe.arg0.toNat then return -1
  else created k (← k.randomBytes sqe.arg0.toNat)

/-- The result of sending the buffer of a net request. -/
def netResult (sqe : Sqe) : m Word := do
  match ← k.bufTake sqe.arg1 with
  | some frame => return if ← k.netSend frame then 0 else -1
  | none => return -1

/-- Little-endian bytes of a machine integer. -/
def wordBytes {w : ℕ} (v : BitVec w) (k : ℕ) : List UInt8 :=
  (List.range k).map fun i => UInt8.ofBitVec ((v >>> (8 * i)).setWidth 8)

/-- The memory entry of a backing buffer: its address, its length and padding. -/
def memEntry (phys : Word) (len : ℕ) : List (List UInt8) :=
  [wordBytes phys 8, wordBytes (BitVec.ofNat 32 len) 4, wordBytes (0 : BitVec 32) 4]

/-- The result of a gpu request. -/
def gpuResult (sqe : Sqe) : m Word := do
  if sqe.op = opCtrl then
    match ← k.bufTake sqe.arg0 with
    | some cmd => created k (← k.gpuCtrl cmd sqe.arg1.toNat)
    | none => return -2
  else if sqe.op = opCtrlAttach then
    match ← k.bufTake sqe.arg0, ← k.bufPin sqe.arg1 with
    | some cmd, some len =>
      let phys ← k.virtToPhys sqe.arg1
      let cmd ← (memEntry phys len).foldlM k.extendFromSlice cmd
      created k (← k.gpuCtrl cmd 24)
    | _, _ => return -2
  else return -1

/-- One round of a driver that completes at once. -/
def syncSqe (result : Sqe → m Word) (sqe : Sqe) (p : PortOf κ) : m (PortOf κ) := do
  return p.finish sqe (← result sqe) none

/-- One round of `blk_drain_sq`. -/
def blkSqe : Sqe → PortOf κ → m (PortOf κ) := syncSqe (blkResult k)

/-- One round of `rng_drain_sq`. -/
def rngSqe : Sqe → PortOf κ → m (PortOf κ) := syncSqe (rngResult k)

/-- One round of `gpu_drain_sq`. -/
def gpuSqe : Sqe → PortOf κ → m (PortOf κ) := syncSqe (gpuResult k)

/-- One round of `net_drain_sq`. -/
def netSqe (sqe : Sqe) (p : PortOf κ) : m (PortOf κ) :=
  if sqe.op = opWrite then syncSqe (netResult k) sqe p
  else if sqe.op = opRead then return p.park sqe
  else return p.finish sqe (-1) none

/-- A driver takes all entries of the submission ring; it never adds one. -/
def drainSq (driver : κ → Sqe → PortOf κ → m (PortOf κ)) (p : PortOf κ) : m (PortOf κ) :=
  p.sq.entries.foldlM (fun p' sqe => driver p.kind sqe p') { p with sq := .empty }

/-- The locked part of `submit` on an open port; `none` if the submission ring is full. -/
def PortOf.submit (driver : κ → Sqe → PortOf κ → m (PortOf κ)) (sqe : Sqe) (p : PortOf κ) :
    m (Option (PortOf κ)) := do
  match p.sq.push sqe with
  | none => return none
  | some sq => return some (← drainSq driver { p with sq := sq })

/-- The pump matches received bytes with parked reads, in at most `n` rounds. -/
def serveSerial : ℕ → PortOf κ → m (PortOf κ)
  | 0, p => return p
  | n + 1, p => do
    match p.pendingReads.pop with
    | none => return p
    | some (sqe, reads) =>
      match ← k.popSerial with
      | none => return p
      | some b =>
        serveSerial n
          ({ p with pendingReads := reads }.complete ⟨sqe.tag, b.toBitVec.setWidth 64, some b⟩)

/-- The pump matches received frames with parked reads, in at most `n` rounds. -/
def serveNet : ℕ → PortOf κ → m (PortOf κ)
  | 0, p => return p
  | n + 1, p => do
    match p.pendingReads.pop with
    | none => return p
    | some (sqe, reads) =>
      match ← k.netTryRecv with
      | none => return p
      | some frame =>
        let id ← k.bufCreate frame
        serveNet n ({ p with pendingReads := reads }.complete ⟨sqe.tag, id, none⟩)

/-- A completion on its way to the owner of a port. -/
structure Delivery where
  /-- The owner. -/
  owner : ℕ
  /-- The port. -/
  port : ℕ
  /-- The completion. -/
  cqe : Cqe
  deriving DecidableEq, Repr

/-- The locked part of `pump` for one port: its completions are taken out. -/
def pumpPort (serve : PortOf κ → m (PortOf κ)) (p : PortOf κ) : m (List Cqe × PortOf κ) := do
  let p ← serve p
  return (p.cq.entries, { p with cq := .empty })

/-- The locked part of `pump` over the ports with the given numbers. -/
def pumpPorts (serve : PortOf κ → m (PortOf κ)) :
    List ℕ → (ℕ → Option (PortOf κ)) → m (List Delivery × (ℕ → Option (PortOf κ)))
  | [], ports => return ([], ports)
  | id :: ids, ports => do
    match ports id with
    | none => pumpPorts serve ids ports
    | some p =>
      let (cqes, p') ← pumpPort serve p
      let (ds, ports) ← pumpPorts serve ids (Function.update ports id (some p'))
      return (cqes.map (⟨p.owner, id, ·⟩) ++ ds, ports)

end Drivers

section Devices

variable {δ : Type} (io : Devices δ)

/-- Kernel code that never panics, where buffers are their bytes. -/
abbrev Runs (δ : Type) := StateM (Hub δ)

/-- The buffer table and the devices as the drivers call them. -/
def Devices.calls : Calls (Runs δ) (List UInt8) where
  rawWriteByte b := HubOf.ask fun d => ((), io.rawWriteByte b d)
  popSerial := HubOf.popSerial
  bufCreate b := HubOf.onBuffers (·.create b)
  bufTake id := HubOf.onBuffers (·.take id)
  bufGet id := HubOf.onBuffers fun t => (t.data id, t)
  bufPin id := HubOf.onBuffers (·.pin List.length id)
  blkWrite sector b := HubOf.ask (io.blkWrite sector b)
  blkRead sector := HubOf.ask (io.blkRead sector)
  randomBytes length := HubOf.ask (io.randomBytes length)
  netSend frame := HubOf.ask (io.netSend frame)
  netTryRecv := HubOf.ask io.netTryRecv
  gpuCtrl cmd capacity := HubOf.ask (io.gpuCtrl cmd capacity)
  virtToPhys id := HubOf.ask fun d => (io.virtToPhys id d, d)
  extendFromSlice b xs := return b ++ xs

/-- The driver of a kind of port. -/
def driver : PortKind → Sqe → Port → Runs δ Port
  | .serial => serialSqe io.calls
  | .blk => blkSqe io.calls
  | .net => netSqe io.calls
  | .gpu => gpuSqe io.calls
  | .rng => rngSqe io.calls

/-- The pump completes parked reads; every round takes one of them. -/
def serve (p : Port) : Runs δ Port :=
  match p.kind with
  | .serial => serveSerial io.calls p.pendingReads.entries.length p
  | .net => serveNet io.calls p.pendingReads.entries.length p
  | .blk | .gpu | .rng => return p

end Devices

end Yggdrasil
