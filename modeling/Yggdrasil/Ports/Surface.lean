import Yggdrasil.Ports.Port
import Yggdrasil.Lib.Transition

/-!
# What the port surface asserts

The operations on ports and buffers that a program can perform, with every `unwrap`,
`unreachable!`, slice index, driver precondition and allocation on their way as an outcome of
its own. What runs under the lock on the ports is one step; interrupts, devices and pumps
interleave. The kernel heap has a fixed size, and a request for more than all of it panics.
-/

namespace Yggdrasil.Surface

/-- Why the kernel panics. -/
inductive Panic where
  /-- `unwrap` on `None`. -/
  | unwrapNone
  /-- `unreachable!`. -/
  | unreachable
  /-- A slice index is out of bounds. -/
  | index
  /-- `write_blocks` got a buffer that is not made of whole sectors. -/
  | writeBlocks
  /-- `add_notify_wait_pop` panics. -/
  | addNotifyWaitPop
  /-- An allocation of more bytes than the kernel heap has. -/
  | alloc (bytes : ℕ)
  deriving DecidableEq, Repr

/-- Bytes of a sector, `SECTOR_SIZE`. -/
def sectorSize : ℕ := 512

/-- Bytes of a receive buffer, `NET_BUF_LEN`. -/
def netBufLen : ℕ := 2048

/-- A vector of bytes, and the size of its allocation. -/
structure Buffer where
  /-- The bytes. -/
  data : List UInt8
  /-- The capacity. -/
  cap : ℕ
  deriving DecidableEq, Repr

/-- What the drivers get from the devices. Devices that are not there are never asked. -/
structure Virtio (δ : Type) where
  /-- `has_blk`, `has_net`, `has_gpu` and `has_rng`, by kind of port. -/
  has : UInt8 → Bool
  /-- `serial::raw_write_byte`. -/
  rawWriteByte : UInt8 → δ → δ
  /-- `write_blocks` of whole sectors. -/
  writeBlocks : Word → List UInt8 → δ → Bool × δ
  /-- `flush`. -/
  flush : δ → Bool × δ
  /-- `read_blocks` of one sector. -/
  readBlocks : Word → δ → Option (Vector UInt8 512) × δ
  /-- `request_entropy` into a buffer of a length: the bytes received. -/
  requestEntropy : ℕ → δ → Option (List UInt8) × δ
  /-- `send` of a frame. -/
  send : List UInt8 → δ → Bool × δ
  /-- `can_recv` and `receive`. -/
  receive : δ → Option (List UInt8) × δ
  /-- A frame comes from a receive buffer. -/
  receive_le : ∀ d frame, (receive d).1 = some frame → frame.length ≤ netBufLen
  /-- `add_notify_wait_pop` with a command and a response buffer of a length: the bytes of the
  buffer afterwards, and the length reported; nothing at all if it panics. -/
  ctrl : List UInt8 → ℕ → δ → Option (Option ((ℕ → UInt8) × ℕ) × δ)
  /-- The physical address of a buffer. -/
  virtToPhys : Word → δ → Word

/-- A port, whose kind is the number that a program opens it by. -/
abbrev Port := PortOf UInt8

/-- What the drivers share, with the allocations of the buffers. -/
abbrev Hub (δ : Type) := HubOf Buffer δ

/-- Kernel code that may panic. -/
abbrev Kern (δ : Type) := StateT (Hub δ) (Except Panic)

section

variable {δ : Type} (heap : ℕ) (io : Virtio δ)

/-- `unwrap`. -/
def unwrap {α : Type} : Option α → Kern δ α
  | some a => return a
  | none => throw .unwrapNone

/-- An allocation of so many bytes. -/
def allocate (bytes : ℕ) : Kern δ Unit := if bytes ≤ heap then return () else throw (.alloc bytes)

/-- Part of a slice. -/
def slice (data : List UInt8) (start stop : ℕ) : Kern δ (List UInt8) :=
  if start ≤ stop ∧ stop ≤ data.length then return (data.take stop).drop start else throw .index

/-- Ask the control queue, whose driver may panic. -/
def askCtrl {α : Type} (f : δ → Option (α × δ)) : Kern δ α := fun h =>
  match f h.dev with
  | some (a, dev) => .ok (a, { h with dev := dev })
  | none => .error .addNotifyWaitPop

/-- A new vector with exactly these bytes. -/
def newVec (data : List UInt8) : Kern δ Buffer := do
  allocate heap data.length
  return ⟨data, data.length⟩

/-- `extend_from_slice`: a vector without room doubles its capacity, at least. -/
def extendFromSlice (b : Buffer) (xs : List UInt8) : Kern δ Buffer :=
  if b.data.length + xs.length ≤ b.cap then return ⟨b.data ++ xs, b.cap⟩
  else do
    let cap := max (max (2 * b.cap) (b.data.length + xs.length)) 8
    allocate heap cap
    return ⟨b.data ++ xs, cap⟩

/-- `truncate`, which keeps the capacity. -/
def truncate (b : Buffer) (n : ℕ) : Buffer := ⟨b.data.take n, b.cap⟩

/-! ### The buffer table -/

/-- `buf_create`. -/
def bufCreate (b : Buffer) : Kern δ Word := HubOf.onBuffers (·.create b)

/-- `buf_take`. -/
def bufTake (id : Word) : Kern δ (Option Buffer) := HubOf.onBuffers (·.take id)

/-- `buf_pin`. -/
def bufPin (id : Word) : Kern δ (Option ℕ) := HubOf.onBuffers (·.pin (·.data.length) id)

/-- `buf_get`, with a clone of the buffer. -/
def bufGet (id : Word) : Kern δ (Option Buffer) := do
  match (← get).buffers.data id with
  | some b => return some (← newVec heap b.data)
  | none => return none

/-- `buf_write`, with `checked_add` in `usize`. -/
def bufWrite (id : Word) (off : ℕ) (data : List UInt8) : Kern δ Bool := do
  match (← get).buffers.data id with
  | none => return false
  | some b =>
    let stop := off + data.length
    if 2 ^ 64 ≤ stop then return false
    if b.data.length < stop then return false
    let old ← slice b.data off stop
    if old.length ≠ data.length then throw .index
    HubOf.onBuffers fun t => (true, { t with
      data := Function.update t.data id (some ⟨overwrite off data b.data, b.cap⟩) })

/-- `buf_read`. -/
def bufRead (id : Word) (off len : ℕ) : Kern δ (Option Buffer) := do
  match (← get).buffers.data id with
  | none => return none
  | some b =>
    if 2 ^ 64 ≤ off + len then return none
    if b.data.length < off + len then return none
    return some (← newVec heap (← slice b.data off (off + len)))

/-! ### The drivers -/

/-- `blk_write`. -/
def blkWrite (sector : Word) (data : List UInt8) : Kern δ Bool := do
  if io.has 1 then
    if data.length = 0 ∨ data.length % sectorSize ≠ 0 then throw .writeBlocks
    if ← HubOf.ask (io.writeBlocks sector data) then HubOf.ask io.flush else return false
  else return false

/-- `blk_read`. -/
def blkRead (sector : Word) : Kern δ (Option Buffer) := do
  if io.has 1 then
    let buf ← newVec heap (List.replicate sectorSize 0)
    match ← HubOf.ask (io.readBlocks sector) with
    | some data => return some ⟨data.toList, buf.cap⟩
    | none => return none
  else return none

/-- The loop of `random_bytes`, with `rounds` at least the bytes to fill. -/
def entropyLoop (length : ℕ) : ℕ → List UInt8 → Kern δ (Option (List UInt8))
  | 0, filled => return some filled
  | rounds + 1, filled => do
    if filled.length < length then
      let rest ← slice (List.replicate length 0) filled.length length
      match ← HubOf.ask (io.requestEntropy rest.length) with
      | none => return none
      | some received =>
        if received.length = 0 ∨ length - filled.length < received.length then return none
        else entropyLoop length rounds (filled ++ received)
    else return some filled

/-- `random_bytes`. -/
def randomBytes (length : ℕ) : Kern δ (Option Buffer) := do
  let bytes ← newVec heap (List.replicate length 0)
  if io.has 4 then
    match ← entropyLoop io length length [] with
    | some data => return some ⟨data, bytes.cap⟩
    | none => return none
  else return none

/-- `net_send`. -/
def netSend (frame : List UInt8) : Kern δ Bool := do
  if io.has 2 then
    let tx ← newVec heap (List.replicate frame.length 0)
    if tx.data.length ≠ frame.length then throw .index
    HubOf.ask (io.send frame)
  else return false

/-- `net_try_recv`. -/
def netTryRecv : Kern δ (Option Buffer) := do
  if io.has 2 then
    match ← HubOf.ask io.receive with
    | some frame => return some (← newVec heap frame)
    | none => return none
  else return none

/-- `gpu_ctrl`. -/
def gpuCtrl (cmd : List UInt8) (respLen : ℕ) : Kern δ (Option Buffer) := do
  if io.has 3 then
    let resp ← newVec heap (List.replicate (max 24 (min respLen (2 ^ 20))) 0)
    match ← askCtrl (io.ctrl cmd resp.data.length) with
    | some (written, n) =>
      return some (truncate ⟨(List.range resp.data.length).map written, resp.cap⟩ n)
    | none => return none
  else return none

/-! ### The submission queues -/

/-- What the drivers call. -/
def Virtio.calls : Calls (Kern δ) Buffer where
  rawWriteByte b := HubOf.ask fun d => ((), io.rawWriteByte b d)
  popSerial := HubOf.popSerial
  bufCreate := bufCreate
  bufTake := bufTake
  bufGet := bufGet heap
  bufPin := bufPin
  blkWrite sector b := blkWrite io sector b.data
  blkRead := blkRead heap io
  randomBytes := randomBytes heap io
  netSend frame := netSend heap io frame.data
  netTryRecv := netTryRecv heap io
  gpuCtrl cmd respLen := gpuCtrl heap io cmd.data respLen
  virtToPhys id := HubOf.ask fun d => (io.virtToPhys id d, d)
  extendFromSlice := extendFromSlice heap

/-- The drain function of a kind of port, for one entry. -/
def drainOne (kind : UInt8) (sqe : Sqe) (p : Port) : Kern δ Port :=
  if kind = 0 then serialSqe (io.calls heap) sqe p
  else if kind = 1 then blkSqe (io.calls heap) sqe p
  else if kind = 2 then netSqe (io.calls heap) sqe p
  else if kind = 3 then gpuSqe (io.calls heap) sqe p
  else if kind = 4 then rngSqe (io.calls heap) sqe p
  else throw .unreachable

/-! ### The pump -/

/-- The pump matches received bytes with parked reads. -/
def serveSerial : ℕ → Port → Kern δ Port
  | 0, p => return p
  | k + 1, p => do
    let h ← get
    if h.serialRx.entries.isEmpty ∨ p.pendingReads.entries.isEmpty then return p
    else
      let (sqe, reads) ← unwrap p.pendingReads.pop
      let b ← unwrap (← HubOf.popSerial)
      serveSerial k
        ({ p with pendingReads := reads }.complete ⟨sqe.tag, b.toBitVec.setWidth 64, some b⟩)

/-- The pump matches received frames with parked reads. -/
def serveNet : ℕ → Port → Kern δ Port
  | 0, p => return p
  | k + 1, p => do
    if p.pendingReads.entries.isEmpty then return p
    else
      match ← netTryRecv heap io with
      | none => return p
      | some frame =>
        let (sqe, reads) ← unwrap p.pendingReads.pop
        let id ← bufCreate frame
        serveNet k ({ p with pendingReads := reads }.complete ⟨sqe.tag, id, none⟩)

/-- The pump completes parked reads; every round takes one of them. -/
def serve (p : Port) : Kern δ Port :=
  if p.kind = 0 then serveSerial p.pendingReads.entries.length p
  else if p.kind = 2 then serveNet heap io p.pendingReads.entries.length p
  else return p

end

/-! ### Runs -/

/-- The ports and what the drivers share. -/
structure State (δ : Type) where
  /-- The ports by number. -/
  ports : ℕ → Option Port
  /-- The next number of a port. -/
  nextPort : ℕ
  /-- What the drivers share. -/
  hub : Hub δ

/-- What may happen: a call of the interface, a pump, an interrupt or a device. -/
inductive Event (δ : Type) where
  /-- `port_open` by a process. -/
  | portOpen (owner : ℕ) (kind : UInt8)
  /-- PORT_SUBMIT or PORT_SUBMIT2. -/
  | submit (port : ℕ) (sqe : Sqe)
  /-- The locked part of `pump`, here or on another core. -/
  | pump
  /-- The interrupt handler receives a byte. -/
  | irq (b : UInt8)
  /-- The devices go on. -/
  | device (dev : δ)
  /-- `close_owned_by` for a process that died. -/
  | close (pid : ℕ)
  /-- BUF_NEW. -/
  | bufNew (size : ℤ)
  /-- BUF_WRITE. -/
  | bufWrite (id : Word) (off : ℤ) (data : List UInt8)
  /-- BUF_READ. -/
  | bufRead (id : Word) (off len : ℤ)
  /-- BUF_TO_BIN. -/
  | bufToBin (id : Word)
  /-- BIN_TO_BUF. -/
  | binToBuf (data : List UInt8)

namespace State

variable {δ : Type} (heap : ℕ) (io : Virtio δ)

/-- Run kernel code that only touches what the drivers share. -/
def onHub {α : Type} (x : Kern δ α) (s : State δ) : Except Panic (State δ) :=
  (x s.hub).map fun r => { s with hub := r.2 }

/-- `open`. -/
def portOpen (owner : ℕ) (kind : UInt8) (s : State δ) : State δ :=
  if kind = 0 ∨ (kind = 1 ∨ kind = 2 ∨ kind = 3 ∨ kind = 4) ∧ io.has kind = true then
    { s with
      ports := Function.update s.ports s.nextPort 
        (some ⟨owner, kind, .empty, .empty, .empty, []⟩)
      nextPort := s.nextPort + 1 }
  else s

/-- What an event does; a panic of the kernel is an error. -/
def step (s : State δ) : Event δ → Except Panic (State δ)
  | .portOpen owner kind => .ok (s.portOpen io owner kind)
  | .submit port sqe =>
    match s.ports port with
    | none => .ok s
    | some p => (p.submit (drainOne heap io) sqe s.hub).map fun r =>
      { s with
        hub := r.2
        ports := Function.update s.ports port (some (r.1.getD p)) }
  | .pump => (pumpPorts (serve heap io) (List.range s.nextPort) s.ports s.hub).map fun r =>
    { s with hub := r.2, ports := r.1.2 }
  | .irq b => .ok { s with hub := { s.hub with serialRx := s.hub.serialRx.offer b } }
  | .device dev => .ok { s with hub := { s.hub with dev := dev } }
  | .close pid => .ok { s with ports := fun id => (s.ports id).filter fun p => p.owner ≠ pid }
  | .bufNew size =>
    if size < 0 ∨ 64 * 2 ^ 20 < size then .ok s
    else s.onHub do bufCreate (← newVec heap (List.replicate size.toNat 0))
  | .bufWrite id off data => if off < 0 then .ok s else s.onHub (bufWrite id off.toNat data)
  | .bufRead id off len =>
    if off < 0 ∨ len < 0 then .ok s else s.onHub (bufRead heap id off.toNat len.toNat)
  | .bufToBin id => s.onHub (bufTake id)
  | .binToBuf data => s.onHub do bufCreate (← newVec heap data)

end State

/-- Boot: no ports, no buffers. -/
def Init {δ : Type} (s : State δ) : Prop :=
  (∀ id, s.ports id = none) ∧ ∀ id, s.hub.buffers.data id = none

/-- A step that does not panic. -/
def Step {δ : Type} (heap : ℕ) (io : Virtio δ) (s s' : State δ) : Prop :=
  ∃ e, s.step heap io e = .ok s'

end Yggdrasil.Surface
