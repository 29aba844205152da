import Yggdrasil.Term.Heap

/-!
# The system interface of the engines

All effects of an engine on the system go through `SystemApi`. Its callbacks are
arbitrary: each acts on the system state `σ`, may trap where the source lets it
return a trap, and may never come back, as when the running process is killed.
Memory belongs to the system state; an engine sees it through the heap of the
running process.
-/

namespace Yggdrasil

/-- Reserved word, never a valid term, that an engine returns when the function
ended in a tail call. -/
def tailSentinel : Term := ⟨7⟩

/-- Why an engine gives up. -/
inductive Trap where
  | badarg
  | badCode
  | heapFull
  | exit (reason : UInt32)
  deriving DecidableEq, Repr

/-- Checks of the interpreter that only malformed code can fail. -/
inductive Fault where
  | opcode
  | operand
  | register
  | callee
  | arity
  | jump
  deriving DecidableEq, Repr

/-- The trap a failed check returns. -/
def Fault.trap : Fault → Trap
  | .register | .arity => .badarg
  | .opcode | .operand | .callee | .jump => .badCode

/-- How an engine stops without a result. Besides the traps, `panic` is a reached
`unreachable!`, `gone` a callback that never returns, `limit` a memory walk or
allocation retry longer than followed, and `fuel` a run longer than followed. -/
inductive Stop where
  | fault (f : Fault)
  | trap (t : Trap)
  | panic
  | gone
  | limit
  | fuel
  deriving DecidableEq, Repr

/-- The trap that is returned, if one is. -/
def Stop.trap? : Stop → Option Trap
  | .fault f => some f.trap
  | .trap t => some t
  | _ => none

/-- A callback that does not return. -/
inductive Gone where
  | gone
  deriving DecidableEq, Repr

/-- A callback that returns a trap or does not return; `panic` is a reached
`unreachable!`. -/
inductive Refusal where
  | trap (t : Trap)
  | gone
  | panic
  deriving DecidableEq, Repr

/-- A callback without an error result. -/
abbrev Effect (σ : Type) := EStateM Gone σ

/-- A callback that may return a trap. -/
abbrev Attempt (σ : Type) := EStateM Refusal σ

/-- Engine code that acts on the system. -/
abbrev Sys (σ : Type) := EStateM Stop σ

/-- The callbacks. -/
structure SystemApi (σ : Type) where
  /-- Memory and the heap of the running process. -/
  store : σ → Store
  /-- Replace memory and heap after an allocation. -/
  setStore : Store → σ → σ
  /-- The running process. -/
  selfPid : σ → Word
  /-- Send a copy of a message. -/
  send : Term → Term → Attempt σ Unit
  /-- Receive the next message. -/
  recv : Effect σ Term
  /-- Spawn a function of the same module with one argument. -/
  spawn : UInt32 → Term → Attempt σ Word
  /-- Poll for preemption. -/
  safepoint : Effect σ Unit
  /-- Translate a module-local atom index. -/
  atomGlobal : UInt32 → Effect σ UInt32
  /-- Print a term. -/
  print : Term → Effect σ Unit
  /-- Open a port of a kind. -/
  portOpen : UInt8 → Attempt σ Term
  /-- Submit to a port: port, operation, argument, tag. -/
  portSubmit : Term → UInt8 → Term → Term → Attempt σ Unit
  /-- Call another module through its current version. -/
  callExt : UInt32 → UInt32 → List Term → Attempt σ Term
  /-- Turn a kernel buffer into a binary. -/
  bufToBin : Word → Attempt σ Term
  /-- Turn a binary into a kernel buffer. -/
  binToBuf : Term → Attempt σ Term
  /-- Try to grow the heap. -/
  heapGrow : Effect σ Bool
  /-- Stash a tail-call target in another module. -/
  tailCall : UInt32 → UInt32 → List Term → Effect σ Unit
  /-- Stash a tail-call target in the running module. -/
  tailCallLocal : UInt32 → List Term → Effect σ Unit
  /-- Overwrite part of a kernel buffer. -/
  bufWrite : Term → Term → Term → Attempt σ Term
  /-- Allocate a kernel buffer. -/
  bufNew : Term → Attempt σ Term
  /-- Copy out part of a kernel buffer. -/
  bufRead : Term → Term → Term → Attempt σ Term
  /-- Park the process for some milliseconds. -/
  sleepMs : Word → Effect σ Unit
  /-- Milliseconds since the timer started. -/
  ticks : σ → Term
  /-- Submit to a port with all operands in registers. -/
  portSubmit2 : Term → Term → Term → Term → Term → Attempt σ Unit

/-- No callback returns `badCode`. -/
structure SystemApi.NeverBadCode {σ : Type} (api : SystemApi σ) : Prop where
  send : ∀ dst msg s s', api.send dst msg s ≠ .error (.trap .badCode) s'
  spawn : ∀ fn arg s s', api.spawn fn arg s ≠ .error (.trap .badCode) s'
  portOpen : ∀ kind s s', api.portOpen kind s ≠ .error (.trap .badCode) s'
  portSubmit : ∀ p o a t s s', api.portSubmit p o a t s ≠ .error (.trap .badCode) s'
  callExt : ∀ m f args s s', api.callExt m f args s ≠ .error (.trap .badCode) s'
  bufToBin : ∀ id s s', api.bufToBin id s ≠ .error (.trap .badCode) s'
  binToBuf : ∀ b s s', api.binToBuf b s ≠ .error (.trap .badCode) s'
  bufWrite : ∀ b o d s s', api.bufWrite b o d s ≠ .error (.trap .badCode) s'
  bufNew : ∀ n s s', api.bufNew n s ≠ .error (.trap .badCode) s'
  bufRead : ∀ b o n s s', api.bufRead b o n s ≠ .error (.trap .badCode) s'
  portSubmit2 : ∀ p o a b t s s', api.portSubmit2 p o a b t s ≠ .error (.trap .badCode) s'

/-- A system without other processes, devices or room to grow: requests that may
be refused are, and a receive waits forever. -/
def SystemApi.isolated : SystemApi Store where
  store s := s
  setStore st _ := st
  selfPid _ := 1
  send _ _ := throw (.trap .badarg)
  recv := throw .gone
  spawn _ _ := throw (.trap .badarg)
  safepoint := pure ()
  atomGlobal a := pure a
  print _ := pure ()
  portOpen _ := throw (.trap .badarg)
  portSubmit _ _ _ _ := throw (.trap .badarg)
  callExt _ _ _ := throw (.trap .badarg)
  bufToBin _ := throw (.trap .badarg)
  binToBuf _ := throw (.trap .badarg)
  heapGrow := pure false
  tailCall _ _ _ := pure ()
  tailCallLocal _ _ := pure ()
  bufWrite _ _ _ := throw (.trap .badarg)
  bufNew _ := throw (.trap .badarg)
  bufRead _ _ _ := throw (.trap .badarg)
  sleepMs _ := pure ()
  ticks _ := Term.int 0
  portSubmit2 _ _ _ _ _ := throw (.trap .badarg)

/-- Refusals of the isolated system are not `badCode`. -/
theorem SystemApi.isolated_neverBadCode : SystemApi.isolated.NeverBadCode := by
  constructor <;> intros <;> intro h <;> cases h

namespace Sys

variable {σ α : Type}

/-- Run a callback without an error result. -/
def effect (x : Effect σ α) : Sys σ α := fun s =>
  match x s with
  | .ok a s' => .ok a s'
  | .error .gone s' => .error .gone s'

/-- Run a callback that may trap. -/
def attempt (x : Attempt σ α) : Sys σ α := fun s =>
  match x s with
  | .ok a s' => .ok a s'
  | .error (.trap t) s' => .error (.trap t) s'
  | .error .gone s' => .error .gone s'
  | .error .panic s' => .error .panic s'

/-- Give up with a trap unless there is a value. -/
def orTrap (t : Trap) : Option α → Sys σ α
  | some a => pure a
  | none => throw (.trap t)

/-- Give up when a memory walk does. -/
def ofHalt : Except Halt α → Sys σ α
  | .ok a => pure a
  | .error .limit => throw .limit
  | .error .panic => throw .panic

section

variable (api : SystemApi σ)

/-- All of memory. -/
def mem : Sys σ Mem := fun s => .ok (api.store s).mem s

/-- The integer value of a term, or a trap. -/
def int (t : Term) : Sys σ Word := orTrap .badarg t.asInt

/-- The kind of a term, or the `unreachable!` of `Term::kind`. -/
def kind (t : Term) : Sys σ Kind := do
  match t.kind (← mem api) with
  | some k => return k
  | none => throw .panic

/-- Whether the term is boxed and of the given kind; the kind of an immediate is
not looked at. -/
def isBoxedKind (k : Kind) (t : Term) : Sys σ Bool := do
  if t.isBoxed then return (← kind api t) = k
  else return false

/-- Allocate, growing the heap while it is full. -/
def allocTerm (f : HeapM Term) : ℕ → Sys σ Term
  | 0 => throw .limit
  | n + 1 => fun s =>
    match f (api.store s) with
    | .ok t st => .ok t (api.setStore st s)
    | .error _ st =>
      (do
        if ← effect api.heapGrow then allocTerm f n
        else throw (.trap .heapFull) : Sys σ Term) (api.setStore st s)

/-- Build a map, growing the heap while it is full. Each retry starts from the
slice of pairs the failed attempt left behind. -/
def mapNewLoop : ℕ → List (Term × Term) → Sys σ Term
  | 0, _ => throw .limit
  | n + 1, pairs => fun s =>
    match Heap.mapFromPairs pairs (api.store s) with
    | (.ok t st, _) => .ok t (api.setStore st s)
    | (.error .nonImmediateKey st, _) => .error (.trap .badarg) (api.setStore st s)
    | (.error (.heap _) st, pairs') =>
      (do
        if ← effect api.heapGrow then mapNewLoop n pairs'
        else throw (.trap .heapFull) : Sys σ Term) (api.setStore st s)

/-- Update a map, growing the heap while it is full. -/
def mapPutLoop (m k v : Term) : ℕ → Sys σ Term
  | 0 => throw .limit
  | n + 1 => fun s =>
    match Heap.mapPut m k v (api.store s) with
    | .ok t st => .ok t (api.setStore st s)
    | .error .nonImmediateKey st => .error (.trap .badarg) (api.setStore st s)
    | .error (.heap _) st =>
      (do
        if ← effect api.heapGrow then mapPutLoop m k v n
        else throw (.trap .heapFull) : Sys σ Term) (api.setStore st s)

/-- The bytes of a list of small integers, checked cell by cell. -/
def listBytes : ℕ → Term → Sys σ (List UInt8)
  | 0, _ => throw .limit
  | n + 1, t => do
    if (← kind api t) = .cons then
      let h ← int (t.head (← mem api))
      if h.toInt < 0 ∨ 255 < h.toInt then throw (.trap .badarg)
      let rest ← listBytes n (t.tail (← mem api))
      return UInt8.ofBitVec (h.setWidth 8) :: rest
    else if t.isNil then return []
    else throw (.trap .badarg)

/-- The elements of a proper list. -/
def listElems : ℕ → Term → Sys σ (List Term)
  | 0, _ => throw .limit
  | n + 1, t => do
    if ← isBoxedKind api .cons t then
      let rest ← listElems n (t.tail (← mem api))
      return t.head (← mem api) :: rest
    else if t.isNil then return []
    else throw (.trap .badarg)

end

end Sys

end Yggdrasil
