import Yggdrasil.Interp.Api
import Yggdrasil.Bytecode.Insn

/-!
# One instruction of the interpreter

The body of the interpreter loop: fetch an opcode, read its operands and act on
the registers and the system. An instruction that hands control on, by a call, a
return or a wait, reports so to the loop through its `Flow`.
-/

namespace Yggdrasil

/-- The frame of a running function. -/
structure Frame where
  /-- The code of the function. -/
  code : List UInt8
  /-- The next byte to read. -/
  pc : ℕ
  /-- The registers. -/
  regs : List Term
  deriving DecidableEq, Repr

/-- Code that runs in a frame. -/
abbrev Exec (σ : Type) := StateT Frame (Sys σ)

/-- How the loop goes on after an instruction. -/
inductive Flow where
  | next
  | ret (v : Term)
  | call (rd : UInt8) (callee : UInt32) (args : List Term)
  | callExt (rd : UInt8) (mg fg : UInt32) (args : List Term)
  | tailCall (callee : UInt32) (args : List Term)
  | tailCallExt (mg fg : UInt32) (args : List Term)
  | recv (rd : UInt8)
  | sleep (ms : Word)
  deriving DecidableEq, Repr

namespace Exec

variable {σ α : Type}

/-- Act on the system only. -/
def sys (x : Sys σ α) : Exec σ α := StateT.lift x

/-- A failed check of the code. -/
def fault (f : Fault) : Exec σ α := sys (throw (.fault f))

/-- A trap of the instruction. -/
def trap (t : Trap) : Exec σ α := sys (throw (.trap t))

/-- The next byte. -/
def u8 : Exec σ UInt8 := fun fr =>
  match fr.code[fr.pc]? with
  | some v => pure (v, { fr with pc := fr.pc + 1 })
  | none => throw (.fault .operand)

/-- The next `u32`. -/
def u32 : Exec σ UInt32 := fun fr =>
  match getU32 fr.code fr.pc with
  | some v => pure (v, { fr with pc := fr.pc + 4 })
  | none => throw (.fault .operand)

/-- The next `i32`. -/
def i32 : Exec σ ℤ := do return asI32 (← u32)

/-- The next `i64`. -/
def i64 : Exec σ Word := fun fr =>
  match getI64 fr.code fr.pc with
  | some v => pure (v, { fr with pc := fr.pc + 8 })
  | none => throw (.fault .operand)

/-- The next `n` bytes. -/
def bytes (n : ℕ) : Exec σ (List UInt8) := fun fr =>
  match slice fr.code fr.pc n with
  | some v => pure (v, { fr with pc := fr.pc + n })
  | none => throw (.fault .operand)

/-- Read a register. -/
def get (r : UInt8) : Exec σ Term := fun fr =>
  match fr.regs[r.toNat]? with
  | some v => pure (v, fr)
  | none => throw (.fault .register)

/-- Write a register. -/
def set (r : UInt8) (v : Term) : Exec σ Unit := fun fr =>
  if r.toNat < fr.regs.length then pure ((), { fr with regs := fr.regs.set r.toNat v })
  else throw (.fault .register)

/-- Write a register and go on to the next instruction. -/
def setNext (r : UInt8) (v : Term) : Exec σ Flow := do
  set r v
  return .next

/-- Read the next `n` register operands, each with its value. -/
def args : ℕ → Exec σ (List Term)
  | 0 => return []
  | n + 1 => do
    let r ← u8
    let v ← get r
    return v :: (← args n)

/-- Read the next `n` pairs of register operands with their values. -/
def argPairs : ℕ → Exec σ (List (Term × Term))
  | 0 => return []
  | n + 1 => do
    let rk ← u8
    let rv ← u8
    let k ← get rk
    let v ← get rv
    return (k, v) :: (← argPairs n)

/-- The integer in a register, or a trap. -/
def int (r : UInt8) : Exec σ Word := do sys (Sys.int (← get r))

section

variable (api : SystemApi σ) (limit : ℕ)

/-- Poll for preemption. -/
def safepoint : Exec σ Unit := sys (Sys.effect api.safepoint)

/-- Move by `off`, polling first when it goes backward. -/
def jump (off : ℤ) : Exec σ Unit := do
  if off < 0 then safepoint api
  fun fr =>
    let pc := (fr.pc : ℤ) + off
    if pc < 0 ∨ fr.code.length < pc.toNat then throw (.fault .jump)
    else pure ((), { fr with pc := pc.toNat })

/-- Allocate a term and store it. -/
def alloc (rd : UInt8) (f : HeapM Term) : Exec σ Flow := do
  setNext rd (← sys (Sys.allocTerm api f limit))

/-- Read from memory. -/
def peek (f : Mem → α) : Exec σ α := do return f (← sys (Sys.mem api))

/-- Trap unless the term has the given kind. -/
def expectKind (k : Kind) (t : Term) : Exec σ Unit := do
  if (← sys (Sys.kind api t)) ≠ k then trap .badarg

/-- Trap unless the term is boxed and of the given kind. -/
def expectBoxed (k : Kind) (t : Term) : Exec σ Unit := do
  if !(← sys (Sys.isBoxedKind api k t)) then trap .badarg

/-- Instructions with one register operand. -/
def reg1 (o : Reg1Op) (r : UInt8) : Exec σ Flow := do
  match o with
  | .loadNil => setNext r Term.nil
  | .selfPid => setNext r (Term.pid (api.selfPid (← sys MonadState.get)))
  | .recv => return .recv r
  | .ticks => setNext r (api.ticks (← sys MonadState.get))
  | .print =>
    let v ← get r
    sys (Sys.effect (api.print v))
    return .next
  | .ret => return .ret (← get r)
  | .exitAtom =>
    let a ← sys (Sys.orTrap .badarg (← get r).asAtom)
    trap (.exit a)
  | .sleepMs =>
    let ms ← int r
    if ms.toInt < 0 then trap .badarg
    safepoint api
    return .sleep ms

/-- Instructions with two register operands. -/
def reg2 (o : Reg2Op) (a b : UInt8) : Exec σ Flow := do
  match o with
  | .move => setNext a (← get b)
  | .head =>
    let t ← get b
    expectKind api .cons t
    setNext a (← peek api t.head)
  | .tail =>
    let t ← get b
    expectKind api .cons t
    setNext a (← peek api t.tail)
  | .send =>
    let dst ← get a
    let msg ← get b
    sys (Sys.attempt (api.send dst msg))
    return .next
  | .bnot => setNext a (Term.int (~~~(← int b)))
  | .binFromList =>
    let data ← sys (Sys.listBytes api limit (← get b))
    alloc api limit a (Heap.binary data)
  | .binToList =>
    let t ← get b
    expectKind api .binary t
    let data ← peek api t.binBytes
    alloc api limit a (Heap.list (data.map fun x => Term.int (x.toBitVec.setWidth 64)))
  | .binSize =>
    let t ← get b
    expectKind api .binary t
    let data ← peek api t.binBytes
    setNext a (Term.int (BitVec.ofNat 64 data.length))
  | .bufToBin =>
    let id ← int b
    setNext a (← sys (Sys.attempt (api.bufToBin id)))
  | .binToBuf =>
    let t ← get b
    setNext a (← sys (Sys.attempt (api.binToBuf t)))
  | .isBinary =>
    let is ← sys (Sys.isBoxedKind api .binary (← get b))
    setNext a (Term.int (if is then 1 else 0))
  | .bufNew =>
    let size ← get b
    setNext a (← sys (Sys.attempt (api.bufNew size)))

/-- The value of a checked `i64` operation, or a trap. -/
def arith (rd ra rb : UInt8) (f : Word → Word → Option Word) : Exec σ Flow := do
  let a ← int ra
  let b ← int rb
  setNext rd (Term.int (← sys (Sys.orTrap .badarg (f a b))))

/-- A shift by 0 to 60 places, cut down to 61 bits. -/
def shift (rd ra rb : UInt8) (f : Word → ℕ → Word) : Exec σ Flow := do
  let a ← int ra
  let b ← int rb
  if b.toInt < 0 ∨ 60 < b.toInt then trap .badarg
  let v := f a b.toNat
  setNext rd (Term.int ((v <<< 3).sshiftRight 3))

/-- Instructions with three register operands. -/
def reg3 (o : Reg3Op) (rd ra rb : UInt8) : Exec σ Flow := do
  match o with
  | .cons =>
    let h ← get ra
    let t ← get rb
    alloc api limit rd (Heap.cons h t)
  | .add => arith rd ra rb fun a b => if a.saddOverflow b then none else some (a + b)
  | .sub => arith rd ra rb fun a b => if a.ssubOverflow b then none else some (a - b)
  | .mul => arith rd ra rb fun a b => if a.smulOverflow b then none else some (a * b)
  | .cmpEq =>
    let a ← get ra
    let b ← get rb
    let e ← sys (Sys.ofHalt (eqTerm (← sys (Sys.mem api)) limit a b))
    setNext rd (Term.int (if e then 1 else 0))
  | .cmpLt =>
    let a ← int ra
    let b ← int rb
    setNext rd (Term.int (if a.toInt < b.toInt then 1 else 0))
  | .band => arith rd ra rb fun a b => some (a &&& b)
  | .bor => arith rd ra rb fun a b => some (a ||| b)
  | .bxor => arith rd ra rb fun a b => some (a ^^^ b)
  | .bsl => shift rd ra rb fun a n => a <<< n
  | .bsr => shift rd ra rb fun a n => a.sshiftRight n
  | .binCat =>
    let a ← get ra
    let b ← get rb
    expectBoxed api .binary a
    expectBoxed api .binary b
    let joined ← peek api fun mem => a.binBytes mem ++ b.binBytes mem
    alloc api limit rd (Heap.binary joined)
  | .listCat =>
    let a ← get ra
    let b ← get rb
    let elems ← sys (Sys.listElems api limit a)
    alloc api limit rd (Heap.listOnto b elems)
  | .mapGet =>
    let m ← get ra
    let k ← get rb
    expectBoxed api .map m
    setNext rd (← sys (Sys.orTrap .badarg (← peek api fun mem => m.mapGet mem k)))
  | .binAt =>
    let b ← get ra
    let idx ← int rb
    expectBoxed api .binary b
    if idx.toInt < 0 then trap .badarg
    let data ← peek api b.binBytes
    let x ← sys (Sys.orTrap .badarg data[idx.toNat]?)
    setNext rd (Term.int (x.toBitVec.setWidth 64))

/-- Instructions with four register operands. -/
def reg4 (o : Reg4Op) (rd ra rb rc : UInt8) : Exec σ Flow := do
  match o with
  | .mapPut =>
    let m ← get ra
    let k ← get rb
    let v ← get rc
    expectBoxed api .map m
    setNext rd (← sys (Sys.mapPutLoop api m k v limit))
  | .binPart =>
    let b ← get ra
    let off ← int rb
    let len ← int rc
    expectBoxed api .binary b
    if off.toInt < 0 ∨ len.toInt < 0 then trap .badarg
    let data ← peek api b.binBytes
    if data.length < off.toNat + len.toNat then trap .badarg
    alloc api limit rd (Heap.binary ((data.drop off.toNat).take len.toNat))
  | .bufWrite =>
    let buf ← get ra
    let off ← get rb
    let bin ← get rc
    setNext rd (← sys (Sys.attempt (api.bufWrite buf off bin)))
  | .bufRead =>
    let buf ← get ra
    let off ← get rb
    let len ← get rc
    setNext rd (← sys (Sys.attempt (api.bufRead buf off len)))

/-- Load a module atom. -/
def loadAtom (rd : UInt8) (a : UInt32) : Exec σ Flow := do
  setNext rd (Term.atom (← sys (Sys.effect (api.atomGlobal a))))

/-- Build a tuple. -/
def makeTuple (rd : UInt8) (elems : List Term) : Exec σ Flow :=
  alloc api limit rd (Heap.tuple elems)

/-- Read a tuple element. -/
def getElem (rd rs idx : UInt8) : Exec σ Flow := do
  let t ← get rs
  expectKind api .tuple t
  if (← peek api t.tupleArity) ≤ idx.toNat then trap .badarg
  setNext rd (← peek api fun mem => t.tupleElem mem idx.toNat)

/-- Jump when a register holds a nonzero integer. -/
def jumpIf (rc : UInt8) (off : ℤ) : Exec σ Flow := do
  if (← int rc) ≠ 0 then jump api off
  return .next

/-- Call a function of the module. -/
def call (rd : UInt8) (callee : UInt32) (args : List Term) : Exec σ Flow := do
  safepoint api
  return .call rd callee args

/-- Spawn a function of the module; the argument must be immediate. -/
def spawn (rd : UInt8) (callee : UInt32) (ra : UInt8) : Exec σ Flow := do
  let arg ← get ra
  if arg.isBoxed then trap .badarg
  setNext rd (Term.pid (← sys (Sys.attempt (api.spawn callee arg))))

/-- Open a port. -/
def portOpen (rd kind : UInt8) : Exec σ Flow := do
  setNext rd (← sys (Sys.attempt (api.portOpen kind)))

/-- Submit to a port. -/
def portSubmit (rp op ra rt : UInt8) : Exec σ Flow := do
  let port ← get rp
  let arg0 ← get ra
  let tag ← get rt
  sys (Sys.attempt (api.portSubmit port op arg0 tag))
  return .next

/-- Submit to a port with all operands in registers. -/
def portSubmit2 (rp ro ra0 ra1 rt : UInt8) : Exec σ Flow := do
  let port ← get rp
  let o ← get ro
  let a0 ← get ra0
  let a1 ← get ra1
  let tag ← get rt
  sys (Sys.attempt (api.portSubmit2 port o a0 a1 tag))
  return .next

/-- Call a function of another module. -/
def callExt (rd : UInt8) (mod fname : UInt32) (args : List Term) : Exec σ Flow := do
  let mg ← sys (Sys.effect (api.atomGlobal mod))
  let fg ← sys (Sys.effect (api.atomGlobal fname))
  safepoint api
  return .callExt rd mg fg args

/-- Build a map. -/
def mapNew (rd : UInt8) (pairs : List (Term × Term)) : Exec σ Flow := do
  setNext rd (← sys (Sys.mapNewLoop api limit pairs))

/-- Tail-call a function of another module. -/
def tailCallExt (mod fname : UInt32) (args : List Term) : Exec σ Flow := do
  let mg ← sys (Sys.effect (api.atomGlobal mod))
  let fg ← sys (Sys.effect (api.atomGlobal fname))
  safepoint api
  return .tailCallExt mg fg args

/-- Tail-call a function of the module. -/
def tailCall (callee : UInt32) (args : List Term) : Exec σ Flow := do
  safepoint api
  return .tailCall callee args

/-- Read the operands of an opcode and execute it. -/
def dispatch (op : Op) : Exec σ Flow := do
  match op with
  | .nop => return .next
  | .loadInt => setNext (← u8) (Term.int (← i64))
  | .loadAtom => loadAtom api (← u8) (← u32)
  | .reg1 o => reg1 api o (← u8)
  | .reg2 o => reg2 api limit o (← u8) (← u8)
  | .reg3 o => reg3 api limit o (← u8) (← u8) (← u8)
  | .reg4 o => reg4 api limit o (← u8) (← u8) (← u8) (← u8)
  | .makeTuple =>
    let rd ← u8
    let n ← u8
    makeTuple api limit rd (← args n.toNat)
  | .getElem => getElem api (← u8) (← u8) (← u8)
  | .jmp =>
    jump api (← i32)
    return .next
  | .jmpIf => jumpIf api (← u8) (← i32)
  | .call =>
    let rd ← u8
    let callee ← u32
    let n ← u8
    call api rd callee (← args n.toNat)
  | .spawn => spawn api (← u8) (← u32) (← u8)
  | .portOpen => portOpen api (← u8) (← u8)
  | .portSubmit => portSubmit api (← u8) (← u8) (← u8) (← u8)
  | .callExt =>
    let rd ← u8
    let mod ← u32
    let fname ← u32
    let n ← u8
    callExt api rd mod fname (← args n.toNat)
  | .binNew =>
    let rd ← u8
    let len ← u32
    alloc api limit rd (Heap.binary (← bytes len.toNat))
  | .mapNew =>
    let rd ← u8
    let n ← u8
    mapNew api limit rd (← argPairs n.toNat)
  | .tailCallExt =>
    let mod ← u32
    let fname ← u32
    let n ← u8
    tailCallExt api mod fname (← args n.toNat)
  | .portSubmit2 => portSubmit2 api (← u8) (← u8) (← u8) (← u8) (← u8)
  | .tailCall =>
    let callee ← u32
    let n ← u8
    tailCall api callee (← args n.toNat)

/-- The body of the loop. -/
def body : Exec σ Flow := do
  match Op.ofByte (← u8) with
  | some op => dispatch api limit op
  | none => fault .opcode

end

end Exec

end Yggdrasil
