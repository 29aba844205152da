import Yggdrasil.Jit.Clif
import Yggdrasil.Jit.Leaders
import Yggdrasil.Bytecode.Insn
import Yggdrasil.Interp.Api

/-!
# Translating bytecode

The compiler reads a function once more and inserts instructions as it goes. It starts
a new block at every leader and skips code after a terminator that no leader makes
reachable.
-/

namespace Yggdrasil

namespace Jit

/-- The state of the translation of a function. -/
structure Builder where
  /-- The read position. -/
  pc : ℕ
  /-- The current block has its terminator. -/
  filled : Bool
  /-- A block of the bytecode was begun. -/
  inBlock : Bool
  /-- The next value. -/
  nextValue : ℕ
  /-- The next block that is no leader. -/
  nextBlock : ℕ
  /-- The next stack slot. -/
  nextSlot : ℕ
  /-- The instructions so far. -/
  items : List Item
  /-- History: where instructions start, latest first. -/
  starts : List ℕ
  deriving DecidableEq, Repr

/-- A step of the translation. -/
abbrev Tx := StateT Builder (Except JitError)

/-- A sequence of steps of the translation, the first of which succeeds. -/
theorem Tx.bind_ok {α β : Type} {x : Tx α} {g : α → Tx β} {b b' : Builder} {a : α}
    (h : x b = .ok (a, b')) : (x >>= g) b = g a b' := by
  change Except.bind (x b) (fun p => g p.1 p.2) = _
  rw [h]
  rfl

/-- What a translation depends on. -/
structure Context where
  /-- The module. -/
  module : Module
  /-- Module-local atom index to global atom index. -/
  atomMap : List UInt32
  /-- Binds external calls. -/
  resolver : ExtResolver
  /-- The function. -/
  fn : Function
  /-- The leaders of the function. -/
  leaders : List ℕ

namespace Tx

variable {α : Type}

/-- Read from the code. -/
def read (x : Decoder α) : Tx α := fun b =>
  match x b.pc with
  | .ok (a, pos) => .ok (a, { b with pc := pos })
  | .error e => .error e

/-- Insert an instruction. -/
def push (i : Item) : Tx Unit := fun b => .ok ((), { b with items := b.items ++ [i] })

/-- Insert an instruction that defines a value. -/
def ins (f : Value → Item) : Tx Value := fun b =>
  .ok (b.nextValue, { b with nextValue := b.nextValue + 1, items := b.items ++ [f b.nextValue] })

/-- `create_block`: a block with the next number. -/
def createBlock : Tx Block := fun b =>
  .ok (.fresh b.nextBlock, { b with nextBlock := b.nextBlock + 1 })

/-- A new stack slot. -/
def createSlot : Tx ℕ := fun b => .ok (b.nextSlot, { b with nextSlot := b.nextSlot + 1 })

/-- The current block has its terminator. -/
def fill : Tx Unit := fun b => .ok ((), { b with filled := true })

/-- Go on in a block. -/
def switchTo (b : Block) : Tx Unit := push (.label b)

/-- `iconst`: a constant of 64 bits. -/
def iconst (w : Word) : Tx Value := ins (.iconst · w)

/-- An operation on one value. -/
def unary (o : Unary) (a : Value) : Tx Value := ins (.unary · o a)

/-- An operation on two values. -/
def binary (o : Binary) (a b : Value) : Tx Value := ins (.binary · o a b)

/-- The value must be there. -/
def unwrap : Option α → Tx α
  | some a => pure a
  | none => throw .panic

/-- `call_helper`. -/
def callHelper (h : Helper) (args : List Value) : Tx (Option Value) :=
  if h.hasRet then do return some (← ins fun d => .call (some d) (.helper h) args)
  else do
    push (.call none (.helper h) args)
    return none

/-- A call of a helper for its effect. -/
def callVoid (h : Helper) (args : List Value) : Tx Unit := do
  let _ ← callHelper h args

/-- Poll for preemption. -/
def safepoint : Tx Unit := callVoid .safepoint []

/-- Go on in a new block if the condition holds, else in the trap block. -/
def orTrap (cond : Value) : Tx Unit := do
  let cont ← createBlock
  push (.brif cond cont .trap)
  switchTo cont

/-- `expect_int`: the integer value, or the trap block. -/
def expectInt (v : Value) : Tx Value := do
  let tag ← unary (.bandImm 7) v
  let ok ← unary (.icmpImm .equal tagInt) tag
  orTrap ok
  unary (.sshrImm 3) v

/-- `retag_int`. -/
def retagInt (raw : Value) : Tx Value := do
  let shifted ← unary (.ishlImm 3) raw
  unary (.borImm tagInt) shifted

/-- The stores of `spill`, from word `i` of the slot on. -/
def stores (slot : ℕ) : ℕ → List Value → Tx Unit
  | _, [] => pure ()
  | i, v :: vs => do
    push (.stackStore v slot i)
    stores slot (i + 1) vs

/-- `spill`: the address of a new stack slot with the values. -/
def spill (vals : List Value) : Tx Value := do
  let slot ← createSlot
  stores slot 0 vals
  ins (.stackAddr · slot)

section

variable (ctx : Context)

/-- Read a register. -/
def useVar (r : UInt8) : Tx Value :=
  if r < ctx.fn.nregs then ins (.useVar · r.toNat) else throw .panic

/-- Write a register. -/
def defVar (r : UInt8) (v : Value) : Tx Unit :=
  if r < ctx.fn.nregs then push (.defVar r.toNat v) else throw .panic

/-- Read registers. -/
def useVars : List UInt8 → Tx (List Value)
  | [] => return []
  | r :: rs => do
    let v ← useVar ctx r
    return v :: (← useVars rs)

/-- A global atom index. -/
def globalAtom (a : UInt32) : Tx UInt32 :=
  match ctx.atomMap[a.toNat]? with
  | some g => pure g
  | none => throw .badBytecode

/-- `atom_const`. -/
def atomConst (a : UInt32) : Tx Value := do iconst (Term.atom (← globalAtom ctx a)).word

/-- The block of a leader. -/
def leaderBlock (pos : ℕ) : Tx Block :=
  if pos ∈ ctx.leaders then pure (.leader pos) else throw .badBytecode

/-- A register gets the result of a helper. -/
def helperTo (rd : UInt8) (h : Helper) (args : List Value) : Tx Unit := do
  let v ← unwrap (← callHelper h args)
  defVar ctx rd v

/-- A register gets a constant. -/
def constTo (rd : UInt8) (w : Word) : Tx Unit := do defVar ctx rd (← iconst w)

/-- Instructions with one register operand. -/
def reg1 (o : Reg1Op) (r : UInt8) : Tx Unit := do
  match o with
  | .loadNil => constTo ctx r Term.nil.word
  | .selfPid => helperTo ctx r .selfPid []
  | .ticks => helperTo ctx r .ticks []
  | .recv => helperTo ctx r .recv []
  | .print =>
    let v ← useVar ctx r
    callVoid .print [v]
  | .ret =>
    let v ← useVar ctx r
    push (.ret v)
    fill
  | .exitAtom =>
    let v ← useVar ctx r
    callVoid .exitAtom [v]
    push .trap
    fill
  | .sleepMs =>
    let m ← useVar ctx r
    safepoint
    callVoid .sleepMs [m]

/-- A helper with one operand. -/
def helper1 (h : Helper) (rd rs : UInt8) : Tx Unit := do
  let a ← useVar ctx rs
  helperTo ctx rd h [a]

/-- Instructions with two register operands. -/
def reg2 (o : Reg2Op) (a b : UInt8) : Tx Unit := do
  match o with
  | .move =>
    let v ← useVar ctx b
    defVar ctx a v
  | .head => helper1 ctx .head a b
  | .tail => helper1 ctx .tail a b
  | .send =>
    let dst ← useVar ctx a
    let msg ← useVar ctx b
    callVoid .send [dst, msg]
  | .bnot =>
    let v ← useVar ctx b
    let u ← expectInt v
    let raw ← unary .bnot u
    defVar ctx a (← retagInt raw)
  | .binFromList => helper1 ctx .binFromList a b
  | .binToList => helper1 ctx .binToList a b
  | .binSize => helper1 ctx .binSize a b
  | .bufToBin => helper1 ctx .bufToBin a b
  | .binToBuf => helper1 ctx .binToBuf a b
  | .isBinary =>
    let v ← useVar ctx b
    let raw ← unwrap (← callHelper .isBinary [v])
    defVar ctx a (← retagInt raw)
  | .bufNew => helper1 ctx .bufNew a b

/-- An operation on two integers. -/
def arith (o : Binary) (rd ra rb : UInt8) : Tx Unit := do
  let a ← useVar ctx ra
  let b ← useVar ctx rb
  let ua ← expectInt a
  let ub ← expectInt b
  let raw ← binary o ua ub
  defVar ctx rd (← retagInt raw)

/-- A shift by 0 to 60 places. -/
def shift (o : Binary) (rd ra rb : UInt8) : Tx Unit := do
  let a ← useVar ctx ra
  let b ← useVar ctx rb
  let ua ← expectInt a
  let ub ← expectInt b
  let inRange ← unary (.icmpImm .unsignedLessThanOrEqual 60) ub
  orTrap inRange
  let raw ← binary o ua ub
  defVar ctx rd (← retagInt raw)

/-- A helper with two operands. -/
def helper2 (h : Helper) (rd ra rb : UInt8) : Tx Unit := do
  let a ← useVar ctx ra
  let b ← useVar ctx rb
  helperTo ctx rd h [a, b]

/-- Instructions with three register operands. -/
def reg3 (o : Reg3Op) (rd ra rb : UInt8) : Tx Unit := do
  match o with
  | .cons => helper2 ctx .cons rd ra rb
  | .add => arith ctx .iadd rd ra rb
  | .sub => arith ctx .isub rd ra rb
  | .mul => arith ctx .imul rd ra rb
  | .cmpEq =>
    let a ← useVar ctx ra
    let b ← useVar ctx rb
    let raw ← unwrap (← callHelper .eq [a, b])
    defVar ctx rd (← retagInt raw)
  | .cmpLt =>
    let a ← useVar ctx ra
    let b ← useVar ctx rb
    let ua ← expectInt a
    let ub ← expectInt b
    let c ← binary (.icmp .signedLessThan) ua ub
    let c64 ← unary .uextend c
    defVar ctx rd (← retagInt c64)
  | .band => arith ctx .band rd ra rb
  | .bor => arith ctx .bor rd ra rb
  | .bxor => arith ctx .bxor rd ra rb
  | .bsl => shift ctx .ishl rd ra rb
  | .bsr => shift ctx .sshr rd ra rb
  | .binCat => helper2 ctx .binCat rd ra rb
  | .listCat => helper2 ctx .listCat rd ra rb
  | .mapGet => helper2 ctx .mapGet rd ra rb
  | .binAt => helper2 ctx .binAt rd ra rb

/-- A helper with three operands. -/
def helper3 (h : Helper) (rd ra rb rc : UInt8) : Tx Unit := do
  let a ← useVar ctx ra
  let b ← useVar ctx rb
  let c ← useVar ctx rc
  helperTo ctx rd h [a, b, c]

/-- Instructions with four register operands. -/
def reg4 (o : Reg4Op) (rd ra rb rc : UInt8) : Tx Unit := do
  match o with
  | .mapPut => helper3 ctx .mapPut rd ra rb rc
  | .binPart => helper3 ctx .binPart rd ra rb rc
  | .bufWrite => helper3 ctx .bufWrite rd ra rb rc
  | .bufRead => helper3 ctx .bufRead rd ra rb rc

/-- A register gets the result of a helper on a spilled list of values. -/
def spillTo (rd : UInt8) (h : Helper) (vals : List Value) (n : ℕ) : Tx Unit := do
  let ptr ← spill vals
  let nv ← iconst (BitVec.ofNat 64 n)
  helperTo ctx rd h [ptr, nv]

/-- Read a tuple element. -/
def getElem (rd rs idx : UInt8) : Tx Unit := do
  let t ← useVar ctx rs
  let i ← iconst (idx.toBitVec.setWidth 64)
  helperTo ctx rd .getElem [t, i]

/-- A jump; `pos` is the position after it. -/
def jmp (pos : ℕ) (off : ℤ) : Tx Unit := do
  if off < 0 then safepoint
  let blk ← leaderBlock ctx (jumpTarget pos off)
  push (.jump blk)
  fill

/-- A branch; `pos` is the position after it. -/
def jmpIf (pos : ℕ) (rc : UInt8) (off : ℤ) : Tx Unit := do
  let v ← useVar ctx rc
  let raw ← expectInt v
  if off < 0 then safepoint
  let cond ← unary (.icmpImm .notEqual 0) raw
  let tblk ← leaderBlock ctx (jumpTarget pos off)
  let fblk ← leaderBlock ctx pos
  push (.brif cond tblk fblk)
  fill

/-- Return the sentinel too if the callee returned it. -/
def unwind (isTail : Value) : Tx Unit := do
  let cont ← createBlock
  let unwind ← createBlock
  push (.brif isTail unwind cont)
  switchTo unwind
  let sent ← iconst tailSentinel.word
  push (.ret sent)
  switchTo cont

/-- A call of a function of the module; a callee that tail-called unwinds this frame
too. -/
def call (rd : UInt8) (callee : UInt32) (args : List Value) : Tx Unit := do
  safepoint
  if ctx.module.functions[callee.toNat]?.isNone then throw .panic
  let v ← ins fun d => .call (some d) (.sibling callee) args
  let isTail ← unary (.icmpImm .equal tailSentinel.word) v
  unwind isTail
  defVar ctx rd v

/-- Spawn a function of the module. -/
def spawn (rd : UInt8) (callee : UInt32) (ra : UInt8) : Tx Unit := do
  let arg ← useVar ctx ra
  let fi ← iconst (callee.toBitVec.setWidth 64)
  helperTo ctx rd .spawn [fi, arg]

/-- Open a port. -/
def portOpen (rd kind : UInt8) : Tx Unit := do
  let k ← iconst (kind.toBitVec.setWidth 64)
  helperTo ctx rd .portOpen [k]

/-- Submit to a port. -/
def portSubmit (rp op ra rt : UInt8) : Tx Unit := do
  let p ← useVar ctx rp
  let o ← iconst (op.toBitVec.setWidth 64)
  let a0 ← useVar ctx ra
  let tg ← useVar ctx rt
  callVoid .portSubmit [p, o, a0, tg]

/-- Submit to a port with all operands in registers. -/
def portSubmit2 (rp ro ra0 ra1 rt : UInt8) : Tx Unit := do
  let p ← useVar ctx rp
  let o ← useVar ctx ro
  let a0 ← useVar ctx ra0
  let a1 ← useVar ctx ra1
  let tg ← useVar ctx rt
  callVoid .portSubmit2 [p, o, a0, a1, tg]

/-- Resume the callee if it tail-called. -/
def resume (rd : UInt8) (isSent : Value) (token : ℕ) : Tx Unit := do
  let resume ← createBlock
  let join ← createBlock
  push (.brif isSent resume join)
  switchTo resume
  let tok ← ins (.token · token)
  let v₂ ← unwrap (← callHelper .resumeTail [tok])
  defVar ctx rd v₂
  push (.jump join)
  switchTo join

/-- A call of a sealed function at a known address. -/
def callDirect (rd : UInt8) (t : ExtTarget) (args : List Value) : Tx Unit := do
  let v ← ins fun d => .call (some d) (.ext t.addr) args
  defVar ctx rd v
  if t.mayTail then
    let isSent ← unary (.icmpImm .equal tailSentinel.word) v
    resume ctx rd isSent t.token

/-- A call of another module through its current version. -/
def callDynamic (rd : UInt8) (mod fname : UInt32) (args : List Value) : Tx Unit := do
  let ma ← atomConst ctx mod
  let fa ← atomConst ctx fname
  let ptr ← spill args
  let nv ← iconst (BitVec.ofNat 64 args.length)
  safepoint
  helperTo ctx rd .callExt [ma, fa, ptr, nv]

/-- A call of another module. -/
def callExt (rd : UInt8) (mod fname : UInt32) (args : List Value) : Tx Unit := do
  let gm ← globalAtom ctx mod
  let gf ← globalAtom ctx fname
  match bound ctx.resolver gm gf args.length with
  | some t => callDirect ctx rd t args
  | none => callDynamic ctx rd mod fname args

/-- Return the sentinel. -/
def tailReturn : Tx Unit := do
  let sent ← iconst tailSentinel.word
  push (.ret sent)
  fill

/-- Tail-call a function of another module. -/
def tailCallExt (mod fname : UInt32) (args : List Value) : Tx Unit := do
  let ma ← atomConst ctx mod
  let fa ← atomConst ctx fname
  let ptr ← spill args
  let nv ← iconst (BitVec.ofNat 64 args.length)
  safepoint
  callVoid .tailCallExt [ma, fa, ptr, nv]
  tailReturn

/-- Tail-call a function of the module. -/
def tailCall (callee : UInt32) (args : List Value) : Tx Unit := do
  let fi ← iconst (callee.toBitVec.setWidth 64)
  let ptr ← spill args
  let nv ← iconst (BitVec.ofNat 64 args.length)
  safepoint
  callVoid .tailCallLocal [fi, ptr, nv]
  tailReturn

/-- Build a binary from the bytes of the code at `pos`. -/
def binNew (rd : UInt8) (pos len : ℕ) : Tx Unit := do
  let pv ← ins (.codeAddr · pos)
  let lv ← iconst (BitVec.ofNat 64 len)
  helperTo ctx rd .binConst [pv, lv]

/-- Read the next `n` register operands and use them. -/
def args : ℕ → Tx (List Value)
  | 0 => return []
  | n + 1 => do
    let r ← read (Decoder.u8 ctx.fn.code)
    let v ← useVar ctx r
    return v :: (← args n)

/-- Read the next `n` pairs of register operands and use them. -/
def argPairs : ℕ → Tx (List Value)
  | 0 => return []
  | n + 1 => do
    let rk ← read (Decoder.u8 ctx.fn.code)
    let rv ← read (Decoder.u8 ctx.fn.code)
    let k ← useVar ctx rk
    let v ← useVar ctx rv
    return k :: v :: (← argPairs n)

/-- The read position. -/
def pos : Tx ℕ := fun b => .ok (b.pc, b)

/-- The next byte. -/
def u8 : Tx UInt8 := read (Decoder.u8 ctx.fn.code)

/-- The next `u32`. -/
def u32 : Tx UInt32 := read (Decoder.u32 ctx.fn.code)

/-- The next `i32`. -/
def i32 : Tx ℤ := read (Decoder.i32 ctx.fn.code)

/-- The next `i64`. -/
def i64 : Tx Word := read (Decoder.i64 ctx.fn.code)

/-- Read the operands of an instruction and translate it. -/
def translateOp (op : Op) : Tx Unit := do
  match op with
  | .nop => pure ()
  | .loadInt =>
    let rd ← u8 ctx
    let v ← i64 ctx
    constTo ctx rd (Term.int v).word
  | .loadAtom =>
    let rd ← u8 ctx
    let a ← u32 ctx
    let c ← atomConst ctx a
    defVar ctx rd c
  | .reg1 o => reg1 ctx o (← u8 ctx)
  | .reg2 o => reg2 ctx o (← u8 ctx) (← u8 ctx)
  | .reg3 o => reg3 ctx o (← u8 ctx) (← u8 ctx) (← u8 ctx)
  | .reg4 o => reg4 ctx o (← u8 ctx) (← u8 ctx) (← u8 ctx) (← u8 ctx)
  | .makeTuple =>
    let rd ← u8 ctx
    let n ← u8 ctx
    let vals ← args ctx n.toNat
    spillTo ctx rd .makeTuple vals n.toNat
  | .getElem => getElem ctx (← u8 ctx) (← u8 ctx) (← u8 ctx)
  | .jmp =>
    let off ← i32 ctx
    jmp ctx (← pos) off
  | .jmpIf =>
    let rc ← u8 ctx
    let off ← i32 ctx
    jmpIf ctx (← pos) rc off
  | .call =>
    let rd ← u8 ctx
    let callee ← u32 ctx
    let n ← u8 ctx
    call ctx rd callee (← args ctx n.toNat)
  | .spawn => spawn ctx (← u8 ctx) (← u32 ctx) (← u8 ctx)
  | .portOpen => portOpen ctx (← u8 ctx) (← u8 ctx)
  | .portSubmit => portSubmit ctx (← u8 ctx) (← u8 ctx) (← u8 ctx) (← u8 ctx)
  | .callExt =>
    let rd ← u8 ctx
    let mod ← u32 ctx
    let fname ← u32 ctx
    let n ← u8 ctx
    callExt ctx rd mod fname (← args ctx n.toNat)
  | .binNew =>
    let rd ← u8 ctx
    let len ← u32 ctx
    let start ← pos
    read (Decoder.constant ctx.fn.code len.toNat)
    binNew ctx rd start len.toNat
  | .mapNew =>
    let rd ← u8 ctx
    let n ← u8 ctx
    let vals ← argPairs ctx n.toNat
    spillTo ctx rd .mapNew vals n.toNat
  | .tailCallExt =>
    let mod ← u32 ctx
    let fname ← u32 ctx
    let n ← u8 ctx
    tailCallExt ctx mod fname (← args ctx n.toNat)
  | .portSubmit2 =>
    portSubmit2 ctx (← u8 ctx) (← u8 ctx) (← u8 ctx) (← u8 ctx) (← u8 ctx)
  | .tailCall =>
    let callee ← u32 ctx
    let n ← u8 ctx
    tailCall callee (← args ctx n.toNat)

/-- Translate the next instruction. -/
def translateInsn : Tx Unit := do
  match Op.ofByte (← u8 ctx) with
  | some op => translateOp ctx op
  | none => throw .badBytecode

/-- Begin the block of a leader; code that runs into it jumps there. -/
def beginBlock : Tx Unit := fun b =>
  if b.pc ∈ ctx.leaders then
    let blk := Block.leader b.pc
    let jumps := if b.inBlock && !b.filled then [Item.jump blk] else []
    .ok ((), { b with items := b.items ++ jumps ++ [.label blk], filled := false, inBlock := true })
  else .ok ((), b)

/-- One round of the loop. -/
def round : Tx Unit := do
  modify fun b => { b with starts := b.pc :: b.starts }
  beginBlock ctx
  if (← get).filled then read (skipInsn ctx.fn.code)
  else translateInsn ctx

/-- The loop over the code. -/
def loop : ℕ → Tx Unit
  | 0 => pure ()
  | rounds + 1 => do
    if (← get).pc < ctx.fn.code.length then
      round ctx
      loop rounds

/-- The initial values of the registers: the parameters, then nil. -/
def defParams (nil : Value) : List ℕ → Tx Unit
  | [] => pure ()
  | r :: rs => do
    push (.defVar r (if r < ctx.fn.arity.toNat then r else nil))
    defParams nil rs

/-- What comes before the first instruction. -/
def prologue : Tx Unit := do
  switchTo .entry
  let nil ← iconst Term.nil.word
  defParams ctx nil (List.range ctx.fn.nregs.toNat)
  if 0 ∈ ctx.leaders then push (.jump (.leader 0)) else throw .panic

/-- The trap block. -/
def epilogue : Tx Unit := do
  switchTo .trap
  callVoid .trapBadarg []
  push .trap

/-- The whole function. -/
def body : Tx Unit := do
  prologue ctx
  loop ctx ctx.fn.code.length
  epilogue

end

end Tx

/-- The translation before anything is inserted; the parameters are values already. -/
def Builder.init (f : Function) : Builder := ⟨0, true, false, f.arity.toNat, 0, 0, [], []⟩

/-- `compile_fn` up to code generation. -/
def compileFn (m : Module) (atomMap : List UInt32) (resolver : ExtResolver) (f : Function) :
    Except JitError ClifFn := do
  let leaders ← findLeaders f.code
  let ((), b) ← Tx.body ⟨m, atomMap, resolver, f, leaders⟩ (.init f)
  return ⟨f.arity.toNat, f.nregs.toNat, f.code, b.items⟩

end Jit

end Yggdrasil
