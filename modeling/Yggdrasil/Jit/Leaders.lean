import Yggdrasil.Bytecode.Module

/-!
# Block leaders

The first pass of the compiler decodes a function to find where its blocks begin: at
its first instruction, at every jump target, and after every instruction that control
does not run past or that branches. Code that cannot be reached is skipped with another
decoder.
-/

namespace Yggdrasil

namespace Jit

/-- Why the compiler gives up; `panic` is an index out of range. -/
inductive JitError where
  | badBytecode
  | panic
  deriving DecidableEq, Repr

/-- The reader of the compiler; the state is the read position. -/
abbrev Decoder := StateT ℕ (Except JitError)

namespace Decoder

section

variable (code : List UInt8)

/-- The next byte. -/
def u8 : Decoder UInt8 := fun pos =>
  match code[pos]? with
  | some b => .ok (b, pos + 1)
  | none => .error .badBytecode

/-- The next `u32`. -/
def u32 : Decoder UInt32 := fun pos =>
  match getU32 code pos with
  | some v => .ok (v, pos + 4)
  | none => .error .badBytecode

/-- The next `i32`. -/
def i32 : Decoder ℤ := do return asI32 (← u32 code)

/-- The next `i64`. -/
def i64 : Decoder Word := fun pos =>
  match getI64 code pos with
  | some v => .ok (v, pos + 8)
  | none => .error .badBytecode

/-- The next `len` bytes of a constant, which are passed over. -/
def constant (len : ℕ) : Decoder Unit := fun pos =>
  if pos + len > code.length then .error .badBytecode else .ok ((), pos + len)

/-- Pass over `n` bytes one by one. -/
def u8s : ℕ → Decoder Unit
  | 0 => pure ()
  | n + 1 => do
    let _ ← u8 code
    u8s n

/-- Pass over `n` pairs of bytes. -/
def u8Pairs : ℕ → Decoder Unit
  | 0 => pure ()
  | n + 1 => do
    let _ ← u8 code
    let _ ← u8 code
    u8Pairs n

end

end Decoder

open Decoder

/-- The operands of an instruction that `skip_insn` passes over. -/
def skipOp (code : List UInt8) (op : Op) : Decoder Unit := do
  match op with
  | .nop => pure ()
  | .loadInt =>
    let _ ← u8 code
    let _ ← i64 code
  | .loadAtom =>
    let _ ← u8 code
    let _ ← u32 code
  | .reg1 .loadNil | .reg1 .selfPid | .reg1 .recv | .reg1 .ret | .reg1 .exitAtom | .reg1 .print
  | .reg1 .ticks => u8s code 1
  | .reg2 .move | .reg2 .head | .reg2 .tail | .reg2 .send => u8s code 2
  | .makeTuple =>
    let _ ← u8 code
    let n ← u8 code
    u8s code n.toNat
  | .getElem | .reg3 .cons | .reg3 .add | .reg3 .sub | .reg3 .mul | .reg3 .cmpEq | .reg3 .cmpLt
  | .reg3 .band | .reg3 .bor | .reg3 .bxor | .reg3 .bsl | .reg3 .bsr | .reg3 .binCat
  | .reg3 .listCat => u8s code 3
  | .reg2 .bnot | .reg2 .binFromList | .reg2 .binToList | .reg2 .binSize | .reg2 .bufToBin
  | .reg2 .binToBuf | .reg2 .isBinary => u8s code 2
  | .binNew =>
    let _ ← u8 code
    let len ← u32 code
    constant code len.toNat
  | .mapNew =>
    let _ ← u8 code
    let n ← u8 code
    u8Pairs code n.toNat
  | .reg3 .mapGet | .reg3 .binAt => u8s code 3
  | .reg4 .mapPut | .reg4 .binPart => u8s code 4
  | .jmp =>
    let _ ← i32 code
  | .jmpIf =>
    let _ ← u8 code
    let _ ← i32 code
  | .call =>
    let _ ← u8 code
    let _ ← u32 code
    let n ← u8 code
    u8s code n.toNat
  | .spawn =>
    let _ ← u8 code
    let _ ← u32 code
    let _ ← u8 code
  | .portOpen => u8s code 2
  | .portSubmit => u8s code 4
  | .portSubmit2 => u8s code 5
  | .reg4 .bufWrite => u8s code 4
  | .reg1 .sleepMs => u8s code 1
  | .reg2 .bufNew => u8s code 2
  | .reg4 .bufRead => u8s code 4
  | .callExt =>
    let _ ← u8 code
    let _ ← u32 code
    let _ ← u32 code
    let n ← u8 code
    u8s code n.toNat
  | .tailCallExt =>
    let _ ← u32 code
    let _ ← u32 code
    let n ← u8 code
    u8s code n.toNat
  | .tailCall =>
    let _ ← u32 code
    let n ← u8 code
    u8s code n.toNat

/-- `skip_insn`. -/
def skipInsn (code : List UInt8) : Decoder Unit := do
  match Op.ofByte (← u8 code) with
  | some op => skipOp code op
  | none => throw .badBytecode

/-- The position a jump leads to, as a `usize`. -/
def jumpTarget (pos : ℕ) (off : ℤ) : ℕ :=
  if 0 ≤ (pos : ℤ) + off then ((pos : ℤ) + off).toNat else (2 ^ 64 + pos + off).toNat

/-- The operands of an instruction in the first pass. The result is the leaders it
gives rise to. -/
def leaderOp (code : List UInt8) (op : Op) : Decoder (List ℕ) := do
  match op with
  | .nop => return []
  | .loadInt =>
    let _ ← u8 code
    let _ ← i64 code
    return []
  | .loadAtom =>
    let _ ← u8 code
    let _ ← u32 code
    return []
  | .reg1 .loadNil | .reg1 .selfPid | .reg1 .recv | .reg1 .print | .reg1 .ticks =>
    u8s code 1
    return []
  | .reg1 .ret | .reg1 .exitAtom =>
    u8s code 1
    return [← get]
  | .reg2 .move | .reg2 .head | .reg2 .tail | .reg2 .send =>
    u8s code 2
    return []
  | .makeTuple =>
    let _ ← u8 code
    let n ← u8 code
    u8s code n.toNat
    return []
  | .getElem =>
    u8s code 3
    return []
  | .reg3 .cons | .reg3 .add | .reg3 .sub | .reg3 .mul | .reg3 .cmpEq | .reg3 .cmpLt
  | .reg3 .band | .reg3 .bor | .reg3 .bxor | .reg3 .bsl | .reg3 .bsr | .reg3 .binCat
  | .reg3 .listCat =>
    u8s code 3
    return []
  | .reg2 .bnot | .reg2 .binFromList | .reg2 .binToList | .reg2 .binSize | .reg2 .bufToBin
  | .reg2 .binToBuf | .reg2 .isBinary =>
    u8s code 2
    return []
  | .binNew =>
    let _ ← u8 code
    let len ← u32 code
    constant code len.toNat
    return []
  | .mapNew =>
    let _ ← u8 code
    let n ← u8 code
    u8Pairs code n.toNat
    return []
  | .reg3 .mapGet | .reg3 .binAt =>
    u8s code 3
    return []
  | .reg4 .mapPut | .reg4 .binPart =>
    u8s code 4
    return []
  | .jmp =>
    let off ← i32 code
    let pos ← get
    return [jumpTarget pos off, pos]
  | .jmpIf =>
    let _ ← u8 code
    let off ← i32 code
    let pos ← get
    return [jumpTarget pos off, pos]
  | .call =>
    let _ ← u8 code
    let _ ← u32 code
    let n ← u8 code
    u8s code n.toNat
    return []
  | .spawn =>
    let _ ← u8 code
    let _ ← u32 code
    let _ ← u8 code
    return []
  | .portOpen =>
    u8s code 2
    return []
  | .portSubmit =>
    u8s code 4
    return []
  | .portSubmit2 =>
    u8s code 5
    return []
  | .reg4 .bufWrite =>
    u8s code 4
    return []
  | .reg1 .sleepMs =>
    u8s code 1
    return []
  | .reg2 .bufNew =>
    u8s code 2
    return []
  | .reg4 .bufRead =>
    u8s code 4
    return []
  | .callExt =>
    let _ ← u8 code
    let _ ← u32 code
    let _ ← u32 code
    let n ← u8 code
    u8s code n.toNat
    return []
  | .tailCallExt =>
    let _ ← u32 code
    let _ ← u32 code
    let n ← u8 code
    u8s code n.toNat
    return [← get]
  | .tailCall =>
    let _ ← u32 code
    let n ← u8 code
    u8s code n.toNat
    return [← get]

/-- One instruction of the first pass. -/
def leaderInsn (code : List UInt8) : Decoder (List ℕ) := do
  match Op.ofByte (← u8 code) with
  | some op => leaderOp code op
  | none => throw .badBytecode

/-- What the first pass has found. -/
structure LeaderScan where
  /-- The leaders. -/
  leaders : List ℕ
  /-- History: where instructions start, latest first. -/
  starts : List ℕ
  deriving DecidableEq, Repr

/-- The loop of the first pass. -/
def leaderLoop (code : List UInt8) : ℕ → ℕ → LeaderScan → Except JitError LeaderScan
  | 0, _, st => .ok st
  | rounds + 1, pos, st =>
    if pos < code.length then do
      let (new, next) ← leaderInsn code pos
      leaderLoop code rounds next ⟨new ++ st.leaders, pos :: st.starts⟩
    else .ok st

/-- The first pass over a function. -/
def leaderScan (code : List UInt8) : Except JitError LeaderScan :=
  leaderLoop code code.length 0 ⟨[0], []⟩

/-- `find_leaders`: the leaders that are positions in the code. -/
def findLeaders (code : List UInt8) : Except JitError (List ℕ) := do
  return (← leaderScan code).leaders.filter (· ≠ code.length)

end Jit

end Yggdrasil
