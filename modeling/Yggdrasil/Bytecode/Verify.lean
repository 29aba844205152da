import Yggdrasil.Bytecode.Module

/-!
# The bytecode verifier

One linear scan over the code of each function checks every operand, records
where instructions start and where jumps lead, and at the end checks that control
cannot run past the last instruction and that every jump lands on an instruction
start.
-/

namespace Yggdrasil

/-- Why a module is rejected. -/
inductive VerifyError where
  | badFunctionName (fnIdx : ℕ)
  | arityExceedsRegs (fnIdx : ℕ)
  | unknownOpcode (fnIdx pos : ℕ) (opcode : UInt8)
  | truncatedInstruction (fnIdx pos : ℕ)
  | badRegister (fnIdx pos : ℕ) (reg : UInt8)
  | badAtom (fnIdx pos : ℕ) (atom : UInt32)
  | badJumpTarget (fnIdx pos : ℕ)
  | badCallTarget (fnIdx pos : ℕ) (callee : UInt32)
  | badCallArity (fnIdx pos : ℕ)
  | fallsOffEnd (fnIdx : ℕ)
  deriving DecidableEq, Repr

/-- The verifier's reader; the state is the read position. -/
abbrev Scan := StateT ℕ (Except VerifyError)

namespace Scan

section

variable (m : Module) (fnIdx : ℕ) (f : Function) (start : ℕ)

/-- The next byte of the instruction that began at `start`. -/
def u8 : Scan UInt8 := fun pos =>
  match f.code[pos]? with
  | some b => .ok (b, pos + 1)
  | none => .error (.truncatedInstruction fnIdx start)

/-- The next `u32`. -/
def u32 : Scan UInt32 := fun pos =>
  match getU32 f.code pos with
  | some v => .ok (v, pos + 4)
  | none => .error (.truncatedInstruction fnIdx start)

/-- Skip `n` bytes. -/
def skip (n : ℕ) : Scan Unit := fun pos =>
  if pos + n > f.code.length then .error (.truncatedInstruction fnIdx start)
  else .ok ((), pos + n)

/-- A register must lie in the frame. -/
def regOk (r : UInt8) : Scan Unit :=
  if r ≥ f.nregs then throw (.badRegister fnIdx start r) else pure ()

/-- Read and check one register operand. -/
def reg : Scan Unit := do
  regOk fnIdx f start (← u8 fnIdx f start)

/-- Read and check `n` register operands. -/
def regs : ℕ → Scan Unit
  | 0 => pure ()
  | n + 1 => do
    reg fnIdx f start
    regs n

/-- Read and check an atom operand. -/
def atom : Scan Unit := do
  let a ← u32 fnIdx f start
  if m.atoms[a.toNat]? = none then throw (.badAtom fnIdx start a)

/-- A callee must exist and take the given number of arguments. -/
def callee (c : UInt32) (nargs : UInt8) : Scan Unit :=
  match m.functions[c.toNat]? with
  | none => throw (.badCallTarget fnIdx start c)
  | some target => if target.arity ≠ nargs then throw (.badCallArity fnIdx start) else pure ()

/-- The absolute target of the jump offset that ends an instruction. -/
def target : Scan ℤ := do
  let off ← u32 fnIdx f start
  let pos ← get
  return (pos : ℤ) + asI32 off

/-- Check the operands of one instruction. The result is its jump target, if it
has one, and whether control may run on to the next instruction. -/
def operands (op : Op) : Scan (Option ℤ × Bool) := do
  match op with
  | .nop => return (none, true)
  | .loadInt =>
    reg fnIdx f start
    skip fnIdx f start 8
    return (none, true)
  | .loadAtom =>
    reg fnIdx f start
    atom m fnIdx f start
    return (none, true)
  | .reg1 o =>
    reg fnIdx f start
    return (none, !(o = .ret || o = .exitAtom))
  | .reg2 _ =>
    reg fnIdx f start
    reg fnIdx f start
    return (none, true)
  | .reg3 _ =>
    reg fnIdx f start
    reg fnIdx f start
    reg fnIdx f start
    return (none, true)
  | .reg4 _ =>
    reg fnIdx f start
    reg fnIdx f start
    reg fnIdx f start
    reg fnIdx f start
    return (none, true)
  | .makeTuple =>
    reg fnIdx f start
    let n ← u8 fnIdx f start
    regs fnIdx f start n.toNat
    return (none, true)
  | .getElem =>
    reg fnIdx f start
    reg fnIdx f start
    skip fnIdx f start 1
    return (none, true)
  | .jmp =>
    let t ← target fnIdx f start
    return (some t, false)
  | .jmpIf =>
    reg fnIdx f start
    let t ← target fnIdx f start
    return (some t, true)
  | .call =>
    reg fnIdx f start
    let c ← u32 fnIdx f start
    let nargs ← u8 fnIdx f start
    callee m fnIdx start c nargs
    regs fnIdx f start nargs.toNat
    return (none, true)
  | .spawn =>
    reg fnIdx f start
    let c ← u32 fnIdx f start
    callee m fnIdx start c 1
    reg fnIdx f start
    return (none, true)
  | .portOpen =>
    reg fnIdx f start
    skip fnIdx f start 1
    return (none, true)
  | .portSubmit =>
    reg fnIdx f start
    skip fnIdx f start 1
    reg fnIdx f start
    reg fnIdx f start
    return (none, true)
  | .callExt =>
    reg fnIdx f start
    atom m fnIdx f start
    atom m fnIdx f start
    let nargs ← u8 fnIdx f start
    regs fnIdx f start nargs.toNat
    return (none, true)
  | .binNew =>
    reg fnIdx f start
    let len ← u32 fnIdx f start
    skip fnIdx f start len.toNat
    return (none, true)
  | .mapNew =>
    reg fnIdx f start
    let n ← u8 fnIdx f start
    regs fnIdx f start (2 * n.toNat)
    return (none, true)
  | .tailCallExt =>
    atom m fnIdx f start
    atom m fnIdx f start
    let nargs ← u8 fnIdx f start
    regs fnIdx f start nargs.toNat
    return (none, false)
  | .portSubmit2 =>
    reg fnIdx f start
    reg fnIdx f start
    reg fnIdx f start
    reg fnIdx f start
    reg fnIdx f start
    return (none, true)
  | .tailCall =>
    let c ← u32 fnIdx f start
    let nargs ← u8 fnIdx f start
    callee m fnIdx start c nargs
    regs fnIdx f start nargs.toNat
    return (none, false)

/-- Scan the instruction at `start`. -/
def insn : Scan (Option ℤ × Bool) := do
  let opcode ← u8 fnIdx f start
  match Op.ofByte opcode with
  | some op => operands m fnIdx f start op
  | none => throw (.unknownOpcode fnIdx start opcode)

end

end Scan

/-- What the scan of a function has collected. -/
structure ScanState where
  /-- Instruction starts, latest first. -/
  boundaries : List ℕ
  /-- Jump sites with their absolute targets, latest first. -/
  jumpTargets : List (ℕ × ℤ)
  /-- Whether the last instruction lets control run on. -/
  fellThrough : Bool
  deriving DecidableEq, Repr

/-- The scan loop of `verify_fn` from position `pos`. Every instruction takes at
least one byte, so as many rounds as there are bytes reach the end of the code. -/
def scanLoop (m : Module) (fnIdx : ℕ) (f : Function) :
    ℕ → ℕ → ScanState → Except VerifyError ScanState
  | 0, _, st => .ok st
  | rounds + 1, pos, st =>
    if pos < f.code.length then do
      let ((jump, fell), next) ← (Scan.insn m fnIdx f pos).run pos
      scanLoop m fnIdx f rounds next
        ⟨pos :: st.boundaries, (jump.map fun t => (pos, t)).toList ++ st.jumpTargets, fell⟩
    else .ok st

/-- The collected facts of the whole scan. -/
def scanFn (m : Module) (fnIdx : ℕ) (f : Function) : Except VerifyError ScanState :=
  scanLoop m fnIdx f f.code.length 0 ⟨[], [], true⟩

/-- Every jump must land on an instruction start. -/
def checkJumps (fnIdx : ℕ) (boundaries : List ℕ) : List (ℕ × ℤ) → Except VerifyError Unit
  | [] => .ok ()
  | (pos, target) :: rest =>
    if target < 0 ∨ target.toNat ∉ boundaries then .error (.badJumpTarget fnIdx pos)
    else checkJumps fnIdx boundaries rest

/-- Check one function. -/
def verifyFn (m : Module) (fnIdx : ℕ) (f : Function) : Except VerifyError Unit := do
  if m.atoms[f.nameAtom.toNat]? = none then throw (.badFunctionName fnIdx)
  if f.arity > f.nregs then throw (.arityExceedsRegs fnIdx)
  let st ← scanFn m fnIdx f
  if st.fellThrough then throw (.fallsOffEnd fnIdx)
  checkJumps fnIdx st.boundaries st.jumpTargets.reverse

/-- Check the functions from index `fnIdx` on. -/
def verifyFrom (m : Module) : ℕ → List Function → Except VerifyError Unit
  | _, [] => .ok ()
  | fnIdx, f :: fs => do
    verifyFn m fnIdx f
    verifyFrom m (fnIdx + 1) fs

/-- Check a module. -/
def verify (m : Module) : Except VerifyError Unit := verifyFrom m 0 m.functions

end Yggdrasil
