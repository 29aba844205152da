import Yggdrasil.Bytecode.Module

/-!
# Decoded instructions

The structured view of the instruction set: an instruction with its operands, how
it is read from code, and what it means for an instruction to be well formed in a
function. The byte-level decoders of the verifier and the engines are related to
this view, so that their properties are stated once per instruction.
-/

namespace Yggdrasil

/-- An instruction with its operands. -/
inductive Insn where
  | nop
  | loadInt (rd : UInt8) (v : Word)
  | loadAtom (rd : UInt8) (a : UInt32)
  | reg1 (o : Reg1Op) (r : UInt8)
  | reg2 (o : Reg2Op) (a b : UInt8)
  | reg3 (o : Reg3Op) (a b c : UInt8)
  | reg4 (o : Reg4Op) (a b c d : UInt8)
  | makeTuple (rd : UInt8) (rs : List UInt8)
  | getElem (rd rs idx : UInt8)
  | jmp (off : ℤ)
  | jmpIf (rc : UInt8) (off : ℤ)
  | call (rd : UInt8) (callee : UInt32) (args : List UInt8)
  | spawn (rd : UInt8) (callee : UInt32) (ra : UInt8)
  | portOpen (rd kind : UInt8)
  | portSubmit (rp op ra rt : UInt8)
  | callExt (rd : UInt8) (mod fname : UInt32) (args : List UInt8)
  | binNew (rd : UInt8) (data : List UInt8)
  | mapNew (rd : UInt8) (pairs : List (UInt8 × UInt8))
  | tailCallExt (mod fname : UInt32) (args : List UInt8)
  | portSubmit2 (rp ro ra0 ra1 rt : UInt8)
  | tailCall (callee : UInt32) (args : List UInt8)
  deriving DecidableEq, Repr

/-- A reader of operands that can run off the code. -/
abbrev Dec := StateT ℕ Option

namespace Dec

section

variable (code : List UInt8)

/-- The next byte. -/
def u8 : Dec UInt8 := fun pos => code[pos]?.map fun b => (b, pos + 1)

/-- The next `u32`. -/
def u32 : Dec UInt32 := fun pos => (getU32 code pos).map fun v => (v, pos + 4)

/-- The next `i64`. -/
def i64 : Dec Word := fun pos => (getI64 code pos).map fun v => (v, pos + 8)

/-- The next `n` bytes. -/
def bytes (n : ℕ) : Dec (List UInt8) := fun pos => (slice code pos n).map fun s => (s, pos + n)

/-- The next `n` register operands. -/
def regs : ℕ → Dec (List UInt8)
  | 0 => return []
  | n + 1 => do
    let r ← u8 code
    let rs ← regs n
    return r :: rs

/-- The next `n` pairs of register operands. -/
def regPairs : ℕ → Dec (List (UInt8 × UInt8))
  | 0 => return []
  | n + 1 => do
    let k ← u8 code
    let v ← u8 code
    let rest ← regPairs n
    return (k, v) :: rest

/-- The operands of an instruction, in the order they are encoded. -/
def operands : Op → Dec Insn
  | .nop => return .nop
  | .loadInt => return .loadInt (← u8 code) (← i64 code)
  | .loadAtom => return .loadAtom (← u8 code) (← u32 code)
  | .reg1 o => return .reg1 o (← u8 code)
  | .reg2 o => return .reg2 o (← u8 code) (← u8 code)
  | .reg3 o => return .reg3 o (← u8 code) (← u8 code) (← u8 code)
  | .reg4 o => return .reg4 o (← u8 code) (← u8 code) (← u8 code) (← u8 code)
  | .makeTuple => do
    let rd ← u8 code
    let n ← u8 code
    return .makeTuple rd (← regs code n.toNat)
  | .getElem => return .getElem (← u8 code) (← u8 code) (← u8 code)
  | .jmp => return .jmp (asI32 (← u32 code))
  | .jmpIf => return .jmpIf (← u8 code) (asI32 (← u32 code))
  | .call => do
    let rd ← u8 code
    let callee ← u32 code
    let n ← u8 code
    return .call rd callee (← regs code n.toNat)
  | .spawn => return .spawn (← u8 code) (← u32 code) (← u8 code)
  | .portOpen => return .portOpen (← u8 code) (← u8 code)
  | .portSubmit => return .portSubmit (← u8 code) (← u8 code) (← u8 code) (← u8 code)
  | .callExt => do
    let rd ← u8 code
    let mod ← u32 code
    let fname ← u32 code
    let n ← u8 code
    return .callExt rd mod fname (← regs code n.toNat)
  | .binNew => do
    let rd ← u8 code
    let len ← u32 code
    return .binNew rd (← bytes code len.toNat)
  | .mapNew => do
    let rd ← u8 code
    let n ← u8 code
    return .mapNew rd (← regPairs code n.toNat)
  | .tailCallExt => do
    let mod ← u32 code
    let fname ← u32 code
    let n ← u8 code
    return .tailCallExt mod fname (← regs code n.toNat)
  | .portSubmit2 =>
    return .portSubmit2 (← u8 code) (← u8 code) (← u8 code) (← u8 code) (← u8 code)
  | .tailCall => do
    let callee ← u32 code
    let n ← u8 code
    return .tailCall callee (← regs code n.toNat)

/-- The next instruction. -/
def insn : Dec Insn := do
  let b ← u8 code
  match Op.ofByte b with
  | some op => operands code op
  | none => failure

end

end Dec

/-- The instruction at `pos` and the position after it. -/
def decodeAt (code : List UInt8) (pos : ℕ) : Option (Insn × ℕ) := (Dec.insn code).run pos

namespace Insn

/-- The register operands. -/
def regs : Insn → List UInt8
  | nop | jmp _ => []
  | loadInt rd _ | loadAtom rd _ | portOpen rd _ | binNew rd _ => [rd]
  | reg1 _ r => [r]
  | reg2 _ a b => [a, b]
  | reg3 _ a b c => [a, b, c]
  | reg4 _ a b c d => [a, b, c, d]
  | makeTuple rd rs => rd :: rs
  | getElem rd rs _ => [rd, rs]
  | jmpIf rc _ => [rc]
  | call rd _ args | callExt rd _ _ args => rd :: args
  | spawn rd _ ra => [rd, ra]
  | portSubmit rp _ ra rt => [rp, ra, rt]
  | mapNew rd pairs => rd :: pairs.flatMap fun kv => [kv.1, kv.2]
  | tailCallExt _ _ args | tailCall _ args => args
  | portSubmit2 rp ro ra0 ra1 rt => [rp, ro, ra0, ra1, rt]

/-- The atom operands. -/
def atoms : Insn → List UInt32
  | loadAtom _ a => [a]
  | callExt _ mod fname _ | tailCallExt mod fname _ => [mod, fname]
  | _ => []

/-- The functions of the same module it names, with the number of arguments passed. -/
def callees : Insn → List (UInt32 × ℕ)
  | call _ callee args | tailCall callee args => [(callee, args.length)]
  | spawn _ callee _ => [(callee, 1)]
  | _ => []

/-- The jump offset, relative to the next instruction. -/
def offset : Insn → Option ℤ
  | jmp off | jmpIf _ off => some off
  | _ => none

/-- Whether control may run on to the next instruction. -/
def fallsThrough : Insn → Bool
  | jmp _ | tailCallExt _ _ _ | tailCall _ _ => false
  | reg1 o _ => !(o = .ret || o = .exitAtom)
  | _ => true

/-- Every operand of the instruction is in range for function `f` of module `m`. -/
structure WellFormed (m : Module) (f : Function) (i : Insn) : Prop where
  /-- Registers lie in the frame. -/
  regs_lt : ∀ r ∈ i.regs, r < f.nregs
  /-- Atoms lie in the atom table. -/
  atoms_lt : ∀ a ∈ i.atoms, a.toNat < m.atoms.length
  /-- Callees exist and take the arguments they are given. -/
  callees_ok : ∀ c ∈ i.callees, ∃ g, m.functions[c.1.toNat]? = some g ∧ g.arity.toNat = c.2

/-- Well-formedness as a conjunction. -/
theorem wellFormed_iff {m : Module} {f : Function} {i : Insn} :
    i.WellFormed m f ↔ (∀ r ∈ i.regs, r < f.nregs) ∧ (∀ a ∈ i.atoms, a.toNat < m.atoms.length) ∧
      ∀ c ∈ i.callees, ∃ g, m.functions[c.1.toNat]? = some g ∧ g.arity.toNat = c.2 :=
  ⟨fun h => ⟨h.regs_lt, h.atoms_lt, h.callees_ok⟩, fun h => ⟨h.1, h.2.1, h.2.2⟩⟩

end Insn

end Yggdrasil
