import Mathlib.Data.List.Forall2
import Yggdrasil.Asm.Assemble
import Yggdrasil.Bytecode.WellFormed

/-!
# What assembly text says

The code of a function is split into instructions with the lengths of the verifier. It is
exact when these are the instructions of the source one by one, with the operands the source
gives them. The sizes of source instructions and the order in which names are interned can
be told from the source alone, and so can whether counts, offsets and indices fit their
fields.
-/

namespace Yggdrasil

namespace Insn

/-- Split code from `pos` on into instructions. Every instruction takes at least one byte, so
as many rounds as there are bytes reach the end. -/
def splitLoop (code : List UInt8) : ℕ → ℕ → Option (List Insn)
  | 0, pos => if code.length ≤ pos then some [] else none
  | rounds + 1, pos =>
    if code.length ≤ pos then some []
    else do
      let (i, next) ← decodeAt code pos
      let rest ← splitLoop code rounds next
      return i :: rest

/-- Split code into instructions; none if it is not a sequence of instructions. -/
def split (code : List UInt8) : Option (List Insn) := splitLoop code code.length 0

section Split

variable {code : List UInt8} {rounds pos : ℕ} {insns : List Insn}

private theorem split_done (hend : code.length ≤ pos) :
    some [] = some insns ↔ code.drop pos = encodeAll insns ∧ ∀ i ∈ insns, i.Encodable := by
  rw [List.drop_eq_nil_of_le hend]
  constructor
  · rintro ⟨⟩
    exact ⟨rfl, List.forall_mem_nil _⟩
  · rintro ⟨hcode, -⟩
    cases insns with
    | nil => rfl
    | cons i is => cases hcode

private theorem splitLoop_eq_some_iff (hpos : pos ≤ code.length)
    (hrounds : code.length ≤ pos + rounds) :
    splitLoop code rounds pos = some insns ↔
      code.drop pos = encodeAll insns ∧ ∀ i ∈ insns, i.Encodable := by
  induction rounds generalizing pos insns with
  | zero =>
    rw [splitLoop, if_pos (by omega)]
    exact split_done (by omega)
  | succ rounds ih =>
    rw [splitLoop]
    by_cases hend : code.length ≤ pos
    · rw [if_pos hend]
      exact split_done hend
    rw [if_neg hend]
    constructor
    · intro h
      obtain ⟨⟨i, next⟩, hi, h⟩ := Option.bind_eq_some_iff.mp h
      obtain ⟨rest, hrest, h⟩ := Option.bind_eq_some_iff.mp h
      cases h
      obtain ⟨hlt, hle⟩ := decodeAt_bounds hi
      obtain ⟨hok, ⟨tail, htail⟩, rfl⟩ := (decodeAt_eq_some_iff hpos).mp hi
      obtain ⟨hcode, hall⟩ := (ih hle (by omega)).mp hrest
      refine ⟨?_, List.forall_mem_cons.mpr ⟨hok, hall⟩⟩
      rw [← List.drop_drop, ← htail, List.drop_left] at hcode
      rw [← htail, hcode]
      rfl
    · rintro ⟨hcode, hall⟩
      cases insns with
      | nil =>
        have hlen := congrArg List.length hcode
        rw [List.length_drop] at hlen
        exact absurd hlen (by simp only [encodeAll, List.flatMap_nil, List.length_nil]; omega)
      | cons i is =>
        obtain ⟨hok, hall⟩ := List.forall_mem_cons.mp hall
        obtain ⟨hi, hrest⟩ := decodeAt_cons hpos hcode hok
        obtain ⟨hlt, hle⟩ := decodeAt_bounds hi
        exact Option.bind_eq_some_iff.mpr ⟨_, hi, Option.bind_eq_some_iff.mpr
          ⟨is, (ih hle (by omega)).mpr ⟨hrest, hall⟩, rfl⟩⟩

/-- Code is split into the instructions it is the encoding of. -/
theorem split_eq_some_iff :
    split code = some insns ↔ code = encodeAll insns ∧ ∀ i ∈ insns, i.Encodable := by
  have h := @splitLoop_eq_some_iff code code.length 0 insns (Nat.zero_le _) (by omega)
  rwa [List.drop_zero] at h

end Split

end Insn

namespace Asm

/-- Kinds of operands. -/
inductive OperandKind where
  | reg
  | int
  | byte
  | atom
  | label
  | callee
  deriving DecidableEq, Repr

/-- How many bytes an operand takes. -/
def OperandKind.size : OperandKind → ℕ
  | reg | byte => 1
  | int => 8
  | atom | label | callee => 4

/-- What operands an instruction takes. -/
structure Signature where
  /-- The operands it always takes. -/
  kinds : List OperandKind
  /-- Whether any number of registers may follow. -/
  more : Bool
  deriving DecidableEq, Repr

namespace Signature

/-- Whether `n` operands are taken, none is left over and the count fits its byte. -/
def Takes (sig : Signature) (n : ℕ) : Prop :=
  sig.kinds.length ≤ n ∧ n < sig.kinds.length + if sig.more then 2 ^ 8 else 1

/-- How many bytes an instruction with `n` operands takes. -/
def size (sig : Signature) (n : ℕ) : ℕ :=
  1 + (sig.kinds.map OperandKind.size).sum + if sig.more then 1 + (n - sig.kinds.length) else 0

/-- The operands of an opcode that has a mnemonic. -/
def ofOp : Op → Option Signature
  | .nop => some ⟨[], false⟩
  | .loadInt => some ⟨[.reg, .int], false⟩
  | .loadAtom => some ⟨[.reg, .atom], false⟩
  | .reg1 _ => some ⟨[.reg], false⟩
  | .reg2 _ => some ⟨[.reg, .reg], false⟩
  | .reg3 _ => some ⟨[.reg, .reg, .reg], false⟩
  | .makeTuple => some ⟨[.reg], true⟩
  | .getElem => some ⟨[.reg, .reg, .byte], false⟩
  | .jmp => some ⟨[.label], false⟩
  | .jmpIf => some ⟨[.reg, .label], false⟩
  | .call => some ⟨[.reg, .callee], true⟩
  | .spawn => some ⟨[.reg, .callee, .reg], false⟩
  | .portOpen => some ⟨[.reg, .byte], false⟩
  | .portSubmit => some ⟨[.reg, .byte, .reg, .reg], false⟩
  | .callExt => some ⟨[.reg, .atom, .atom], true⟩
  | _ => none

/-- Opcodes that have a mnemonic have a signature. -/
theorem exists_ofOp {mnem : String} {op : Op} (h : ofMnemonic mnem = some op) :
    ∃ sig, ofOp op = some sig := by
  unfold ofMnemonic at h
  split at h <;> cases h <;> exact ⟨_, rfl⟩

end Signature

/-- An operand of an instruction. -/
inductive Operand where
  | reg (r : UInt8)
  | int (v : Word)
  | byte (n : UInt8)
  | atom (a : UInt32)
  | label (off : ℤ)
  | callee (f : UInt32)
  deriving DecidableEq, Repr

/-- The kind of an operand. -/
def Operand.kind : Operand → OperandKind
  | reg _ => .reg
  | int _ => .int
  | byte _ => .byte
  | atom _ => .atom
  | label _ => .label
  | callee _ => .callee

end Asm

namespace Insn

open Asm

/-- The operands of an instruction, in the order they are encoded. -/
def operands : Insn → List Operand
  | nop => []
  | loadInt rd v => [.reg rd, .int v]
  | loadAtom rd a => [.reg rd, .atom a]
  | reg1 _ r => [.reg r]
  | reg2 _ a b => [.reg a, .reg b]
  | reg3 _ a b c => [.reg a, .reg b, .reg c]
  | reg4 _ a b c d => [.reg a, .reg b, .reg c, .reg d]
  | makeTuple rd rs => .reg rd :: rs.map .reg
  | getElem rd rs idx => [.reg rd, .reg rs, .byte idx]
  | jmp off => [.label off]
  | jmpIf rc off => [.reg rc, .label off]
  | call rd callee args => .reg rd :: .callee callee :: args.map .reg
  | spawn rd callee ra => [.reg rd, .callee callee, .reg ra]
  | portOpen rd kind => [.reg rd, .byte kind]
  | portSubmit rp op ra rt => [.reg rp, .byte op, .reg ra, .reg rt]
  | callExt rd mod fname args => .reg rd :: .atom mod :: .atom fname :: args.map .reg
  | binNew rd data => .reg rd :: data.map .byte
  | mapNew rd pairs => .reg rd :: pairs.flatMap fun kv => [.reg kv.1, .reg kv.2]
  | tailCallExt mod fname args => .atom mod :: .atom fname :: args.map .reg
  | portSubmit2 rp ro ra0 ra1 rt => [.reg rp, .reg ro, .reg ra0, .reg ra1, .reg rt]
  | tailCall callee args => .callee callee :: args.map .reg

section Operands

variable {i : Insn} {sig : Signature}

/-- Operands are of the kinds the signature says, and registers behind them. -/
theorem operands_kinds (h : Signature.ofOp i.op = some sig) :
    ∃ n, i.operands.map Operand.kind = sig.kinds ++ List.replicate n .reg ∧
      (sig.more = false → n = 0) := by
  have hregs : ∀ rs : List UInt8,
      (rs.map Operand.reg).map Operand.kind = List.replicate rs.length .reg := by
    intro rs
    rw [List.map_map]
    exact List.map_const' ..
  cases i <;> cases h
  case makeTuple rd rs =>
    refine ⟨rs.length, congrArg (_ :: ·) (hregs rs), fun h => ?_⟩
    cases h
  case call rd callee rs =>
    refine ⟨rs.length, congrArg (_ :: _ :: ·) (hregs rs), fun h => ?_⟩
    cases h
  case callExt rd mod fname rs =>
    refine ⟨rs.length, congrArg (_ :: _ :: _ :: ·) (hregs rs), fun h => ?_⟩
    cases h
  all_goals exact ⟨0, rfl, fun _ => rfl⟩

/-- The signature tells the length of the encoding. -/
theorem length_encode (h : Signature.ofOp i.op = some sig) :
    i.encode.length = sig.size i.operands.length := by
  cases i <;> cases h <;>
    simp [encode, operandBytes, encodeRegs, encodeOffset, operands, Signature.size,
      OperandKind.size] <;>
    omega

/-- Counts and offsets fit. -/
theorem encodable_iff (h : Signature.ofOp i.op = some sig) :
    i.Encodable ↔ sig.Takes i.operands.length ∧
      ∀ off, i.offset = some off → -2 ^ 31 ≤ off ∧ off < 2 ^ 31 := by
  cases i <;> cases h <;>
    simp [Encodable, Signature.Takes, operands, offset] <;>
    omega

/-- An operand that is no register has its place in the signature. -/
theorem kind_at (h : Signature.ofOp i.op = some sig) {q : ℕ} {x : Operand}
    (hx : i.operands[q]? = some x) (hreg : x.kind ≠ .reg) : sig.kinds[q]? = some x.kind := by
  obtain ⟨n, hkinds, -⟩ := operands_kinds h
  have hq : (sig.kinds ++ List.replicate n .reg)[q]? = some x.kind := by
    rw [← hkinds, List.getElem?_map, hx, Option.map_some]
  by_cases hlt : q < sig.kinds.length
  · rwa [List.getElem?_append_left hlt] at hq
  · rw [List.getElem?_append_right (Nat.not_lt.mp hlt)] at hq
    exact absurd (List.eq_of_mem_replicate (List.mem_of_getElem? hq)) hreg

/-- An instruction has at least the operands of its signature, and no others unless any
number of registers may follow. -/
theorem length_operands (h : Signature.ofOp i.op = some sig) :
    sig.kinds.length ≤ i.operands.length ∧
      (sig.more = false → i.operands.length = sig.kinds.length) := by
  obtain ⟨n, hkinds, hn⟩ := operands_kinds h
  have hlen := congrArg List.length hkinds
  rw [List.length_map, List.length_append, List.length_replicate] at hlen
  refine ⟨by omega, fun hmore => ?_⟩
  rw [hn hmore] at hlen
  omega

/-- The offset is an operand. -/
theorem mem_of_offset {off : ℤ} (h : i.offset = some off) : Operand.label off ∈ i.operands := by
  cases i <;> simp_all [operands, offset]

/-- The label operand is the offset. -/
theorem offset_of_mem {off : ℤ} (h : Operand.label off ∈ i.operands) : i.offset = some off := by
  cases i <;> simp_all [operands, offset]

end Operands

end Insn

namespace Asm

/-- An instruction of the source: its mnemonic and its operands. -/
abbrev Line := String × List String

namespace Line

/-- The operands its mnemonic takes. -/
def signature (line : Line) : Option Signature := (ofMnemonic line.1).bind Signature.ofOp

/-- The bytes it is assembled to. -/
def size (line : Line) : ℕ := line.signature.elim 0 fun sig => sig.size line.2.length

/-- The names it mentions as atoms. -/
def atoms (line : Line) : List String :=
  line.signature.elim [] fun sig =>
    ((sig.kinds.zip line.2).filter fun operand => operand.1 = .atom).map Prod.snd

end Line

namespace Stmt

/-- The instructions among statements. -/
def insns (stmts : List Stmt) : List Line :=
  stmts.filterMap fun
    | label _ => none
    | insn mnem ops => some (mnem, ops)

/-- The number of instructions before the place where a label is bound last. -/
def boundAt (name : String) : List Stmt → Option ℕ
  | [] => none
  | label name' :: rest =>
    match boundAt name rest with
    | some j => some j
    | none => if name' = name then some 0 else none
  | insn _ _ :: rest => (boundAt name rest).map (· + 1)

end Stmt

namespace FnDecl

/-- The statements of a body. -/
def stmts (d : FnDecl) : List Stmt := d.body.map fun line => Stmt.ofLine line.2

/-- The instructions of a body. -/
def insns (d : FnDecl) : List Line := Stmt.insns d.stmts

/-- Where the `k`-th instruction of the source is assembled. -/
def pos (d : FnDecl) (k : ℕ) : ℕ := ((d.insns.take k).map Line.size).sum

end FnDecl

/-- The names that are atoms, in the order they are interned. -/
def atomTexts (decls : List FnDecl) : List String :=
  decls.flatMap fun d => d.insns.flatMap Line.atoms ++ [d.name]

section

variable (decls : List FnDecl) (atoms : List String) (d : FnDecl)

/-- A text denotes operand `x` of the `k`-th of the instructions of a function. -/
def Denotes (insns : List Insn) (k : ℕ) (s : String) : Operand → Prop
  | .reg r => parseReg s = some r
  | .int v => parseI64 s = some v
  | .byte n => parseU8 s = some n
  | .atom a => atoms[a.toNat]? = some s
  | .callee f => ∃ d', decls[f.toNat]? = some d' ∧ d'.key = s
  | .label off => ∃ j, Stmt.boundAt s d.stmts = some j ∧
    (Insn.startOf insns (k + 1) : ℤ) + off = Insn.startOf insns j

/-- Instruction `k` of a function is what a line of the source says. -/
structure LineExact (insns : List Insn) (k : ℕ) (line : Line) (i : Insn) : Prop where
  /-- It has the opcode of the mnemonic. -/
  op : ofMnemonic line.1 = some i.op
  /-- It has the operands of the source and no others. -/
  operands : List.Forall₂ (Denotes decls atoms d insns k) line.2 i.operands

/-- Code is split into the instructions of a body. -/
def FnExact (code : List UInt8) : Prop :=
  ∃ insns, Insn.split code = some insns ∧ insns.length = d.insns.length ∧
    ∀ (k : ℕ) (line : Line) (i : Insn), d.insns[k]? = some line → insns[k]? = some i →
      LineExact decls atoms d insns k line i

/-- What an instruction says fits its encoding. -/
structure LineFits (k : ℕ) (line : Line) (sig : Signature) : Prop where
  /-- No operand is left over, and the count of registers fits a byte. -/
  takes : sig.Takes line.2.length
  /-- Jumps are no longer than an `i32`. -/
  jump : ∀ (p : ℕ) (s : String) (j : ℕ), sig.kinds[p]? = some .label → line.2[p]? = some s →
    Stmt.boundAt s d.stmts = some j → -2 ^ 31 ≤ (d.pos j : ℤ) - d.pos (k + 1) ∧
      (d.pos j : ℤ) - d.pos (k + 1) < 2 ^ 31
  /-- Functions have an index below 2^32. -/
  callee : ∀ (p : ℕ) (s : String) (i : ℕ) (d' : FnDecl), sig.kinds[p]? = some .callee →
    line.2[p]? = some s → decls[i]? = some d' → d'.key = s → i < 2 ^ 32
  /-- So have atoms. -/
  atom : ∀ (p : ℕ) (s : String), sig.kinds[p]? = some .atom → line.2[p]? = some s →
    (atomTexts decls).eraseDups.idxOf s < 2 ^ 32

end

/-- A module says exactly what the source does. -/
structure Exact (decls : List FnDecl) (m : Module) : Prop where
  /-- Atom names are distinct. -/
  atoms : m.atoms.Nodup
  /-- There is one function for each declaration. -/
  length : m.functions.length = decls.length
  /-- The code of each is exact. -/
  code : ∀ (i : ℕ) (d : FnDecl) (f : Function), decls[i]? = some d → m.functions[i]? = some f →
    FnExact decls m.atoms d f.code

/-- What the source says fits its encoding. -/
def Fits (decls : List FnDecl) : Prop :=
  ∀ d ∈ decls, ∀ (k : ℕ) (line : Line) (sig : Signature), d.insns[k]? = some line →
    line.signature = some sig → LineFits decls d k line sig

end Asm

end Yggdrasil
