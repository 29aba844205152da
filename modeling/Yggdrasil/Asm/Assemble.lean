import Yggdrasil.Asm.Builder
import Yggdrasil.Asm.Tables
import Yggdrasil.Asm.Text

/-!
# The assembler

Text assembly to a bytecode module. The lines of the source are grouped into function
declarations; then each function is assembled line by line, and atoms are interned on the
way. An index out of range is a panic, as is the overflow of the label counter: the tool is
built without optimisation, with checked arithmetic.
-/

namespace Yggdrasil

namespace Asm

/-- Why a text is not assembled. -/
inductive AsmError where
  /-- `line {}: nested fn`. -/
  | nestedFn (ln : ℕ)
  /-- ``fn needs `regs=N` ``. -/
  | needsRegs
  /-- `fn name needs /arity`. -/
  | needsArity
  /-- `expected regs=N`. -/
  | expectedRegs
  /-- A numeral that is none, or too large. -/
  | parseInt
  /-- ``stray `}` ``. -/
  | strayBrace
  /-- `line {}: code outside fn: {line}`. -/
  | codeOutsideFn (ln : ℕ) (line : String)
  /-- `unclosed fn`. -/
  | unclosedFn
  /-- `duplicate function {key}`. -/
  | duplicateFunction (key : String)
  /-- `line {ln}: bad register {s:?}`. -/
  | badRegister (ln : ℕ) (s : String)
  /-- `line {ln}: unknown fn {s:?}`. -/
  | unknownFn (ln : ℕ) (s : String)
  /-- `line {ln}: unknown mnemonic {mnem:?}`. -/
  | unknownMnemonic (ln : ℕ) (mnem : String)
  /-- `unbound label id {l}`. -/
  | unboundLabel (l : UInt32)
  /-- `in fn {}/{}`, with what went wrong there. -/
  | inFn (name : String) (arity : UInt8) (e : AsmError)
  deriving DecidableEq, Repr

/-- How the assembler stops without a module. -/
inductive Stop where
  /-- With an error. -/
  | bail (e : AsmError)
  /-- With a panic. -/
  | panic
  deriving DecidableEq, Repr

/-- An error inside a function says so. -/
def Stop.within (name : String) (arity : UInt8) : Stop → Stop
  | bail e => bail (.inFn name arity e)
  | panic => panic

/-- A value that must be there. -/
def orBail {α : Type} (e : AsmError) : Option α → Except Stop α
  | some a => .ok a
  | none => .error (.bail e)

/-- `FnDecl`: a function header of the source with its body. -/
structure FnDecl where
  /-- The name. -/
  name : String
  /-- Number of parameters. -/
  arity : UInt8
  /-- Number of registers. -/
  nregs : UInt8
  /-- Line numbers and lines of the body. -/
  body : List (ℕ × List Char)
  deriving DecidableEq, Repr

/-- How a function is named by calls. -/
def FnDecl.key (d : FnDecl) : String := s!"{d.name}/{d.arity}"

/-- The header of a function, behind `fn`. -/
def fnHeader (rest : List Char) : Except Stop FnDecl := do
  let rest := trim (rest.rdropWhile (· = '{'))
  let (sig, regs) ← orBail .needsRegs (splitOnce (· = ' ') rest)
  let (name, arity) ← orBail .needsArity (splitOnce (· = '/') sig)
  let nregs ← orBail .expectedRegs (stripStart "regs=".toList regs)
  let nregs ← orBail .parseInt (parseU8 (String.ofList nregs))
  let arity ← orBail .parseInt (parseU8 (String.ofList arity))
  return ⟨String.ofList name, arity, nregs, []⟩

/-- The declarations read so far, and the one that is open. -/
structure ReadState where
  /-- The declarations that are closed. -/
  decls : List FnDecl
  /-- The declaration that is open. -/
  cur : Option FnDecl
  deriving DecidableEq, Repr

/-- Read one line; `ln` counts from 0. -/
def readLine (ln : ℕ) (raw : List Char) (s : ReadState) : Except Stop ReadState :=
  let line := trim (raw.takeWhile (· ≠ ';'))
  if line = [] ∨ (stripStart "module ".toList line).isSome then .ok s
  else
    match stripStart "fn ".toList line with
    | some rest =>
      if s.cur.isSome then .error (.bail (.nestedFn (ln + 1)))
      else do
        let d ← fnHeader rest
        return { s with cur := some d }
    | none =>
      match s.cur with
      | some d =>
        if line = ['}'] then .ok ⟨s.decls ++ [d], none⟩
        else .ok { s with cur := some { d with body := d.body ++ [(ln + 1, line)] } }
      | none =>
        if line = ['}'] then .error (.bail .strayBrace)
        else .error (.bail (.codeOutsideFn (ln + 1) (String.ofList line)))

/-- Read lines from number `ln` on. -/
def readLines : ℕ → List (List Char) → ReadState → Except Stop ReadState
  | _, [], s => .ok s
  | ln, raw :: rest, s => do
    let s ← readLine ln raw s
    readLines (ln + 1) rest s

/-- The declarations of a source text. -/
def readDecls (src : String) : Except Stop (List FnDecl) := do
  let s ← readLines 0 (lines src.toList) ⟨[], none⟩
  if s.cur.isSome then .error (.bail .unclosedFn) else return s.decls

/-- The index of functions by their names. -/
abbrev FnIndex := List (String × UInt32 × UInt8)

/-- Enter functions from number `i` on into the index. -/
def indexFns : ℕ → List FnDecl → FnIndex → Except Stop FnIndex
  | _, [], fns => .ok fns
  | i, d :: ds, fns =>
    match fns.lookup d.key with
    | some _ => .error (.bail (.duplicateFunction d.key))
    | none => indexFns (i + 1) ds ((d.key, UInt32.ofNat i, d.arity) :: fns)

/-- The state of `assemble_fn`. -/
structure FnState where
  /-- The code so far. -/
  builder : CodeBuilder
  /-- The labels so far. -/
  labels : Labels
  /-- The atoms so far. -/
  atoms : Atoms

/-- An action of `assemble_fn`. -/
abbrev AsmM := StateT FnState (Except Stop)

/-- A line of a body: a label or an instruction. -/
inductive Stmt where
  /-- `name:`. -/
  | label (name : String)
  /-- A mnemonic with its operands. -/
  | insn (mnem : String) (ops : List String)
  deriving DecidableEq, Repr

/-- Read a line of a body. -/
def Stmt.ofLine (line : List Char) : Stmt :=
  match stripEnd ':' line with
  | some name => .label (String.ofList name)
  | none =>
    let (mnem, rest) := (splitOnce isWhitespace line).getD (line, [])
    .insn (String.ofList mnem)
      ((((rest.splitOn ',').map trim).filter (· ≠ [])).map String.ofList)

/-- The opcode of a mnemonic. -/
def ofMnemonic : String → Option Op
  | "nop" => some .nop
  | "load_int" => some .loadInt
  | "load_atom" => some .loadAtom
  | "load_nil" => some (.reg1 .loadNil)
  | "move" => some (.reg2 .move)
  | "self" => some (.reg1 .selfPid)
  | "make_tuple" => some .makeTuple
  | "get_elem" => some .getElem
  | "cons" => some (.reg3 .cons)
  | "head" => some (.reg2 .head)
  | "tail" => some (.reg2 .tail)
  | "add" => some (.reg3 .add)
  | "sub" => some (.reg3 .sub)
  | "mul" => some (.reg3 .mul)
  | "eq" => some (.reg3 .cmpEq)
  | "lt" => some (.reg3 .cmpLt)
  | "jmp" => some .jmp
  | "jmp_if" => some .jmpIf
  | "call" => some .call
  | "ret" => some (.reg1 .ret)
  | "spawn" => some .spawn
  | "send" => some (.reg2 .send)
  | "recv" => some (.reg1 .recv)
  | "print" => some (.reg1 .print)
  | "exit_atom" => some (.reg1 .exitAtom)
  | "port_open" => some .portOpen
  | "call_ext" => some .callExt
  | "port_submit" => some .portSubmit
  | _ => none

/-- The letter `r` and the number of a register in decimal. -/
def parseReg (s : String) : Option UInt8 := do parseU8 (String.ofList (← stripStart ['r'] s.toList))

namespace AsmM

/-- Call a method of the code builder. -/
def build (f : CodeBuilder → CodeBuilder) : AsmM Unit :=
  modify fun s => { s with builder := f s.builder }

/-- Append a byte to the code. -/
def u8 (v : UInt8) : AsmM Unit := build fun b => b.u8 v

/-- Append a `u32` to the code. -/
def u32 (v : UInt32) : AsmM Unit := build fun b => b.u32 v

/-- Append an `i64` to the code. -/
def i64 (v : Word) : AsmM Unit := build fun b => b.i64 v

/-- Append the byte of an opcode. -/
def opcode (op : Op) : AsmM Unit := u8 op.toByte

/-- The index of an atom, which is interned if it is new. -/
def intern (s : String) : AsmM UInt32 := fun st =>
  let (a, atoms) := st.atoms.intern s
  .ok (a, { st with atoms := atoms })

/-- The number of a label name. -/
def labelId (name : String) : AsmM UInt32 := fun st =>
  match st.labels.id name with
  | some (id, labels) => .ok (id, { st with labels := labels })
  | none => .error .panic

/-- `ops[k]`: operand `k` of the line; the assembler panics if it is missing. -/
def operand (ops : List String) (k : ℕ) : AsmM String :=
  match ops[k]? with
  | some s => pure s
  | none => throw .panic

/-- A value that must be there. -/
def require {α : Type} (e : AsmError) (x : Option α) : AsmM α := liftM (orBail e x)

section

variable (fns : FnIndex) (ln : ℕ)

/-- Append the number of a register operand. -/
def reg (s : String) : AsmM Unit := do u8 (← require (.badRegister ln s) (parseReg s))

/-- Append the numbers of register operands, one after the other. -/
def regs : List String → AsmM Unit
  | [] => pure ()
  | s :: ss => do
    reg ln s
    regs ss

/-- Append the index of a function operand. -/
def fnref (s : String) : AsmM Unit := do
  u32 (← require (.unknownFn ln s) ((fns.lookup s).map Prod.fst))

/-- Append a byte operand that is given in decimal. -/
def byte (s : String) : AsmM Unit := do u8 (← require .parseInt (parseU8 s))

/-- The number of operands from `k` on, and these as registers. -/
def regsFrom (ops : List String) (k : ℕ) : AsmM Unit := do
  u8 (UInt8.ofNat (ops.length - k))
  regs ln (ops.drop k)

/-- Assemble an instruction. -/
def insn (mnem : String) (ops : List String) : AsmM Unit := do
  match ofMnemonic mnem with
  | some .nop => opcode .nop
  | some .loadInt =>
    opcode .loadInt
    reg ln (← operand ops 0)
    i64 (← require .parseInt (parseI64 (← operand ops 1)))
  | some .loadAtom =>
    let a ← intern (← operand ops 1)
    opcode .loadAtom
    reg ln (← operand ops 0)
    u32 a
  | some (.reg1 o) =>
    opcode (.reg1 o)
    reg ln (← operand ops 0)
  | some (.reg2 o) =>
    opcode (.reg2 o)
    reg ln (← operand ops 0)
    reg ln (← operand ops 1)
  | some (.reg3 o) =>
    opcode (.reg3 o)
    reg ln (← operand ops 0)
    reg ln (← operand ops 1)
    reg ln (← operand ops 2)
  | some .makeTuple =>
    opcode .makeTuple
    reg ln (← operand ops 0)
    regsFrom ln ops 1
  | some .getElem =>
    opcode .getElem
    reg ln (← operand ops 0)
    reg ln (← operand ops 1)
    byte (← operand ops 2)
  | some .jmp =>
    let id ← labelId (← operand ops 0)
    opcode .jmp
    build fun b => b.labelRef id
  | some .jmpIf =>
    let id ← labelId (← operand ops 1)
    opcode .jmpIf
    reg ln (← operand ops 0)
    build fun b => b.labelRef id
  | some .call =>
    opcode .call
    reg ln (← operand ops 0)
    fnref fns ln (← operand ops 1)
    regsFrom ln ops 2
  | some .spawn =>
    opcode .spawn
    reg ln (← operand ops 0)
    fnref fns ln (← operand ops 1)
    reg ln (← operand ops 2)
  | some .portOpen =>
    opcode .portOpen
    reg ln (← operand ops 0)
    byte (← operand ops 1)
  | some .callExt =>
    let m ← intern (← operand ops 1)
    let f ← intern (← operand ops 2)
    opcode .callExt
    reg ln (← operand ops 0)
    u32 m
    u32 f
    regsFrom ln ops 3
  | some .portSubmit =>
    opcode .portSubmit
    reg ln (← operand ops 0)
    byte (← operand ops 1)
    reg ln (← operand ops 2)
    reg ln (← operand ops 3)
  | _ => throw (.bail (.unknownMnemonic ln mnem))

/-- Assemble a line of a body. -/
def stmt : Stmt → AsmM Unit
  | .label name => do
    let id ← labelId name
    build fun b => b.bindLabel id
  | .insn mnem ops => insn fns ln mnem ops

end

/-- Assemble the lines of a body. -/
def body (fns : FnIndex) : List (ℕ × List Char) → AsmM Unit
  | [] => pure ()
  | (ln, line) :: rest => do
    stmt fns ln (Stmt.ofLine line)
    body fns rest

end AsmM

/-- `assemble_fn`: the code of a function, and the atoms behind it. -/
def assembleFn (fns : FnIndex) (d : FnDecl) (atoms : Atoms) : Except Stop (List UInt8 × Atoms) :=
  match AsmM.body fns d.body ⟨.new, .empty, atoms⟩ with
  | .error e => .error e
  | .ok ((), st) =>
    match st.builder.finish with
    | .error l => .error (.bail (.unboundLabel l))
    | .ok code => .ok (code, st.atoms)

/-- Assemble functions; the name of each is interned behind its code. -/
def assembleFns (fns : FnIndex) : List FnDecl → Atoms → Except Stop (List Function × Atoms)
  | [], atoms => .ok ([], atoms)
  | d :: ds, atoms => do
    let (code, atoms) ← (assembleFn fns d atoms).mapError (Stop.within d.name d.arity)
    let (nameAtom, atoms) := atoms.intern d.name
    let (functions, atoms) ← assembleFns fns ds atoms
    return (⟨nameAtom, d.arity, d.nregs, code⟩ :: functions, atoms)

/-- `assemble`: the module of a source text. -/
def assemble (src : String) : Except Stop Module := do
  let decls ← readDecls src
  let fns ← indexFns 0 decls []
  let (functions, atoms) ← assembleFns fns decls .empty
  return ⟨atoms.names, functions⟩

end Asm

end Yggdrasil
