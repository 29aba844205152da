import Yggdrasil.Bytecode.Op

/-!
# Modules and their binary format

A module is a table of atom names and a list of functions. The encoder writes a
`.yggm` byte string with the lengths cut to the width of their fields. The decoder
reads one front to back and ignores whatever follows the last function.
-/

namespace Yggdrasil

/-- A bytecode function. -/
structure Function where
  /-- Module-local atom index of the function's name. -/
  nameAtom : UInt32
  /-- Number of parameters, which arrive in the first registers. -/
  arity : UInt8
  /-- Number of registers of a frame. -/
  nregs : UInt8
  /-- The instructions. -/
  code : List UInt8
  deriving DecidableEq, Repr

/-- A module: its atom names and its functions. -/
structure Module where
  /-- Module-local atom names. -/
  atoms : List String
  /-- The functions, called by index. -/
  functions : List Function
  deriving DecidableEq, Repr

/-- Why a byte string is not a module. -/
inductive DecodeError where
  | badMagic
  | truncated
  | badUtf8
  deriving DecidableEq, Repr

/-- The six bytes every module starts with: `YGGM1` and a newline. -/
def magic : List UInt8 := [89, 71, 71, 77, 49, 10]

/-- The low `n` bytes of a number, in little-endian order. -/
def leBytes : ℕ → ℕ → List UInt8
  | 0, _ => []
  | n + 1, v => UInt8.ofNat v :: leBytes n (v / 256)

/-- One atom: a length and that many bytes of UTF-8. -/
def encodeAtom (a : String) : List UInt8 := leBytes 2 a.utf8ByteSize ++ a.toUTF8.data.toList

/-- One function. -/
def Function.encode (f : Function) : List UInt8 :=
  leBytes 4 f.nameAtom.toNat ++ [f.arity] ++ [f.nregs] ++ leBytes 4 f.code.length ++ f.code

/-- The byte string of a module. -/
def Module.encode (m : Module) : List UInt8 :=
  magic ++ leBytes 4 m.atoms.length ++ m.atoms.flatMap encodeAtom ++
    leBytes 4 m.functions.length ++ m.functions.flatMap Function.encode

/-- A reader over a fixed byte string; the state is the read position. -/
abbrev Reader := StateT ℕ (Except DecodeError)

namespace Reader

/-- The next `n` bytes. -/
def take (bytes : List UInt8) (n : ℕ) : Reader (List UInt8) := fun pos =>
  if pos + n > bytes.length then .error .truncated
  else .ok ((bytes.drop pos).take n, pos + n)

/-- The next byte. -/
def u8 (bytes : List UInt8) : Reader UInt8 := do
  return (← take bytes 1).headD 0

/-- The next `u16`. -/
def u16 (bytes : List UInt8) : Reader ℕ := do
  return leNat (← take bytes 2)

/-- The next `u32`. -/
def u32 (bytes : List UInt8) : Reader UInt32 := do
  return UInt32.ofNat (leNat (← take bytes 4))

/-- `n` items in a row. -/
def times {α : Type} (item : Reader α) : ℕ → Reader (List α)
  | 0 => return []
  | n + 1 => do
    let a ← item
    let rest ← times item n
    return a :: rest

/-- One atom: a length and that many bytes of UTF-8. -/
def atom (bytes : List UInt8) : Reader String := do
  let len ← u16 bytes
  let raw ← take bytes len
  match String.fromUTF8? ⟨raw.toArray⟩ with
  | some s => return s
  | none => throw .badUtf8

/-- One function. -/
def function (bytes : List UInt8) : Reader Function := do
  let nameAtom ← u32 bytes
  let arity ← u8 bytes
  let nregs ← u8 bytes
  let codeLen ← u32 bytes
  let code ← take bytes codeLen.toNat
  return { nameAtom, arity, nregs, code }

/-- A whole module. -/
def module (bytes : List UInt8) : Reader Module := do
  if (← take bytes 6) ≠ magic then throw .badMagic
  let natoms ← u32 bytes
  let atoms ← times (atom bytes) natoms.toNat
  let nfns ← u32 bytes
  let functions ← times (function bytes) nfns.toNat
  return { atoms, functions }

end Reader

namespace Module

/-- Decode a module from the front of a byte string. -/
def decode (bytes : List UInt8) : Except DecodeError Module := do
  let (m, _) ← (Reader.module bytes).run 0
  return m

/-- The first function with a given name. -/
def functionNamed (m : Module) (name : String) : Option ℕ :=
  m.functions.findIdx? fun f => m.atoms[f.nameAtom.toNat]? = some name

end Module

end Yggdrasil
