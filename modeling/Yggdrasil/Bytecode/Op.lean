import Yggdrasil.Term.Word

/-!
# Opcodes and operand readers

The instruction set of the bytecode. Instructions whose operands are only
registers are grouped by their number of operands; the others have an operand
layout of their own. Every decoder of the system reads operands through the same
little-endian accessors, each with its own error.
-/

namespace Yggdrasil

/-- Instructions with one register operand. -/
inductive Reg1Op where
  | loadNil | selfPid | recv | ticks | print | ret | exitAtom | sleepMs
  deriving DecidableEq, Repr

/-- Instructions with two register operands. -/
inductive Reg2Op where
  | move | head | tail | send | bnot | binFromList | binToList | binSize | bufToBin | binToBuf
  | isBinary | bufNew
  deriving DecidableEq, Repr

/-- Instructions with three register operands. -/
inductive Reg3Op where
  | cons | add | sub | mul | cmpEq | cmpLt | band | bor | bxor | bsl | bsr | binCat | listCat
  | mapGet | binAt
  deriving DecidableEq, Repr

/-- Instructions with four register operands. -/
inductive Reg4Op where
  | mapPut | binPart | bufWrite | bufRead
  deriving DecidableEq, Repr

/-- The opcodes. -/
inductive Op where
  | nop | loadInt | loadAtom
  | reg1 (o : Reg1Op)
  | reg2 (o : Reg2Op)
  | reg3 (o : Reg3Op)
  | reg4 (o : Reg4Op)
  | makeTuple | getElem | jmp | jmpIf | call | spawn | portOpen | portSubmit | callExt | binNew
  | mapNew | tailCallExt | portSubmit2 | tailCall
  deriving DecidableEq, Repr

/-- The opcode a byte encodes. -/
def Op.ofByte (b : UInt8) : Option Op :=
  match b.toNat with
  | 0 => some .nop
  | 1 => some .loadInt
  | 2 => some .loadAtom
  | 3 => some (.reg1 .loadNil)
  | 4 => some (.reg2 .move)
  | 5 => some (.reg1 .selfPid)
  | 6 => some .makeTuple
  | 7 => some .getElem
  | 8 => some (.reg3 .cons)
  | 9 => some (.reg2 .head)
  | 10 => some (.reg2 .tail)
  | 11 => some (.reg3 .add)
  | 12 => some (.reg3 .sub)
  | 13 => some (.reg3 .mul)
  | 14 => some (.reg3 .cmpEq)
  | 15 => some (.reg3 .cmpLt)
  | 16 => some .jmp
  | 17 => some .jmpIf
  | 18 => some .call
  | 19 => some (.reg1 .ret)
  | 20 => some .spawn
  | 21 => some (.reg2 .send)
  | 22 => some (.reg1 .recv)
  | 23 => some (.reg1 .print)
  | 24 => some (.reg1 .exitAtom)
  | 25 => some .portOpen
  | 26 => some .portSubmit
  | 27 => some .callExt
  | 28 => some (.reg3 .band)
  | 29 => some (.reg3 .bor)
  | 30 => some (.reg3 .bxor)
  | 31 => some (.reg3 .bsl)
  | 32 => some (.reg3 .bsr)
  | 33 => some (.reg2 .bnot)
  | 34 => some .binNew
  | 35 => some (.reg2 .binFromList)
  | 36 => some (.reg2 .binToList)
  | 37 => some (.reg2 .binSize)
  | 38 => some (.reg2 .bufToBin)
  | 39 => some (.reg2 .binToBuf)
  | 40 => some .mapNew
  | 41 => some (.reg3 .mapGet)
  | 42 => some (.reg4 .mapPut)
  | 43 => some (.reg2 .isBinary)
  | 44 => some (.reg3 .binCat)
  | 45 => some (.reg3 .listCat)
  | 46 => some (.reg4 .binPart)
  | 47 => some .tailCallExt
  | 48 => some .portSubmit2
  | 49 => some .tailCall
  | 50 => some (.reg4 .bufWrite)
  | 51 => some (.reg1 .sleepMs)
  | 52 => some (.reg2 .bufNew)
  | 53 => some (.reg4 .bufRead)
  | 54 => some (.reg1 .ticks)
  | 55 => some (.reg3 .binAt)
  | _ => none

/-- The `n` bytes from `at` on, if they are all there. -/
def slice (code : List UInt8) (pos n : ℕ) : Option (List UInt8) :=
  if pos + n ≤ code.length then some ((code.drop pos).take n) else none

/-- The number a byte string spells in little-endian order. -/
def leNat : List UInt8 → ℕ
  | [] => 0
  | b :: bs => b.toNat + 256 * leNat bs

/-- A little-endian `u32`. -/
def getU32 (code : List UInt8) (pos : ℕ) : Option UInt32 :=
  (slice code pos 4).map fun s => UInt32.ofNat (leNat s)

/-- A little-endian `i64`, as its two's-complement word. -/
def getI64 (code : List UInt8) (pos : ℕ) : Option Word :=
  (slice code pos 8).map fun s => BitVec.ofNat 64 (leNat s)

/-- A `u32` reread as `i32`. -/
def asI32 (v : UInt32) : ℤ := v.toBitVec.toInt

/-- A slice that exists lies inside the code. -/
theorem slice_eq_some_iff {code : List UInt8} {pos n : ℕ} {s : List UInt8} :
    slice code pos n = some s ↔ pos + n ≤ code.length ∧ s = (code.drop pos).take n := by
  unfold slice
  split <;> simp_all [eq_comm]

/-- A readable `u32` lies inside the code. -/
theorem le_length_of_getU32 {code : List UInt8} {pos : ℕ} {v : UInt32}
    (h : getU32 code pos = some v) : pos + 4 ≤ code.length := by
  simp only [getU32, Option.map_eq_some_iff] at h
  obtain ⟨s, hs, _⟩ := h
  exact (slice_eq_some_iff.mp hs).1

/-- A readable `i64` lies inside the code. -/
theorem le_length_of_getI64 {code : List UInt8} {pos : ℕ} {v : Word}
    (h : getI64 code pos = some v) : pos + 8 ≤ code.length := by
  simp only [getI64, Option.map_eq_some_iff] at h
  obtain ⟨s, hs, _⟩ := h
  exact (slice_eq_some_iff.mp hs).1

end Yggdrasil
