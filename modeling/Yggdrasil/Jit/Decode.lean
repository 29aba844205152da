import Yggdrasil.Bytecode.Boundaries
import Yggdrasil.Jit.Leaders

/-!
# The compiler reads the instructions that are there

Every decoder of the compiler moves over an instruction exactly when it can be decoded, and
ends behind it.
-/

namespace Yggdrasil

namespace Jit

namespace Decoder

variable {α β : Type} {code : List UInt8}

/-- A plain reader as a reader of the compiler. -/
def ofDec (x : Dec α) : Decoder α := fun pos =>
  match x pos with
  | some r => .ok r
  | none => .error .badBytecode

/-- A reader of the compiler succeeds when the plain reader does. -/
theorem ofDec_eq_ok {x : Dec α} {pos : ℕ} {r : α × ℕ} : ofDec x pos = .ok r ↔ x pos = some r := by
  unfold ofDec
  cases x pos with
  | none => simp
  | some r' => simp

private theorem ofDec_pure (a : α) : ofDec (pure a) = pure a := rfl

private theorem ofDec_bind (x : Dec α) (f : α → Dec β) :
    ofDec (x >>= f) = ofDec x >>= fun a => ofDec (f a) := by
  funext pos
  change (match (x pos).bind fun p => f p.1 p.2 with
    | some r => Except.ok r
    | none => Except.error JitError.badBytecode) =
      Except.bind (ofDec x pos) fun p => ofDec (f p.1) p.2
  unfold ofDec
  cases x pos with
  | none => rfl
  | some p => rfl

private theorem u8_eq : u8 code = ofDec (Dec.u8 code) := by
  funext pos
  simp only [u8, ofDec, Dec.u8]
  cases code[pos]? <;> rfl

private theorem u32_eq : u32 code = ofDec (Dec.u32 code) := by
  funext pos
  simp only [u32, ofDec, Dec.u32]
  cases getU32 code pos <;> rfl

private theorem i64_eq : i64 code = ofDec (Dec.i64 code) := by
  funext pos
  simp only [i64, ofDec, Dec.i64]
  cases getI64 code pos <;> rfl

private theorem i32_eq : i32 code = ofDec (do return asI32 (← Dec.u32 code)) := by
  rw [i32, u32_eq, ofDec_bind]
  rfl

private theorem constant_eq (len : ℕ) :
    constant code len = ofDec (do let _ ← Dec.bytes code len) := by
  funext pos
  change _ = ofDec (fun pos => ((Dec.bytes code len pos).bind fun p => some ((), p.2))) pos
  simp only [constant, ofDec, Dec.bytes, slice]
  by_cases h : pos + len ≤ code.length
  · rw [if_neg (by omega), if_pos h]
    rfl
  · rw [if_pos (by omega), if_neg h]
    rfl

private theorem u8s_eq (n : ℕ) : u8s code n = ofDec (do let _ ← Dec.regs code n) := by
  induction n with
  | zero => rfl
  | succ n ih =>
    simp only [u8s, ih, u8_eq, ← ofDec_bind, Dec.regs, bind_assoc, pure_bind]

private theorem u8Pairs_eq (n : ℕ) : u8Pairs code n = ofDec (do let _ ← Dec.regPairs code n) := by
  induction n with
  | zero => rfl
  | succ n ih =>
    simp only [u8Pairs, ih, u8_eq, ← ofDec_bind, Dec.regPairs, bind_assoc, pure_bind]

end Decoder

open Decoder

/-- The leaders an instruction gives rise to; `next` is the position after it. -/
def leadersOf (i : Insn) (next : ℕ) : List ℕ :=
  match i with
  | .jmp off | .jmpIf _ off => [jumpTarget next off, next]
  | .reg1 .ret _ | .reg1 .exitAtom _ | .tailCallExt _ _ _ | .tailCall _ _ => [next]
  | _ => []

private theorem skipOp_eq (code : List UInt8) (op : Op) :
    skipOp code op = ofDec (do let _ ← Dec.operands code op) := by
  cases op
  case reg1 o | reg2 o | reg3 o | reg4 o =>
    cases o <;> simp only [skipOp, Dec.operands, u8s, u8_eq, ofDec_bind, ofDec_pure, bind_assoc,
      pure_bind]
  case getElem | portOpen | portSubmit | portSubmit2 =>
    simp only [skipOp, Dec.operands, u8s, u8_eq, ofDec_bind, ofDec_pure, bind_assoc, pure_bind]
  all_goals
    simp only [skipOp, Dec.operands, u8_eq, u32_eq, i32_eq, i64_eq, constant_eq, u8s_eq, u8Pairs_eq,
      ofDec_bind, ofDec_pure, bind_assoc, pure_bind]

/-- `skip_insn` moves over the instruction that is there. -/
theorem skipInsn_iff {code : List UInt8} {pos next : ℕ} :
    skipInsn code pos = .ok ((), next) ↔ ∃ i, decodeAt code pos = some (i, next) := by
  have heq : skipInsn code = ofDec (do let _ ← Dec.insn code) := by
    unfold skipInsn Dec.insn
    rw [u8_eq, bind_assoc, ofDec_bind]
    congr 1
    funext b
    cases Op.ofByte b with
    | none => rfl
    | some op => exact skipOp_eq code op
  rw [heq, ofDec_eq_ok, StateT.bind_eq_some]
  constructor
  · rintro ⟨i, next', hi, heq⟩
    cases StateT.pure_eq_some.mp heq
    exact ⟨i, hi⟩
  · rintro ⟨i, hi⟩
    exact ⟨i, next, hi, rfl⟩

private theorem get_pure {α : Type} (a : α) :
    (get >>= fun _ => pure a : Decoder α) = pure a := rfl

private theorem leaderOp_eq (code : List UInt8) (op : Op) :
    leaderOp code op = (do
      let i ← ofDec (Dec.operands code op)
      return leadersOf i (← get)) := by
  cases op
  case reg1 o | reg2 o | reg3 o | reg4 o =>
    cases o <;> simp only [leaderOp, Dec.operands, u8s, u8_eq, ofDec_bind, ofDec_pure, bind_assoc,
      pure_bind, get_pure, leadersOf]
  case getElem | portOpen | portSubmit | portSubmit2 =>
    simp only [leaderOp, Dec.operands, u8s, u8_eq, ofDec_bind, ofDec_pure, bind_assoc, pure_bind,
      get_pure, leadersOf]
  all_goals
    simp only [leaderOp, Dec.operands, u8_eq, u32_eq, i32_eq, i64_eq, constant_eq, u8s_eq,
      u8Pairs_eq, ofDec_bind, ofDec_pure, bind_assoc, pure_bind, get_pure, leadersOf]

/-- The first pass moves over the instruction that is there. -/
theorem leaderInsn_iff {code : List UInt8} {pos next : ℕ} {new : List ℕ} :
    leaderInsn code pos = .ok (new, next) ↔
      ∃ i, decodeAt code pos = some (i, next) ∧ new = leadersOf i next := by
  have heq : leaderInsn code = (do
      let i ← ofDec (Dec.insn code)
      return leadersOf i (← get)) := by
    unfold leaderInsn Dec.insn
    rw [u8_eq, ofDec_bind, bind_assoc]
    congr 1
    funext b
    cases Op.ofByte b with
    | none => rfl
    | some op => exact leaderOp_eq code op
  rw [heq, StateT.bind_eq_ok]
  constructor
  · rintro ⟨i, next', hi, hnew⟩
    cases hnew
    exact ⟨i, ofDec_eq_ok.mp hi, rfl⟩
  · rintro ⟨i, hi, rfl⟩
    exact ⟨i, next, ofDec_eq_ok.mpr hi, rfl⟩

end Jit

end Yggdrasil
