import Yggdrasil.Jit.Decode
import Yggdrasil.Jit.Compile

/-!
# Translating decoded instructions

On code that can be decoded, the compiler reads exactly the decoded instruction and
translates it. Later results are stated about instructions and never return to the
bytes.
-/

namespace Yggdrasil

namespace Jit

private def Builder.used (b : Builder) (r : UInt8) : Builder :=
  { b with nextValue := b.nextValue + 1, items := b.items ++ [.useVar b.nextValue r.toNat] }

namespace Tx

variable {α : Type} (ctx : Context)

/-- Read pairs of registers. -/
def usePairs : List (UInt8 × UInt8) → Tx (List Value)
  | [] => return []
  | kv :: rest => do
    let k ← useVar ctx kv.1
    let v ← useVar ctx kv.2
    return k :: v :: (← usePairs rest)

/-- Translate a decoded instruction; `next` is the position after it. -/
def emit (i : Insn) (next : ℕ) : Tx Unit := do
  match i with
  | .nop => pure ()
  | .loadInt rd v => constTo ctx rd (Term.int v).word
  | .loadAtom rd a => defVar ctx rd (← atomConst ctx a)
  | .reg1 o r => reg1 ctx o r
  | .reg2 o a b => reg2 ctx o a b
  | .reg3 o a b c => reg3 ctx o a b c
  | .reg4 o a b c d => reg4 ctx o a b c d
  | .makeTuple rd rs => spillTo ctx rd .makeTuple (← useVars ctx rs) rs.length
  | .getElem rd rs idx => getElem ctx rd rs idx
  | .jmp off => jmp ctx next off
  | .jmpIf rc off => jmpIf ctx next rc off
  | .call rd callee rs => call ctx rd callee (← useVars ctx rs)
  | .spawn rd callee ra => spawn ctx rd callee ra
  | .portOpen rd kind => portOpen ctx rd kind
  | .portSubmit rp op ra rt => portSubmit ctx rp op ra rt
  | .callExt rd mod fname rs => callExt ctx rd mod fname (← useVars ctx rs)
  | .binNew rd data => binNew ctx rd (next - data.length) data.length
  | .mapNew rd pairs => spillTo ctx rd .mapNew (← usePairs ctx pairs) pairs.length
  | .tailCallExt mod fname rs => tailCallExt ctx mod fname (← useVars ctx rs)
  | .portSubmit2 rp ro ra0 ra1 rt => portSubmit2 ctx rp ro ra0 ra1 rt
  | .tailCall callee rs => tailCall callee (← useVars ctx rs)

section Fetch

variable {ctx} {b : Builder} {pos next : ℕ}

private theorem u8_bind {v : UInt8} (h : Dec.u8 ctx.fn.code pos = some (v, next))
    (k : UInt8 → Tx α) : (u8 ctx >>= k) { b with pc := pos } = k v { b with pc := next } := by
  simp only [Dec.u8, Option.map_eq_some_iff, Prod.mk.injEq] at h
  obtain ⟨_, hv, rfl, rfl⟩ := h
  change Except.bind (u8 ctx { b with pc := pos }) (fun p => k p.1 p.2) = _
  simp only [u8, read, Decoder.u8, hv]
  rfl

private theorem u32_bind {v : UInt32} (h : Dec.u32 ctx.fn.code pos = some (v, next))
    (k : UInt32 → Tx α) : (u32 ctx >>= k) { b with pc := pos } = k v { b with pc := next } := by
  simp only [Dec.u32, Option.map_eq_some_iff, Prod.mk.injEq] at h
  obtain ⟨_, hv, rfl, rfl⟩ := h
  change Except.bind (u32 ctx { b with pc := pos }) (fun p => k p.1 p.2) = _
  simp only [u32, read, Decoder.u32, hv]
  rfl

private theorem i32_bind {v : UInt32} (h : Dec.u32 ctx.fn.code pos = some (v, next))
    (k : ℤ → Tx α) : (i32 ctx >>= k) { b with pc := pos } = k (asI32 v) { b with pc := next } := by
  simp only [Dec.u32, Option.map_eq_some_iff, Prod.mk.injEq] at h
  obtain ⟨w, hv, rfl, rfl⟩ := h
  have hread : Decoder.i32 ctx.fn.code pos = .ok (asI32 w, pos + 4) := by
    change Except.bind (Decoder.u32 ctx.fn.code pos) (fun p => .ok (asI32 p.1, p.2)) = _
    simp only [Decoder.u32, hv]
    rfl
  change Except.bind (i32 ctx { b with pc := pos }) (fun p => k p.1 p.2) = _
  simp only [i32, read, hread]
  rfl

private theorem i64_bind {v : Word} (h : Dec.i64 ctx.fn.code pos = some (v, next))
    (k : Word → Tx α) : (i64 ctx >>= k) { b with pc := pos } = k v { b with pc := next } := by
  simp only [Dec.i64, Option.map_eq_some_iff, Prod.mk.injEq] at h
  obtain ⟨_, hv, rfl, rfl⟩ := h
  change Except.bind (i64 ctx { b with pc := pos }) (fun p => k p.1 p.2) = _
  simp only [i64, read, Decoder.i64, hv]
  rfl

private theorem constant_bind {n : ℕ} {data : List UInt8}
    (h : Dec.bytes ctx.fn.code n pos = some (data, next)) :
    data.length = n ∧ next - data.length = pos ∧ ∀ k : Unit → Tx α,
      (read (Decoder.constant ctx.fn.code n) >>= k) { b with pc := pos } =
        k () { b with pc := next } := by
  simp only [Dec.bytes, Option.map_eq_some_iff, Prod.mk.injEq] at h
  obtain ⟨_, hs, rfl, rfl⟩ := h
  obtain ⟨hle, rfl⟩ := slice_eq_some_iff.mp hs
  have hlen : ((ctx.fn.code.drop pos).take n).length = n := by
    rw [List.length_take, List.length_drop]
    omega
  refine ⟨hlen, by omega, fun k => ?_⟩
  change Except.bind (read (Decoder.constant ctx.fn.code n) { b with pc := pos })
    (fun p => k p.1 p.2) = _
  simp only [read, Decoder.constant, if_neg (Nat.not_lt.mpr hle)]
  rfl

private theorem pos_bind (k : ℕ → Tx α) : (Tx.pos >>= k) b = k b.pc b := rfl

private theorem useVar_bind (r : UInt8) (k : Value → Tx α) :
    (useVar ctx r >>= k) { b with pc := pos } =
      if r < ctx.fn.nregs then k b.nextValue { b.used r with pc := pos }
      else .error .panic := by
  unfold useVar
  split <;> rfl

private theorem args_bind {n : ℕ} {rs : List UInt8}
    (h : Dec.regs ctx.fn.code n pos = some (rs, next)) (k : List Value → Tx α) :
    (args ctx n >>= k) { b with pc := pos } = (useVars ctx rs >>= k) { b with pc := next } := by
  induction n generalizing pos rs k b with
  | zero =>
    cases StateT.pure_eq_some.mp h
    rfl
  | succ n ih =>
    simp only [Dec.regs, StateT.bind_eq_some, StateT.pure_eq_some] at h
    obtain ⟨r, mid, hr, rest, _, hrest, heq⟩ := h
    cases heq
    rw [args, useVars, bind_assoc, bind_assoc]
    refine (u8_bind hr _).trans ?_
    rw [bind_assoc, useVar_bind, useVar_bind]
    split
    · simp only [bind_assoc, pure_bind]
      exact ih hrest fun vs => k (_ :: vs)
    · rfl

private theorem argPairs_bind {n : ℕ} {ps : List (UInt8 × UInt8)}
    (h : Dec.regPairs ctx.fn.code n pos = some (ps, next)) (k : List Value → Tx α) :
    (argPairs ctx n >>= k) { b with pc := pos } =
      (usePairs ctx ps >>= k) { b with pc := next } := by
  induction n generalizing pos ps k b with
  | zero =>
    cases StateT.pure_eq_some.mp h
    rfl
  | succ n ih =>
    simp only [Dec.regPairs, StateT.bind_eq_some, StateT.pure_eq_some] at h
    obtain ⟨rk, mid, hk, rv, mid', hv, rest, _, hrest, heq⟩ := h
    cases heq
    rw [argPairs, usePairs, bind_assoc, bind_assoc]
    refine (u8_bind hk _).trans ?_
    rw [bind_assoc]
    refine (u8_bind hv _).trans ?_
    rw [bind_assoc, useVar_bind, useVar_bind]
    split
    · rw [bind_assoc, bind_assoc, useVar_bind, useVar_bind]
      split
      · simp only [bind_assoc, pure_bind]
        exact ih hrest fun vs => k (_ :: _ :: vs)
      · rfl
    · rfl

private theorem translateOp_eq {op : Op} {i : Insn}
    (h : Dec.operands ctx.fn.code op pos = some (i, next)) :
    translateOp ctx op { b with pc := pos } = emit ctx i next { b with pc := next } := by
  cases op <;>
    simp only [Dec.operands, StateT.bind_eq_some, StateT.pure_eq_some] at h
  case nop =>
    cases h
    rfl
  case loadInt =>
    obtain ⟨rd, _, h₁, v, _, h₂, heq⟩ := h
    cases heq
    simp only [translateOp, emit, u8_bind h₁, i64_bind h₂]
  case loadAtom =>
    obtain ⟨rd, _, h₁, a, _, h₂, heq⟩ := h
    cases heq
    simp only [translateOp, emit, u8_bind h₁, u32_bind h₂]
  case reg1 =>
    obtain ⟨a, _, h₁, heq⟩ := h
    cases heq
    simp only [translateOp, emit, u8_bind h₁]
  case reg2 | portOpen =>
    obtain ⟨a, _, h₁, b, _, h₂, heq⟩ := h
    cases heq
    simp only [translateOp, emit, u8_bind h₁, u8_bind h₂]
  case reg3 | getElem =>
    obtain ⟨a, _, h₁, b, _, h₂, c, _, h₃, heq⟩ := h
    cases heq
    simp only [translateOp, emit, u8_bind h₁, u8_bind h₂, u8_bind h₃]
  case reg4 | portSubmit =>
    obtain ⟨a, _, h₁, b, _, h₂, c, _, h₃, d, _, h₄, heq⟩ := h
    cases heq
    simp only [translateOp, emit, u8_bind h₁, u8_bind h₂, u8_bind h₃, u8_bind h₄]
  case makeTuple =>
    obtain ⟨rd, _, h₁, n, _, h₂, rs, _, h₃, heq⟩ := h
    cases heq
    simp only [translateOp, emit, u8_bind h₁, u8_bind h₂, args_bind h₃, Dec.regs_length h₃]
  case jmp =>
    obtain ⟨off, _, h₁, heq⟩ := h
    cases heq
    simp only [translateOp, emit, i32_bind h₁, pos_bind]
  case jmpIf =>
    obtain ⟨rc, _, h₁, off, _, h₂, heq⟩ := h
    cases heq
    simp only [translateOp, emit, u8_bind h₁, i32_bind h₂, pos_bind]
  case call =>
    obtain ⟨rd, _, h₁, c, _, h₂, n, _, h₃, rs, _, h₄, heq⟩ := h
    cases heq
    simp only [translateOp, emit, u8_bind h₁, u32_bind h₂, u8_bind h₃, args_bind h₄]
  case spawn =>
    obtain ⟨rd, _, h₁, c, _, h₂, ra, _, h₃, heq⟩ := h
    cases heq
    simp only [translateOp, emit, u8_bind h₁, u32_bind h₂, u8_bind h₃]
  case callExt =>
    obtain ⟨rd, _, h₁, mod, _, h₂, fname, _, h₃, n, _, h₄, rs, _, h₅, heq⟩ := h
    cases heq
    simp only [translateOp, emit, u8_bind h₁, u32_bind h₂, u32_bind h₃, u8_bind h₄, args_bind h₅]
  case binNew =>
    obtain ⟨rd, _, h₁, len, _, h₂, s, _, h₃, heq⟩ := h
    cases heq
    obtain ⟨hlen, hstart, hread⟩ := @constant_bind Unit ctx b _ _ _ _ h₃
    simp only [translateOp, emit, u8_bind h₁, u32_bind h₂, pos_bind, hread]
    rw [hstart, hlen]
  case mapNew =>
    obtain ⟨rd, _, h₁, n, _, h₂, ps, _, h₃, heq⟩ := h
    cases heq
    simp only [translateOp, emit, u8_bind h₁, u8_bind h₂, argPairs_bind h₃, Dec.regPairs_length h₃]
  case tailCallExt =>
    obtain ⟨mod, _, h₁, fname, _, h₂, n, _, h₃, rs, _, h₄, heq⟩ := h
    cases heq
    simp only [translateOp, emit, u32_bind h₁, u32_bind h₂, u8_bind h₃, args_bind h₄]
  case portSubmit2 =>
    obtain ⟨a, _, h₁, b, _, h₂, c, _, h₃, d, _, h₄, e, _, h₅, heq⟩ := h
    cases heq
    simp only [translateOp, emit, u8_bind h₁, u8_bind h₂, u8_bind h₃, u8_bind h₄, u8_bind h₅]
  case tailCall =>
    obtain ⟨c, _, h₁, n, _, h₂, rs, _, h₃, heq⟩ := h
    cases heq
    simp only [translateOp, emit, u32_bind h₁, u8_bind h₂, args_bind h₃]

end Fetch

/-- Where an instruction can be decoded, the compiler translates it. -/
theorem translateInsn_eq_emit {ctx : Context} {b : Builder} {i : Insn} {next : ℕ}
    (h : decodeAt ctx.fn.code b.pc = some (i, next)) :
    translateInsn ctx b = emit ctx i next { b with pc := next } := by
  simp only [decodeAt, StateT.run, Dec.insn, StateT.bind_eq_some] at h
  obtain ⟨o, mid, ho, hrest⟩ := h
  refine (u8_bind ho _).trans ?_
  cases hop : Op.ofByte o with
  | none => simp [hop, StateT.failure_eq_some] at hrest
  | some op =>
    simp only [hop] at hrest ⊢
    exact translateOp_eq hrest

end Tx

end Jit

end Yggdrasil
