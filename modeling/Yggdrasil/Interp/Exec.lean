import Yggdrasil.Interp.Body
import Yggdrasil.Lib.Reader

/-!
# Instructions as the interpreter executes them

On code that can be decoded, the loop body reads exactly the decoded instruction
and executes it. Later results are stated about instructions and never return to
the bytes.
-/

namespace Yggdrasil

namespace Exec

variable {σ α : Type} (api : SystemApi σ) (limit : ℕ)

/-- The values of a list of registers. -/
def gets : List UInt8 → Exec σ (List Term)
  | [] => return []
  | r :: rs => do
    let v ← get r
    return v :: (← gets rs)

/-- The values of a list of pairs of registers. -/
def getPairs : List (UInt8 × UInt8) → Exec σ (List (Term × Term))
  | [] => return []
  | kv :: rest => do
    let k ← get kv.1
    let v ← get kv.2
    return (k, v) :: (← getPairs rest)

/-- Execute a decoded instruction. -/
def exec : Insn → Exec σ Flow
  | .nop => return .next
  | .loadInt rd v => setNext rd (Term.int v)
  | .loadAtom rd a => loadAtom api rd a
  | .reg1 o r => reg1 api o r
  | .reg2 o a b => reg2 api limit o a b
  | .reg3 o a b c => reg3 api limit o a b c
  | .reg4 o a b c d => reg4 api limit o a b c d
  | .makeTuple rd rs => do makeTuple api limit rd (← gets rs)
  | .getElem rd rs idx => getElem api rd rs idx
  | .jmp off => do
    jump api off
    return .next
  | .jmpIf rc off => jumpIf api rc off
  | .call rd callee rs => do call api rd callee (← gets rs)
  | .spawn rd callee ra => spawn api rd callee ra
  | .portOpen rd kind => portOpen api rd kind
  | .portSubmit rp op ra rt => portSubmit api rp op ra rt
  | .callExt rd mod fname rs => do callExt api rd mod fname (← gets rs)
  | .binNew rd data => alloc api limit rd (Heap.binary data)
  | .mapNew rd pairs => do mapNew api limit rd (← getPairs pairs)
  | .tailCallExt mod fname rs => do tailCallExt api mod fname (← gets rs)
  | .portSubmit2 rp ro ra0 ra1 rt => portSubmit2 api rp ro ra0 ra1 rt
  | .tailCall callee rs => do tailCall api callee (← gets rs)

section Fetch

variable {fr : Frame} {pos next : ℕ}

private theorem u8_bind {b : UInt8} (h : Dec.u8 fr.code pos = some (b, next))
    (k : UInt8 → Exec σ α) :
    (u8 >>= k) { fr with pc := pos } = k b { fr with pc := next } := by
  simp only [Dec.u8, Option.map_eq_some_iff, Prod.mk.injEq] at h
  obtain ⟨_, hb, rfl, rfl⟩ := h
  change (u8 { fr with pc := pos } >>= fun p => k p.1 p.2) = _
  simp only [u8, hb, pure_bind]

private theorem u32_bind {v : UInt32} (h : Dec.u32 fr.code pos = some (v, next))
    (k : UInt32 → Exec σ α) :
    (u32 >>= k) { fr with pc := pos } = k v { fr with pc := next } := by
  simp only [Dec.u32, Option.map_eq_some_iff, Prod.mk.injEq] at h
  obtain ⟨_, hv, rfl, rfl⟩ := h
  change (u32 { fr with pc := pos } >>= fun p => k p.1 p.2) = _
  simp only [u32, hv, pure_bind]

private theorem i32_bind {v : UInt32} (h : Dec.u32 fr.code pos = some (v, next))
    (k : ℤ → Exec σ α) :
    (i32 >>= k) { fr with pc := pos } = k (asI32 v) { fr with pc := next } := by
  simp only [i32, bind_assoc, pure_bind]
  exact u32_bind h fun v => k (asI32 v)

private theorem i64_bind {v : Word} (h : Dec.i64 fr.code pos = some (v, next))
    (k : Word → Exec σ α) :
    (i64 >>= k) { fr with pc := pos } = k v { fr with pc := next } := by
  simp only [Dec.i64, Option.map_eq_some_iff, Prod.mk.injEq] at h
  obtain ⟨_, hv, rfl, rfl⟩ := h
  change (i64 { fr with pc := pos } >>= fun p => k p.1 p.2) = _
  simp only [i64, hv, pure_bind]

private theorem bytes_bind {n : ℕ} {s : List UInt8}
    (h : Dec.bytes fr.code n pos = some (s, next)) (k : List UInt8 → Exec σ α) :
    (bytes n >>= k) { fr with pc := pos } = k s { fr with pc := next } := by
  simp only [Dec.bytes, Option.map_eq_some_iff, Prod.mk.injEq] at h
  obtain ⟨_, hs, rfl, rfl⟩ := h
  change (bytes n { fr with pc := pos } >>= fun p => k p.1 p.2) = _
  simp only [bytes, hs, pure_bind]

private theorem get_bind (r : UInt8) (k : Term → Exec σ α) (fr : Frame) :
    (get r >>= k) fr = match fr.regs[r.toNat]? with
      | some v => k v fr
      | none => throw (.fault .register) := by
  change (get r fr >>= fun p => k p.1 p.2) = _
  unfold get
  cases fr.regs[r.toNat]? with
  | none => rfl
  | some v => simp only [pure_bind]

private theorem args_bind {n : ℕ} {rs : List UInt8}
    (h : Dec.regs fr.code n pos = some (rs, next)) (k : List Term → Exec σ α) :
    (args n >>= k) { fr with pc := pos } = (gets rs >>= k) { fr with pc := next } := by
  induction n generalizing pos rs k with
  | zero =>
    cases StateT.pure_eq_some.mp h
    rfl
  | succ n ih =>
    simp only [Dec.regs, StateT.bind_eq_some, StateT.pure_eq_some] at h
    obtain ⟨r, mid, hr, rest, _, hrest, heq⟩ := h
    cases heq
    simp only [args, gets, bind_assoc, pure_bind, u8_bind hr, get_bind]
    cases fr.regs[r.toNat]? with
    | none => rfl
    | some v => exact ih hrest fun vs => k (v :: vs)

private theorem argPairs_bind {n : ℕ} {ps : List (UInt8 × UInt8)}
    (h : Dec.regPairs fr.code n pos = some (ps, next)) (k : List (Term × Term) → Exec σ α) :
    (argPairs n >>= k) { fr with pc := pos } = (getPairs ps >>= k) { fr with pc := next } := by
  induction n generalizing pos ps k with
  | zero =>
    cases StateT.pure_eq_some.mp h
    rfl
  | succ n ih =>
    simp only [Dec.regPairs, StateT.bind_eq_some, StateT.pure_eq_some] at h
    obtain ⟨rk, mid, hk, rv, mid', hv, rest, _, hrest, heq⟩ := h
    cases heq
    simp only [argPairs, getPairs, bind_assoc, pure_bind, u8_bind hk, u8_bind hv, get_bind]
    cases fr.regs[rk.toNat]? with
    | none => rfl
    | some key =>
      cases fr.regs[rv.toNat]? with
      | none => rfl
      | some v => exact ih hrest fun vs => k ((key, v) :: vs)

private theorem dispatch_eq {op : Op} {i : Insn}
    (h : Dec.operands fr.code op pos = some (i, next)) :
    dispatch api limit op { fr with pc := pos } = exec api limit i { fr with pc := next } := by
  cases op <;>
    simp only [Dec.operands, StateT.bind_eq_some, StateT.pure_eq_some] at h
  case nop =>
    cases h
    rfl
  case loadInt =>
    obtain ⟨rd, _, h₁, v, _, h₂, heq⟩ := h
    cases heq
    simp only [dispatch, exec, u8_bind h₁, i64_bind h₂]
  case loadAtom =>
    obtain ⟨rd, _, h₁, a, _, h₂, heq⟩ := h
    cases heq
    simp only [dispatch, exec, u8_bind h₁, u32_bind h₂]
  case reg1 =>
    obtain ⟨a, _, h₁, heq⟩ := h
    cases heq
    simp only [dispatch, exec, u8_bind h₁]
  case reg2 | portOpen =>
    obtain ⟨a, _, h₁, b, _, h₂, heq⟩ := h
    cases heq
    simp only [dispatch, exec, u8_bind h₁, u8_bind h₂]
  case reg3 | getElem =>
    obtain ⟨a, _, h₁, b, _, h₂, c, _, h₃, heq⟩ := h
    cases heq
    simp only [dispatch, exec, u8_bind h₁, u8_bind h₂, u8_bind h₃]
  case reg4 | portSubmit =>
    obtain ⟨a, _, h₁, b, _, h₂, c, _, h₃, d, _, h₄, heq⟩ := h
    cases heq
    simp only [dispatch, exec, u8_bind h₁, u8_bind h₂, u8_bind h₃, u8_bind h₄]
  case makeTuple =>
    obtain ⟨rd, _, h₁, n, _, h₂, rs, _, h₃, heq⟩ := h
    cases heq
    simp only [dispatch, exec, u8_bind h₁, u8_bind h₂, args_bind h₃]
  case jmp =>
    obtain ⟨off, _, h₁, heq⟩ := h
    cases heq
    simp only [dispatch, exec, i32_bind h₁]
  case jmpIf =>
    obtain ⟨rc, _, h₁, off, _, h₂, heq⟩ := h
    cases heq
    simp only [dispatch, exec, u8_bind h₁, i32_bind h₂]
  case call =>
    obtain ⟨rd, _, h₁, c, _, h₂, n, _, h₃, rs, _, h₄, heq⟩ := h
    cases heq
    simp only [dispatch, exec, u8_bind h₁, u32_bind h₂, u8_bind h₃, args_bind h₄]
  case spawn =>
    obtain ⟨rd, _, h₁, c, _, h₂, ra, _, h₃, heq⟩ := h
    cases heq
    simp only [dispatch, exec, u8_bind h₁, u32_bind h₂, u8_bind h₃]
  case callExt =>
    obtain ⟨rd, _, h₁, mod, _, h₂, fname, _, h₃, n, _, h₄, rs, _, h₅, heq⟩ := h
    cases heq
    simp only [dispatch, exec, u8_bind h₁, u32_bind h₂, u32_bind h₃, u8_bind h₄, args_bind h₅]
  case binNew =>
    obtain ⟨rd, _, h₁, len, _, h₂, s, _, h₃, heq⟩ := h
    cases heq
    simp only [dispatch, exec, u8_bind h₁, u32_bind h₂, bytes_bind h₃]
  case mapNew =>
    obtain ⟨rd, _, h₁, n, _, h₂, ps, _, h₃, heq⟩ := h
    cases heq
    simp only [dispatch, exec, u8_bind h₁, u8_bind h₂, argPairs_bind h₃]
  case tailCallExt =>
    obtain ⟨mod, _, h₁, fname, _, h₂, n, _, h₃, rs, _, h₄, heq⟩ := h
    cases heq
    simp only [dispatch, exec, u32_bind h₁, u32_bind h₂, u8_bind h₃, args_bind h₄]
  case portSubmit2 =>
    obtain ⟨a, _, h₁, b, _, h₂, c, _, h₃, d, _, h₄, e, _, h₅, heq⟩ := h
    cases heq
    simp only [dispatch, exec, u8_bind h₁, u8_bind h₂, u8_bind h₃, u8_bind h₄, u8_bind h₅]
  case tailCall =>
    obtain ⟨c, _, h₁, n, _, h₂, rs, _, h₃, heq⟩ := h
    cases heq
    simp only [dispatch, exec, u32_bind h₁, u8_bind h₂, args_bind h₃]

end Fetch

/-- Where an instruction can be decoded, the loop body executes it. -/
theorem body_eq_exec {fr : Frame} {i : Insn} {next : ℕ}
    (h : decodeAt fr.code fr.pc = some (i, next)) :
    body api limit fr = exec api limit i { fr with pc := next } := by
  simp only [decodeAt, StateT.run, Dec.insn, StateT.bind_eq_some] at h
  obtain ⟨b, mid, hb, hrest⟩ := h
  refine (u8_bind hb _).trans ?_
  cases hop : Op.ofByte b with
  | none => simp [hop, StateT.failure_eq_some] at hrest
  | some op =>
    simp only [hop] at hrest ⊢
    exact dispatch_eq api limit hrest

end Exec

end Yggdrasil
