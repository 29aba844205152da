import Yggdrasil.Bytecode.SentinelSpec
import Yggdrasil.Interp.Moves
import Yggdrasil.Jit.Translation

/-!
# All decoders agree

The verifier, the scan for tail calls, both passes of the compiler and `skip_insn` each have
their own table of the operands, and the interpreter reads them as it executes. On the code of a
verified module all of them take the same instructions apart.
-/

namespace Yggdrasil

namespace Exec

variable {σ : Type} {api : SystemApi σ} {limit : ℕ}

private theorem jump_pc (off : ℤ) (fr : Frame) (s : σ) :
    EStateM.Ends (fun _ _ => True) (fun p _ => (p.2.pc : ℤ) = fr.pc + off) (jump api off fr) s := by
  have hmove : ∀ (fr' : Frame) (s' : σ), fr'.pc = fr.pc →
      EStateM.Ends (fun _ _ => True) (fun p _ => (p.2.pc : ℤ) = fr.pc + off)
        ((fun fr => let pc := (fr.pc : ℤ) + off
          if pc < 0 ∨ fr.code.length < pc.toNat then throw (.fault .jump)
          else pure ((), { fr with pc := pc.toNat }) : Exec σ Unit) fr') s' := by
    intro fr' s' hpc
    dsimp only
    split
    · trivial
    · rename_i hcheck
      refine .pure ?_
      change ((((fr'.pc : ℤ) + off).toNat : ℕ) : ℤ) = _
      rw [← hpc]
      omega
  unfold jump
  split
  · refine (stays_sys _ fr s).bindState fun _ fr' s' hstay => ?_
    exact hmove fr' s' hstay.2.2.1
  · exact hmove fr s rfl

/-- Where the frame is after an instruction: behind it, or where it jumps to. -/
theorem exec_pc (i : Insn) (fr : Frame) (s : σ) :
    EStateM.Ends (fun _ _ => True)
      (fun p _ => (i.offset = none ∨ i.fallsThrough = true) ∧ p.2.pc = fr.pc ∨
        ∃ off, i.offset = some off ∧ (p.2.pc : ℤ) = fr.pc + off) (exec api limit i fr) s := by
  cases hoff : i.offset with
  | none =>
    refine (stays_exec api limit hoff fr s).mono (fun _ _ => id) ?_
    exact fun p _ hstay => .inl ⟨.inl rfl, hstay.2.2.1⟩
  | some off =>
    cases i <;> simp only [Insn.offset, Option.some.injEq, reduceCtorEq] at hoff
    case jmp off' =>
      subst hoff
      refine (jump_pc off' fr s).bindState fun _ fr' s' hpc => ?_
      exact .pure (.inr ⟨off', rfl, hpc⟩)
    case jmpIf rc off' =>
      subst hoff
      have hint : Stays (int rc : Exec σ Word) fun _ => True :=
        (stays_get rc).bind fun _ _ => stays_sys _
      refine (hint fr s).bindState fun v fr' s' hstay => ?_
      split
      · refine (jump_pc off' fr' s').bindState fun _ fr'' s'' hpc => ?_
        exact .pure (.inr ⟨off', rfl, by rw [hpc, hstay.2.2.1]⟩)
      · exact .pure (.inl ⟨.inr rfl, hstay.2.2.1⟩)

end Exec

namespace Jit

/-- The instruction starts found by moving over the code with `skip_insn`, latest first. -/
def skipLoop (code : List UInt8) : ℕ → ℕ → List ℕ → Except JitError (List ℕ)
  | 0, _, starts => .ok starts
  | rounds + 1, pos, starts =>
    if pos < code.length then do
      let ((), next) ← skipInsn code pos
      skipLoop code rounds next (pos :: starts)
    else .ok starts

private theorem skipLoop_eq {code : List UInt8} {insns : List Insn} {rounds pos : ℕ}
    {starts : List ℕ} (hpos : pos ≤ code.length) (hrounds : code.length ≤ pos + rounds)
    (hcode : code.drop pos = Insn.encodeAll insns) (hinsns : ∀ i ∈ insns, i.Encodable) :
    skipLoop code rounds pos starts =
      .ok (ScanState.collect ⟨starts, [], true⟩ pos insns).boundaries := by
  induction insns generalizing rounds pos starts with
  | nil =>
    have hend : ¬pos < code.length := by
      have hnil := congrArg List.length hcode
      simp only [Insn.encodeAll, List.flatMap_nil, List.length_drop, List.length_nil] at hnil
      omega
    cases rounds with
    | zero => rfl
    | succ rounds =>
      rw [skipLoop, if_neg hend]
      rfl
  | cons i is ih =>
    obtain ⟨hok, his⟩ := List.forall_mem_cons.mp hinsns
    obtain ⟨hi, hrest⟩ := Insn.decodeAt_cons hpos hcode hok
    obtain ⟨hlt, hle⟩ := decodeAt_bounds hi
    obtain ⟨rounds, rfl⟩ : ∃ n, rounds = n + 1 := ⟨rounds - 1, by omega⟩
    rw [skipLoop, if_pos (by omega), skipInsn_iff.mpr ⟨i, hi⟩]
    refine (ih hle (by omega) hrest his).trans ?_
    rw [Except.ok.injEq, ScanState.collect]
    exact ScanState.boundaries_collect_congr rfl

/-- All decoders agree. On every function of a verified module the scan of the verifier, the scan
for tail calls, both passes of the compiler and `skip_insn` find the same instruction starts; and
an instruction that the interpreter executes without a trap leaves the program counter behind it,
where `skip_insn` ends too, or where it jumps to from there. On any code, and at any position,
`skip_operands` ends where `skip_insn` does, or both fail. -/
theorem decoders_agree :
    (∀ (m : Module) (idx : ℕ) (f : Function), verify m = .ok () → m.functions[idx]? = some f →
      ∃ starts,
        (∃ st, scanFn m idx f = .ok st ∧ st.boundaries = starts) ∧
        (tailScan f).starts = starts ∧
        (∃ scan, leaderScan f.code = .ok scan ∧ scan.starts = starts) ∧
        skipLoop f.code f.code.length 0 [] = .ok starts ∧
        (∀ (atomMap : List UInt32) (resolver : ExtResolver), m.atoms.length ≤ atomMap.length →
          ∃ leaders b, findLeaders f.code = .ok leaders ∧
            Tx.body ⟨m, atomMap, resolver, f, leaders⟩ (.init f) = .ok ((), b) ∧
            b.starts = starts) ∧
        ∀ pos ∈ starts, ∃ i next, decodeAt f.code pos = some (i, next) ∧
          skipInsn f.code pos = .ok ((), next) ∧
          ∀ {σ : Type} (api : SystemApi σ) (limit : ℕ) (fr : Frame) (s : σ), fr.code = f.code →
            fr.pc = pos → ∀ flow fr' s', Exec.body api limit fr s = .ok (flow, fr') s' →
              (i.offset = none ∨ i.fallsThrough = true) ∧ fr'.pc = next ∨
                ∃ off, i.offset = some off ∧ (fr'.pc : ℤ) = next + off) ∧
    ∀ (code : List UInt8) (pos : ℕ) (opcode : UInt8), code[pos]? = some opcode → ∀ e,
      skipOperands opcode code (pos + 1) = some e ↔ skipInsn code pos = .ok ((), e) := by
  refine ⟨fun m idx f hm hidx => ?_, fun code pos opcode hopcode e => ?_⟩
  · obtain ⟨insns, hfn⟩ := (verify_eq_ok_iff m).mp hm f (List.mem_of_getElem? hidx)
    have hzero : 0 ≤ f.code.length := Nat.zero_le _
    have hrounds : f.code.length ≤ 0 + f.code.length := by omega
    have hcode : f.code.drop 0 = Insn.encodeAll insns := hfn.code_eq
    refine ⟨(ScanState.collect ⟨[], [], true⟩ 0 insns).boundaries, ?_, ?_, ?_, ?_, ?_, ?_⟩
    · refine ⟨_, (scanLoop_eq_ok_iff hzero hrounds).mpr ⟨insns, hcode, fun i hi => ?_, rfl⟩, rfl⟩
      exact ⟨hfn.encodable i hi, hfn.operands i hi⟩
    · rw [tailScan, tailScanLoop_eq hzero hrounds hcode hfn.encodable]
    · obtain ⟨leaders, hscan, -⟩ := leaderLoop_eq hzero hrounds hcode hfn.encodable
      exact ⟨_, hscan, rfl⟩
    · exact skipLoop_eq hzero hrounds hcode hfn.encodable
    · intro atomMap resolver hmap
      obtain ⟨leaders, hfind, hleaders⟩ := findLeaders_ok hfn
      let ctx : Context := ⟨m, atomMap, resolver, f, leaders⟩
      have hfn' : ctx.fn.WellFormed ctx.module insns := hfn
      obtain ⟨-, b, -, -, hbody, hstarts, -⟩ := body_wellFormed hfn' hmap hleaders
      exact ⟨leaders, b, hfind, hbody, hstarts⟩
    · intro pos hpos
      obtain hnil | ⟨k, hk, rfl⟩ := ScanState.mem_boundaries_collect.mp hpos
      · cases hnil
      · rw [Nat.zero_add]
        have hi := Insn.decodeAt_startOf hfn.encodable (List.getElem?_eq_getElem hk)
        rw [← hfn.code_eq] at hi
        refine ⟨_, _, hi, skipInsn_iff.mpr ⟨_, hi⟩, ?_⟩
        intro σ api limit fr s hfr hpc flow fr' s' hbody
        rw [← hfr, ← hpc] at hi
        rw [Exec.body_eq_exec api limit hi] at hbody
        exact (Exec.exec_pc _ _ s).ok hbody
  · rw [skipOperands_iff hopcode, skipInsn_iff]

/-- The decoders agree on the function that jumps back. -/
theorem spin_decoded : verify spin = .ok () ∧ ∃ st scan,
    scanFn spin 0 ⟨0, 1, 1, [17, 0, 250, 255, 255, 255, 19, 0]⟩ = .ok st ∧
      leaderScan [17, 0, 250, 255, 255, 255, 19, 0] = .ok scan ∧ scan.starts = st.boundaries := by
  have hm : verify spin = .ok () := by decide
  obtain ⟨_, ⟨st, hst, rfl⟩, -, ⟨scan, hscan, hstarts⟩, -⟩ := decoders_agree.1 spin 0 _ hm rfl
  exact ⟨hm, st, scan, hst, hscan, hstarts⟩

end Jit

end Yggdrasil
