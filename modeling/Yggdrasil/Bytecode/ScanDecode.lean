import Yggdrasil.Lib.Reader
import Yggdrasil.Bytecode.Verify
import Yggdrasil.Bytecode.Insn

/-!
# The verifier reads the instructions that are there

Every reader of the verifier succeeds exactly when the plain reader of the same
operand does and the operand passes its check. Hence the scan of one instruction
succeeds exactly on the encodings of well-formed instructions.
-/

namespace Yggdrasil

namespace Dec

variable {code : List UInt8} {n pos next : ℕ}

/-- As many registers are read as were asked for. -/
theorem regs_length {rs : List UInt8} (h : regs code n pos = some (rs, next)) :
    rs.length = n := by
  induction n generalizing pos rs with
  | zero =>
    rw [regs, StateT.pure_eq_some] at h
    cases h
    rfl
  | succ n ih =>
    simp only [regs, StateT.bind_eq_some, StateT.pure_eq_some] at h
    obtain ⟨r, mid, -, rest, s', hrest, heq⟩ := h
    cases heq
    simp [ih hrest]

/-- As many pairs of registers are read as were asked for. -/
theorem regPairs_length {ps : List (UInt8 × UInt8)} (h : regPairs code n pos = some (ps, next)) :
    ps.length = n := by
  induction n generalizing pos ps with
  | zero =>
    rw [regPairs, StateT.pure_eq_some] at h
    cases h
    rfl
  | succ n ih =>
    simp only [regPairs, StateT.bind_eq_some, StateT.pure_eq_some] at h
    obtain ⟨k, mid, -, v, mid', -, rest, s', hrest, heq⟩ := h
    cases heq
    simp [ih hrest]

end Dec

section Readers

variable {m : Module} {fnIdx : ℕ} {f : Function} {start pos next : ℕ} {u : Unit}

private theorem scan_u8_iff {b : UInt8} :
    Scan.u8 fnIdx f start pos = .ok (b, next) ↔ Dec.u8 f.code pos = some (b, next) := by
  simp only [Scan.u8, Dec.u8]
  cases f.code[pos]? <;> simp

private theorem scan_u32_iff {v : UInt32} :
    Scan.u32 fnIdx f start pos = .ok (v, next) ↔ Dec.u32 f.code pos = some (v, next) := by
  simp only [Scan.u32, Dec.u32]
  cases getU32 f.code pos <;> simp

private theorem scan_skip_iff {n : ℕ} :
    Scan.skip fnIdx f start n pos = .ok (u, next) ↔
      ∃ s, Dec.bytes f.code n pos = some (s, next) := by
  simp only [Scan.skip, Dec.bytes, slice]
  by_cases h : pos + n ≤ f.code.length
  · simp [h, Nat.not_lt.mpr h]
  · simp [h, Nat.not_le.mp h]

private theorem scan_skip_one_iff :
    Scan.skip fnIdx f start 1 pos = .ok (u, next) ↔
      ∃ b, Dec.u8 f.code pos = some (b, next) := by
  simp only [Scan.skip, Dec.u8]
  by_cases h : pos < f.code.length
  · rw [if_neg (by omega)]
    simp [List.getElem?_eq_getElem h]
  · rw [if_pos (by omega)]
    simp [List.getElem?_eq_none (Nat.not_lt.mp h)]

private theorem scan_skip_eight_iff :
    Scan.skip fnIdx f start 8 pos = .ok (u, next) ↔
      ∃ v, Dec.i64 f.code pos = some (v, next) := by
  simp only [Scan.skip, Dec.i64, getI64, slice]
  by_cases h : pos + 8 ≤ f.code.length
  · simp [h, Nat.not_lt.mpr h]
  · simp [h, Nat.not_le.mp h]

private theorem scan_reg_iff :
    Scan.reg fnIdx f start pos = .ok (u, next) ↔
      ∃ r, Dec.u8 f.code pos = some (r, next) ∧ r < f.nregs := by
  simp only [Scan.reg, StateT.bind_eq_ok, scan_u8_iff]
  constructor
  · rintro ⟨r, s', hr, hok⟩
    unfold Scan.regOk at hok
    split at hok
    · exact absurd hok (by simp [StateT.throw_eq_ok])
    · rename_i hlt
      obtain rfl : next = s' := by simpa [StateT.pure_eq_ok] using hok
      exact ⟨r, hr, by simpa using hlt⟩
  · rintro ⟨r, hr, hlt⟩
    refine ⟨r, next, hr, ?_⟩
    rw [Scan.regOk, if_neg (by simpa using hlt), StateT.pure_eq_ok]

private theorem scan_regs_iff {n : ℕ} :
    Scan.regs fnIdx f start n pos = .ok (u, next) ↔
      ∃ rs, Dec.regs f.code n pos = some (rs, next) ∧ ∀ r ∈ rs, r < f.nregs := by
  induction n generalizing pos with
  | zero => simp [Scan.regs, Dec.regs, StateT.pure_eq_ok, StateT.pure_eq_some]
  | succ n ih =>
    simp only [Scan.regs, Dec.regs, StateT.bind_eq_ok, StateT.bind_eq_some, StateT.pure_eq_some,
      scan_reg_iff, ih]
    constructor
    · rintro ⟨-, mid, ⟨r, hr, hlt⟩, rs, hrs, hall⟩
      exact ⟨r :: rs, ⟨r, mid, hr, rs, next, hrs, rfl⟩, by simpa using ⟨hlt, hall⟩⟩
    · rintro ⟨all, ⟨r, mid, hr, rs, s', hrs, heq⟩, hall⟩
      obtain ⟨rfl, rfl⟩ := Prod.mk.inj heq
      exact ⟨u, mid, ⟨r, hr, hall r (by simp)⟩, rs, hrs, fun x hx => hall x (by simp [hx])⟩

private theorem scan_regPairs_iff {n : ℕ} :
    Scan.regs fnIdx f start (2 * n) pos = .ok (u, next) ↔
      ∃ ps, Dec.regPairs f.code n pos = some (ps, next) ∧
        ∀ kv ∈ ps, kv.1 < f.nregs ∧ kv.2 < f.nregs := by
  induction n generalizing pos with
  | zero => simp [Scan.regs, Dec.regPairs, StateT.pure_eq_ok, StateT.pure_eq_some]
  | succ n ih =>
    rw [show 2 * (n + 1) = 2 * n + 1 + 1 from rfl]
    simp only [Scan.regs, Dec.regPairs, StateT.bind_eq_ok, StateT.bind_eq_some,
      StateT.pure_eq_some, scan_reg_iff, ih]
    constructor
    · rintro ⟨-, mid, ⟨k, hk, hklt⟩, -, mid', ⟨v, hv, hvlt⟩, ps, hps, hall⟩
      exact ⟨(k, v) :: ps, ⟨k, mid, hk, v, mid', hv, ps, next, hps, rfl⟩,
        by simpa using ⟨⟨hklt, hvlt⟩, fun a b h => hall (a, b) h⟩⟩
    · rintro ⟨all, ⟨k, mid, hk, v, mid', hv, ps, s', hps, heq⟩, hall⟩
      obtain ⟨rfl, rfl⟩ := Prod.mk.inj heq
      exact ⟨u, mid, ⟨k, hk, (hall (k, v) (by simp)).1⟩, u, mid',
        ⟨v, hv, (hall (k, v) (by simp)).2⟩, ps, hps, fun x hx => hall x (by simp [hx])⟩

private theorem scan_atom_iff :
    Scan.atom m fnIdx f start pos = .ok (u, next) ↔
      ∃ a, Dec.u32 f.code pos = some (a, next) ∧ a.toNat < m.atoms.length := by
  simp only [Scan.atom, StateT.bind_eq_ok, scan_u32_iff]
  constructor
  · rintro ⟨a, s', ha, hok⟩
    by_cases hlt : a.toNat < m.atoms.length
    · rw [if_neg (by simpa using hlt), StateT.pure_eq_ok] at hok
      cases hok
      exact ⟨a, ha, hlt⟩
    · rw [if_pos (by simpa using hlt), StateT.throw_eq_ok] at hok
      exact hok.elim
  · rintro ⟨a, ha, hlt⟩
    refine ⟨a, next, ha, ?_⟩
    rw [if_neg (by simpa using hlt), StateT.pure_eq_ok]

private theorem scan_callee_iff {c : UInt32} {nargs : UInt8} :
    Scan.callee m fnIdx start c nargs pos = .ok (u, next) ↔
      next = pos ∧ ∃ g, m.functions[c.toNat]? = some g ∧ g.arity = nargs := by
  unfold Scan.callee
  cases m.functions[c.toNat]? with
  | none => simp [StateT.throw_eq_ok]
  | some g =>
    by_cases h : g.arity = nargs
    · simp [h, StateT.pure_eq_ok]
    · simp [h, StateT.throw_eq_ok]

private theorem scan_target_iff {t : ℤ} :
    Scan.target fnIdx f start pos = .ok (t, next) ↔
      ∃ v, Dec.u32 f.code pos = some (v, next) ∧ t = (next : ℤ) + asI32 v := by
  simp only [Scan.target, StateT.bind_eq_ok, scan_u32_iff, StateT.get_eq_ok, StateT.pure_eq_ok]
  constructor
  · rintro ⟨v, s', hv, p, s'', hget, heq⟩
    cases hget
    cases heq
    exact ⟨v, hv, rfl⟩
  · rintro ⟨v, hv, rfl⟩
    exact ⟨v, next, hv, next, next, rfl, rfl⟩

/-- One scanned instruction is one decoded, well-formed instruction, and the scan
reports its jump target and whether it falls through. -/
theorem scan_operands_iff {op : Op} {r : Option ℤ × Bool} :
    Scan.operands m fnIdx f start op pos = .ok (r, next) ↔
      ∃ i, Dec.operands f.code op pos = some (i, next) ∧ i.WellFormed m f ∧
        r = (i.offset.map fun off => (next : ℤ) + off, i.fallsThrough) := by
  cases op
  case' mapNew => simp only [Scan.operands, scan_regPairs_iff, StateT.bind_eq_ok]
  case' binNew => simp only [Scan.operands, scan_skip_iff, StateT.bind_eq_ok]
  all_goals
    simp only [Scan.operands, Dec.operands, StateT.bind_eq_ok, StateT.bind_eq_some,
      StateT.pure_eq_ok, StateT.pure_eq_some, scan_reg_iff, scan_u8_iff, scan_u32_iff,
      scan_skip_one_iff, scan_skip_eight_iff, scan_regs_iff, scan_atom_iff,
      scan_callee_iff, scan_target_iff, exists_const, Prod.mk.injEq]
  case call =>
    constructor
    · rintro ⟨pa, ⟨a, ha, la⟩, b, pb, hb, c, pc, hc, _, ⟨rfl, g, hg, lg⟩, pe, ⟨e, he, le⟩, rfl,
      rfl⟩
      exact ⟨.call a b e, ⟨a, pa, ha, b, _, hb, c, _, hc, e, _, he, rfl, rfl⟩, by simpa
        [Insn.wellFormed_iff, Insn.regs, Insn.atoms, Insn.callees] using ⟨⟨la, le⟩, ⟨g, hg, by rw
        [lg, Dec.regs_length he]⟩⟩, rfl⟩
    · rintro ⟨i, ⟨a, pa, ha, b, pb, hb, c, pc, hc, e, pe, he, rfl, rfl⟩, hw, rfl⟩
      simp [Insn.wellFormed_iff, Insn.regs, Insn.atoms, Insn.callees] at hw
      obtain ⟨⟨la, le⟩, ⟨g, hg, lg⟩⟩ := hw
      exact ⟨pa, ⟨a, ha, la⟩, b, pb, hb, c, pc, hc, pc, ⟨rfl, g, hg, UInt8.toNat_inj.mp (by rw [lg,
        Dec.regs_length he])⟩, _, ⟨e, he, le⟩, rfl, rfl⟩
  case spawn =>
    constructor
    · rintro ⟨pa, ⟨a, ha, la⟩, b, pb, hb, _, ⟨rfl, g, hg, lg⟩, pd, ⟨d, hd, ld⟩, rfl, rfl⟩
      exact ⟨.spawn a b d, ⟨a, pa, ha, b, _, hb, d, _, hd, rfl, rfl⟩, by simpa
        [Insn.wellFormed_iff, Insn.regs, Insn.atoms, Insn.callees] using ⟨⟨la, ld⟩, ⟨g, hg, by simp
        [lg]⟩⟩, rfl⟩
    · rintro ⟨i, ⟨a, pa, ha, b, pb, hb, d, pd, hd, rfl, rfl⟩, hw, rfl⟩
      simp [Insn.wellFormed_iff, Insn.regs, Insn.atoms, Insn.callees] at hw
      obtain ⟨⟨la, ld⟩, ⟨g, hg, lg⟩⟩ := hw
      exact ⟨pa, ⟨a, ha, la⟩, b, pb, hb, pb, ⟨rfl, g, hg, UInt8.toNat_inj.mp lg⟩, _, ⟨d, hd, ld⟩,
        rfl, rfl⟩
  case callExt =>
    constructor
    · rintro ⟨pa, ⟨a, ha, la⟩, pb, ⟨b, hb, lb⟩, pc, ⟨c, hc, lc⟩, d, pd, hd, pe, ⟨e, he, le⟩, rfl,
      rfl⟩
      exact ⟨.callExt a b c e, ⟨a, pa, ha, b, pb, hb, c, pc, hc, d, _, hd, e, _, he, rfl, rfl⟩, by
        simpa [Insn.wellFormed_iff, Insn.regs, Insn.atoms, Insn.callees] using ⟨⟨la, le⟩, ⟨lb,
        lc⟩⟩, rfl⟩
    · rintro ⟨i, ⟨a, pa, ha, b, pb, hb, c, pc, hc, d, pd, hd, e, pe, he, rfl, rfl⟩, hw, rfl⟩
      simp [Insn.wellFormed_iff, Insn.regs, Insn.atoms, Insn.callees] at hw
      obtain ⟨⟨la, le⟩, ⟨lb, lc⟩⟩ := hw
      exact ⟨pa, ⟨a, ha, la⟩, pb, ⟨b, hb, lb⟩, pc, ⟨c, hc, lc⟩, d, pd, hd, _, ⟨e, he, le⟩, rfl,
        rfl⟩
  case tailCall =>
    constructor
    · rintro ⟨a, pa, ha, b, pb, hb, _, ⟨rfl, g, hg, lg⟩, pd, ⟨d, hd, ld⟩, rfl, rfl⟩
      exact ⟨.tailCall a d, ⟨a, _, ha, b, _, hb, d, _, hd, rfl, rfl⟩, by simpa
        [Insn.wellFormed_iff, Insn.regs, Insn.atoms, Insn.callees] using ⟨ld, ⟨g, hg, by rw [lg,
        Dec.regs_length hd]⟩⟩, rfl⟩
    · rintro ⟨i, ⟨a, pa, ha, b, pb, hb, d, pd, hd, rfl, rfl⟩, hw, rfl⟩
      simp [Insn.wellFormed_iff, Insn.regs, Insn.atoms, Insn.callees] at hw
      obtain ⟨ld, ⟨g, hg, lg⟩⟩ := hw
      exact ⟨a, pa, ha, b, pb, hb, pb, ⟨rfl, g, hg, UInt8.toNat_inj.mp (by rw [lg, Dec.regs_length
        hd])⟩, _, ⟨d, hd, ld⟩, rfl, rfl⟩
  -- Elsewhere both sides make the same reads and check the same bounds, in another order.
  all_goals
    simp [Insn.wellFormed_iff, Insn.regs, Insn.atoms, Insn.callees, Insn.offset,
      Insn.fallsThrough] <;> grind

/-- The verifier scans an instruction exactly when a well-formed one is there. -/
theorem scan_insn_iff {r : Option ℤ × Bool} :
    (Scan.insn m fnIdx f start).run pos = .ok (r, next) ↔
      ∃ i, decodeAt f.code pos = some (i, next) ∧ i.WellFormed m f ∧
        r = (i.offset.map fun off => (next : ℤ) + off, i.fallsThrough) := by
  simp only [StateT.run, decodeAt, Scan.insn, Dec.insn, StateT.bind_eq_ok, StateT.bind_eq_some,
    scan_u8_iff]
  constructor
  · rintro ⟨b, mid, hb, hrest⟩
    cases hop : Op.ofByte b with
    | none => simp [hop, StateT.throw_eq_ok] at hrest
    | some op =>
      obtain ⟨i, hi, hwf, hr⟩ := scan_operands_iff.mp (by simpa only [hop] using hrest)
      exact ⟨i, ⟨b, mid, hb, by simpa only [hop] using hi⟩, hwf, hr⟩
  · rintro ⟨i, ⟨b, mid, hb, hi⟩, hwf, hr⟩
    cases hop : Op.ofByte b with
    | none => simp [hop, StateT.failure_eq_some] at hi
    | some op =>
      refine ⟨b, mid, hb, ?_⟩
      simp only [hop] at hi ⊢
      exact scan_operands_iff.mpr ⟨i, hi, hwf, hr⟩

end Readers

end Yggdrasil
