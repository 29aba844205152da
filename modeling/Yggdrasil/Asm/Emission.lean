import Yggdrasil.Asm.Source

/-!
# What a line is assembled to

Each line of a body emits one instruction with the operands of the source, or binds a
label. A jump is emitted with a blank offset.
-/

namespace Yggdrasil

/-- Put in another offset. -/
def Asm.Operand.withOffset (off : ℤ) : Operand → Operand
  | label _ => label off
  | x => x

namespace Insn

/-- The encoding up to the offset, if there is one. -/
def head : Insn → List UInt8
  | jmp _ => [Op.jmp.toByte]
  | jmpIf rc _ => [Op.jmpIf.toByte, rc]
  | i => i.encode

/-- The offset stands at the end of the encoding. -/
theorem encode_eq_head (i : Insn) : i.encode = i.head ++ i.offset.elim [] encodeOffset := by
  cases i <;> simp [head, encode, operandBytes, offset, op]

/-- Put in another offset. -/
def withOffset (off : ℤ) : Insn → Insn
  | jmp _ => jmp off
  | jmpIf rc _ => jmpIf rc off
  | i => i

section

variable (off : ℤ) (i : Insn)

/-- The offset that is put in. -/
theorem offset_withOffset : (i.withOffset off).offset = i.offset.map fun _ => off := by
  cases i <;> rfl

/-- The offset does not change the rest. -/
theorem head_withOffset : (i.withOffset off).head = i.head := by cases i <;> rfl

/-- The offset does not change the opcode. -/
theorem op_withOffset : (i.withOffset off).op = i.op := by cases i <;> rfl

/-- The offset is the operand that changes. -/
theorem operands_withOffset :
    (i.withOffset off).operands = i.operands.map (Asm.Operand.withOffset off) := by
  cases i <;> simp [withOffset, operands, Asm.Operand.withOffset, List.map_flatMap]

/-- The offset does not change the length. -/
theorem length_withOffset : (i.withOffset off).encode.length = i.encode.length := by
  rw [encode_eq_head, encode_eq_head i, head_withOffset, offset_withOffset]
  cases i.offset with
  | none => rfl
  | some off' => simp [CodeBuilder.length_encodeOffset]

end

end Insn

namespace Asm

namespace AsmM

variable {fns : FnIndex} {ln : ℕ} {s : String} {st : FnState}

/-- The state with more code. -/
private abbrev grown (st : FnState) (bs : List UInt8) : FnState :=
  { st with builder := st.builder.extend bs }

private theorem grown_grown (x y : List UInt8) : grown (grown st x) y = grown st (x ++ y) := by
  simp [grown, CodeBuilder.extend]

private theorem build_ok {f : CodeBuilder → CodeBuilder} {r : Unit × FnState} :
    build f st = .ok r ↔ r = ((), { st with builder := f st.builder }) := by
  change Except.ok ((), { st with builder := f st.builder }) = Except.ok r ↔ _
  rw [Except.ok.injEq, eq_comm]

private theorem u8_ok {v : UInt8} {r : Unit × FnState} :
    u8 v st = .ok r ↔ r = ((), grown st [v]) :=
  build_ok

private theorem opcode_ok {op : Op} {r : Unit × FnState} :
    opcode op st = .ok r ↔ r = ((), grown st [op.toByte]) :=
  u8_ok

private theorem u32_ok {v : UInt32} {r : Unit × FnState} :
    u32 v st = .ok r ↔ r = ((), grown st (leBytes 4 v.toNat)) :=
  build_ok

private theorem i64_ok {v : Word} {r : Unit × FnState} :
    i64 v st = .ok r ↔ r = ((), grown st (leBytes 8 v.toNat)) :=
  build_ok

private theorem operand_ok {ops : List String} {k : ℕ} {r : String × FnState} :
    operand ops k st = .ok r ↔ ∃ s, ops[k]? = some s ∧ r = (s, st) := by
  unfold operand
  cases ops[k]? with
  | none => simp [StateT.throw_eq_ok]
  | some s => simp [StateT.pure_eq_ok]

private theorem require_ok {α : Type} {e : AsmError} {x : Option α} {r : α × FnState} :
    require e x st = .ok r ↔ ∃ a, x = some a ∧ r = (a, st) := by
  cases x with
  | none =>
    change Except.error _ = Except.ok r ↔ _
    simp
  | some a =>
    change Except.ok (a, st) = Except.ok r ↔ _
    simp [eq_comm]

/-- An operand that is read and emitted. -/
private theorem emit_ok {α : Type} {e : AsmError} {x : Option α} {emit : α → AsmM Unit}
    {bytes : α → List UInt8}
    (hemit : ∀ a (r : Unit × FnState), emit a st = .ok r ↔ r = ((), grown st (bytes a)))
    {r : Unit × FnState} :
    (do emit (← require e x) : AsmM Unit) st = .ok r ↔
      ∃ a, x = some a ∧ r = ((), grown st (bytes a)) := by
  rw [StateT.bind_eq_ok]
  constructor
  · rintro ⟨a, st', ha, h⟩
    obtain ⟨a', ha', heq⟩ := require_ok.mp ha
    cases heq
    exact ⟨a, ha', (hemit a r).mp h⟩
  · rintro ⟨a, ha, hr⟩
    exact ⟨a, st, require_ok.mpr ⟨a, ha, rfl⟩, (hemit a r).mpr hr⟩

private theorem reg_ok {r : Unit × FnState} :
    reg ln s st = .ok r ↔ ∃ v, parseReg s = some v ∧ r = ((), grown st [v]) :=
  emit_ok fun _ _ => u8_ok

private theorem byte_ok {r : Unit × FnState} :
    byte s st = .ok r ↔ ∃ v, parseU8 s = some v ∧ r = ((), grown st [v]) :=
  emit_ok fun _ _ => u8_ok

private theorem fnref_ok {r : Unit × FnState} :
    fnref fns ln s st = .ok r ↔ ∃ f, (fns.lookup s).map Prod.fst = some f ∧
      r = ((), grown st (leBytes 4 f.toNat)) :=
  emit_ok fun _ _ => u32_ok

private theorem regs_ok {ss : List String} {r : Unit × FnState} (h : regs ln ss st = .ok r) :
    ∃ vs, List.Forall₂ (fun s v => parseReg s = some v) ss vs ∧ r = ((), grown st vs) := by
  induction ss generalizing st with
  | nil =>
    refine ⟨[], .nil, ?_⟩
    rw [regs, StateT.pure_eq_ok] at h
    rw [h, grown, CodeBuilder.extend, List.append_nil]
  | cons s ss ih =>
    rw [regs, StateT.bind_eq_ok] at h
    obtain ⟨⟨⟩, mid, hreg, h⟩ := h
    obtain ⟨v, hv, hmid⟩ := reg_ok.mp hreg
    cases hmid
    obtain ⟨vs, hvs, rfl⟩ := ih h
    refine ⟨v :: vs, .cons hv hvs, ?_⟩
    rw [grown_grown]
    rfl

private theorem regsFrom_ok {ops : List String} {k : ℕ} {r : Unit × FnState}
    (h : regsFrom ln ops k st = .ok r) :
    ∃ vs, List.Forall₂ (fun s v => parseReg s = some v) (ops.drop k) vs ∧
      r = ((), grown st (Insn.encodeRegs vs)) := by
  rw [regsFrom, StateT.bind_eq_ok] at h
  obtain ⟨⟨⟩, mid, hcount, h⟩ := h
  rw [u8_ok] at hcount
  cases hcount
  obtain ⟨vs, hvs, rfl⟩ := regs_ok h
  have hlen : ops.length - k = vs.length := by rw [← hvs.length_eq, List.length_drop]
  refine ⟨vs, hvs, ?_⟩
  rw [grown_grown, hlen]
  rfl

private theorem intern_ok {r : UInt32 × FnState} :
    intern s st = .ok r ↔
      r = ((st.atoms.intern s).1, { st with atoms := (st.atoms.intern s).2 }) := by
  rw [intern, Except.ok.injEq, eq_comm]

private theorem labelId_ok {id : UInt32} {st' : FnState} :
    labelId s st = .ok (id, st') ↔
      ∃ labels, st.labels.id s = some (id, labels) ∧ st' = { st with labels := labels } := by
  unfold labelId
  cases st.labels.id s with
  | none => simp
  | some p => simp [Prod.ext_iff, eq_comm, and_comm]

/-- A label line binds the number of its label at the end of the code. -/
theorem label_ok {st' : FnState} (h : stmt fns ln (.label s) st = .ok ((), st')) :
    ∃ id labels, st.labels.id s = some (id, labels) ∧
      st' = { st with builder := st.builder.bindLabel id, labels := labels } := by
  simp only [stmt, StateT.bind_eq_ok, labelId_ok, build_ok, Prod.mk.injEq, true_and] at h
  obtain ⟨id, _, ⟨labels, hid, rfl⟩, rfl⟩ := h
  exact ⟨id, labels, hid, rfl⟩

end AsmM

/-- An instruction as it is emitted: a jump is blank, and goes with the name of its label. -/
structure Piece where
  /-- The instruction. -/
  insn : Insn
  /-- The label of a jump. -/
  label : Option String
  /-- Jumps are blank and have a label. -/
  offset_eq : insn.offset = label.map fun _ => 0

/-- A text is assembled to an operand. -/
def Assembled (fns : FnIndex) (label : Option String) (atoms : Atoms) (s : String) :
    Operand → Prop
  | .reg r => parseReg s = some r
  | .int v => parseI64 s = some v
  | .byte n => parseU8 s = some n
  | .atom a => atoms.index.lookup s = some a
  | .callee f => (fns.lookup s).map Prod.fst = some f
  | .label _ => label = some s

/-- A line is assembled to an instruction; operands that are left over are dropped. -/
structure LineAssembled (fns : FnIndex) (atoms : Atoms) (line : Line) (p : Piece) : Prop where
  /-- It has the opcode of the mnemonic. -/
  op : ofMnemonic line.1 = some p.insn.op
  /-- It has the first operands of the source, and all of them if any number is taken. -/
  operands : ∃ sig used rest, Signature.ofOp p.insn.op = some sig ∧ line.2 = used ++ rest ∧
    (sig.more = true → rest = []) ∧
    List.Forall₂ (Assembled fns p.label atoms) used p.insn.operands

/-- What is assembled stays so when atoms keep their index. -/
theorem LineAssembled.mono {fns : FnIndex} {atoms atoms' : Atoms} {line : Line} {p : Piece}
    (h : LineAssembled fns atoms line p)
    (hkeep : ∀ x i, atoms.index.lookup x = some i → atoms'.index.lookup x = some i) :
    LineAssembled fns atoms' line p := by
  obtain ⟨sig, used, rest, hsig, hops, hrest, hoperands⟩ := h.operands
  refine ⟨h.op, sig, used, rest, hsig, hops, hrest, hoperands.imp fun s x hx => ?_⟩
  cases x with
  | atom a => exact hkeep s a hx
  | _ => exact hx

/-- A line is assembled and emitted. -/
structure Emits (fns : FnIndex) (line : Line) (st st' : FnState) (p : Piece) : Prop where
  /-- What it is assembled to. -/
  assembled : LineAssembled fns st'.atoms line p
  /-- The names it mentions are interned. -/
  atoms : st'.atoms = st.atoms.internAll line.atoms
  /-- Without a label the encoding is emitted. -/
  plain : p.label = none → st'.labels = st.labels ∧ st'.builder = st.builder.extend p.insn.encode
  /-- A jump refers to its label. -/
  jump : ∀ name, p.label = some name → ∃ id, st.labels.id name = some (id, st'.labels) ∧
    st'.builder = (st.builder.extend p.insn.head).labelRef id

section Lines

open AsmM

variable {fns : FnIndex} {ln : ℕ} {mnem : String} {ops used rest : List String}
  {st st' : FnState} {i : Insn} {kinds : List OperandKind}

private theorem cons_of_getElem? {s : String} (h : ops[0]? = some s) : ∃ rest, ops = s :: rest := by
  cases ops with
  | nil => cases h
  | cons s' rest => exact ⟨rest, congrArg (· :: rest) (Option.some.inj h)⟩

private theorem Line.atoms_eq {more : Bool} (hop : ofMnemonic mnem = some i.op)
    (hsig : Signature.ofOp i.op = some ⟨kinds, more⟩) :
    Line.atoms (mnem, ops) =
      ((kinds.zip ops).filter fun operand => operand.1 = .atom).map Prod.snd := by
  have h : Line.signature (mnem, ops) = some ⟨kinds, more⟩ := by
    rw [Line.signature, hop, Option.bind_some, hsig]
  rw [Line.atoms, h]
  rfl

/-- An instruction without a label; only a list of registers takes any number of operands. -/
private theorem emits_plain (i : Insn) (used rest : List String) {more : Bool}
    (hoffset : i.offset = none) (hop : ofMnemonic mnem = some i.op)
    (hsig : Signature.ofOp i.op = some ⟨kinds, more⟩) (hrest : more = true → rest = [])
    (hatoms : st'.atoms = st.atoms.internAll
      (((kinds.zip (used ++ rest)).filter fun operand => operand.1 = .atom).map Prod.snd))
    (hlabels : st'.labels = st.labels) (hbuilder : st'.builder = st.builder.extend i.encode)
    (hoperands : List.Forall₂ (Assembled fns none st'.atoms) used i.operands) :
    ∃ p, Emits fns (mnem, used ++ rest) st st' p := by
  refine ⟨⟨i, none, hoffset⟩, ⟨hop, _, used, rest, hsig, rfl, hrest, hoperands⟩, ?_,
    fun _ => ⟨hlabels, hbuilder⟩, fun _ h => ?_⟩
  · rw [Line.atoms_eq hop hsig]
    exact hatoms
  · cases h

/-- An instruction with a list of registers. -/
private theorem emits_counted (i : Insn) (hoffset : i.offset = none)
    (hop : ofMnemonic mnem = some i.op) (hsig : Signature.ofOp i.op = some ⟨kinds, true⟩)
    (hatoms : st'.atoms = st.atoms.internAll
      (((kinds.zip ops).filter fun operand => operand.1 = .atom).map Prod.snd))
    (hlabels : st'.labels = st.labels) (hbuilder : st'.builder = st.builder.extend i.encode)
    (hoperands : List.Forall₂ (Assembled fns none st'.atoms) ops i.operands) :
    ∃ p, Emits fns (mnem, ops) st st' p := by
  rw [← List.append_nil ops] at hatoms ⊢
  exact emits_plain i ops [] hoffset hop hsig (fun _ => rfl) hatoms hlabels hbuilder hoperands

/-- A jump. -/
private theorem emits_jump (i : Insn) (used rest : List String) {name : String} {id : UInt32}
    (hoffset : i.offset = some 0)
    (hop : ofMnemonic mnem = some i.op) (hsig : Signature.ofOp i.op = some ⟨kinds, false⟩)
    (hatoms : st'.atoms = st.atoms.internAll
      (((kinds.zip (used ++ rest)).filter fun operand => operand.1 = .atom).map Prod.snd))
    (hid : st.labels.id name = some (id, st'.labels))
    (hbuilder : st'.builder = (st.builder.extend i.head).labelRef id)
    (hoperands : List.Forall₂ (Assembled fns (some name) st'.atoms) used i.operands) :
    ∃ p, Emits fns (mnem, used ++ rest) st st' p := by
  refine ⟨⟨i, some name, hoffset⟩, ⟨hop, _, used, rest, hsig, rfl, fun h => ?_, hoperands⟩, ?_,
    fun h => ?_, fun name' h => ?_⟩
  · cases h
  · rw [Line.atoms_eq hop hsig]
    exact hatoms
  · cases h
  · cases h
    exact ⟨id, hid, hbuilder⟩

private theorem assembled_regs {label : Option String} {atoms : Atoms} {ss : List String}
    {vs : List UInt8} (h : List.Forall₂ (fun s v => parseReg s = some v) ss vs) :
    List.Forall₂ (Assembled fns label atoms) ss (vs.map .reg) :=
  List.forall₂_map_right_iff.mpr h

/-- A line that is assembled is emitted. -/
theorem insn_emits (h : AsmM.insn fns ln mnem ops st = .ok ((), st')) :
    ∃ p, Emits fns (mnem, ops) st st' p := by
  cases hop : ofMnemonic mnem with
  | none =>
    rw [AsmM.insn, hop] at h
    cases h
  | some op =>
    -- What the operands are parsed to, in the order of the calls, and what is appended.
    cases op <;> simp only [AsmM.insn, hop, StateT.bind_eq_ok, operand_ok, reg_ok, i64_ok, byte_ok,
      fnref_ok, intern_ok, labelId_ok, require_ok, opcode_ok, u32_ok, build_ok,
      grown_grown, Prod.mk.injEq, existsAndEq, true_and, and_true, exists_const] at h
    case nop =>
      subst h
      exact emits_plain .nop [] ops rfl hop rfl nofun rfl rfl rfl .nil
    case loadInt =>
      obtain ⟨s₀, h₀, r₀, hr₀, s₁, h₁, v, hv, rfl⟩ := h
      obtain ⟨_, rfl⟩ := cons_of_getElem? h₀
      obtain ⟨rest, rfl⟩ := cons_of_getElem? h₁
      exact emits_plain (.loadInt r₀ v) [s₀, s₁] rest rfl hop rfl nofun rfl rfl rfl
        (.cons hr₀ (.cons hv .nil))
    case loadAtom =>
      obtain ⟨s₁, h₁, s₀, h₀, r₀, hr₀, rfl⟩ := h
      obtain ⟨_, rfl⟩ := cons_of_getElem? h₀
      obtain ⟨rest, rfl⟩ := cons_of_getElem? h₁
      exact emits_plain (.loadAtom r₀ _) [s₀, s₁] rest rfl hop rfl nofun rfl rfl rfl
        (.cons hr₀ (.cons (st.atoms.lookup_intern s₁) .nil))
    case reg1 o =>
      obtain ⟨s₀, h₀, r₀, hr₀, rfl⟩ := h
      obtain ⟨rest, rfl⟩ := cons_of_getElem? h₀
      exact emits_plain (.reg1 o r₀) [s₀] rest rfl hop rfl nofun rfl rfl rfl (.cons hr₀ .nil)
    case reg2 o =>
      obtain ⟨s₀, h₀, r₀, hr₀, s₁, h₁, r₁, hr₁, rfl⟩ := h
      obtain ⟨_, rfl⟩ := cons_of_getElem? h₀
      obtain ⟨rest, rfl⟩ := cons_of_getElem? h₁
      exact emits_plain (.reg2 o r₀ r₁) [s₀, s₁] rest rfl hop rfl nofun rfl rfl rfl
        (.cons hr₀ (.cons hr₁ .nil))
    case reg3 o =>
      obtain ⟨s₀, h₀, r₀, hr₀, s₁, h₁, r₁, hr₁, s₂, h₂, r₂, hr₂, rfl⟩ := h
      obtain ⟨_, rfl⟩ := cons_of_getElem? h₀
      obtain ⟨_, rfl⟩ := cons_of_getElem? h₁
      obtain ⟨rest, rfl⟩ := cons_of_getElem? h₂
      exact emits_plain (.reg3 o r₀ r₁ r₂) [s₀, s₁, s₂] rest rfl hop rfl nofun rfl rfl rfl
        (.cons hr₀ (.cons hr₁ (.cons hr₂ .nil)))
    case makeTuple =>
      obtain ⟨s₀, h₀, r₀, hr₀, h⟩ := h
      obtain ⟨vs, hvs, hst⟩ := regsFrom_ok h
      obtain ⟨rest, rfl⟩ := cons_of_getElem? h₀
      rw [grown_grown] at hst
      cases hst
      exact emits_counted (.makeTuple r₀ vs) rfl hop rfl rfl rfl rfl
        (.cons hr₀ (assembled_regs hvs))
    case getElem =>
      obtain ⟨s₀, h₀, r₀, hr₀, s₁, h₁, r₁, hr₁, s₂, h₂, n, hn, rfl⟩ := h
      obtain ⟨_, rfl⟩ := cons_of_getElem? h₀
      obtain ⟨_, rfl⟩ := cons_of_getElem? h₁
      obtain ⟨rest, rfl⟩ := cons_of_getElem? h₂
      exact emits_plain (.getElem r₀ r₁ n) [s₀, s₁, s₂] rest rfl hop rfl nofun rfl rfl rfl
        (.cons hr₀ (.cons hr₁ (.cons hn .nil)))
    case jmp =>
      obtain ⟨s₀, h₀, id, labels, hid, rfl⟩ := h
      obtain ⟨rest, rfl⟩ := cons_of_getElem? h₀
      exact emits_jump (.jmp 0) [s₀] rest rfl hop rfl rfl hid rfl (.cons rfl .nil)
    case jmpIf =>
      obtain ⟨s₁, h₁, id, labels, hid, s₀, h₀, r₀, hr₀, rfl⟩ := h
      obtain ⟨_, rfl⟩ := cons_of_getElem? h₀
      obtain ⟨rest, rfl⟩ := cons_of_getElem? h₁
      refine emits_jump (.jmpIf r₀ 0) [s₀, s₁] rest rfl hop rfl rfl hid ?_
        (.cons hr₀ (.cons rfl .nil))
      simp [Insn.head, CodeBuilder.extend]
    case call =>
      obtain ⟨s₀, h₀, r₀, hr₀, s₁, h₁, f, hf, h⟩ := h
      obtain ⟨vs, hvs, hst⟩ := regsFrom_ok h
      obtain ⟨_, rfl⟩ := cons_of_getElem? h₀
      obtain ⟨rest, rfl⟩ := cons_of_getElem? h₁
      rw [grown_grown] at hst
      cases hst
      exact emits_counted (.call r₀ f vs) rfl hop rfl rfl rfl rfl
        (.cons hr₀ (.cons hf (assembled_regs hvs)))
    case spawn =>
      obtain ⟨s₀, h₀, r₀, hr₀, s₁, h₁, f, hf, s₂, h₂, r₂, hr₂, rfl⟩ := h
      obtain ⟨_, rfl⟩ := cons_of_getElem? h₀
      obtain ⟨_, rfl⟩ := cons_of_getElem? h₁
      obtain ⟨rest, rfl⟩ := cons_of_getElem? h₂
      exact emits_plain (.spawn r₀ f r₂) [s₀, s₁, s₂] rest rfl hop rfl nofun rfl rfl rfl
        (.cons hr₀ (.cons hf (.cons hr₂ .nil)))
    case portOpen =>
      obtain ⟨s₀, h₀, r₀, hr₀, s₁, h₁, n, hn, rfl⟩ := h
      obtain ⟨_, rfl⟩ := cons_of_getElem? h₀
      obtain ⟨rest, rfl⟩ := cons_of_getElem? h₁
      exact emits_plain (.portOpen r₀ n) [s₀, s₁] rest rfl hop rfl nofun rfl rfl rfl
        (.cons hr₀ (.cons hn .nil))
    case portSubmit =>
      obtain ⟨s₀, h₀, r₀, hr₀, s₁, h₁, n, hn, s₂, h₂, r₂, hr₂, s₃, h₃, r₃, hr₃, rfl⟩ := h
      obtain ⟨_, rfl⟩ := cons_of_getElem? h₀
      obtain ⟨_, rfl⟩ := cons_of_getElem? h₁
      obtain ⟨_, rfl⟩ := cons_of_getElem? h₂
      obtain ⟨rest, rfl⟩ := cons_of_getElem? h₃
      exact emits_plain (.portSubmit r₀ n r₂ r₃) [s₀, s₁, s₂, s₃] rest rfl hop rfl nofun rfl rfl rfl
        (.cons hr₀ (.cons hn (.cons hr₂ (.cons hr₃ .nil))))
    case callExt =>
      obtain ⟨s₁, h₁, s₂, h₂, s₀, h₀, r₀, hr₀, h⟩ := h
      obtain ⟨vs, hvs, hst⟩ := regsFrom_ok h
      obtain ⟨_, rfl⟩ := cons_of_getElem? h₀
      obtain ⟨_, rfl⟩ := cons_of_getElem? h₁
      obtain ⟨rest, rfl⟩ := cons_of_getElem? h₂
      rw [grown_grown] at hst
      cases hst
      have hmod := (st.atoms.intern s₁).2.lookup_mono s₂ (st.atoms.lookup_intern s₁)
      have hfname := (st.atoms.intern s₁).2.lookup_intern s₂
      exact emits_counted (.callExt r₀ _ _ vs) rfl hop rfl rfl rfl rfl
        (.cons hr₀ (.cons hmod (.cons hfname (assembled_regs hvs))))
    all_goals cases h

end Lines

end Asm

end Yggdrasil
