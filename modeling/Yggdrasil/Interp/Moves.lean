import Yggdrasil.Interp.Safety

/-!
# Where an instruction leaves the frame

When an instruction returns, the frame runs the same code with as many registers, and what is
left to be done is what the instruction says. Unlike safety this asks nothing of the callbacks,
and it is stated so that it holds of any engine that executes the instructions.
-/

namespace Yggdrasil

/-- What an instruction that does not jump can leave to be done. -/
def Insn.Leaves (i : Insn) : Flow → Prop
  | .next => i.fallsThrough = true
  | .ret _ => ∃ r, i = .reg1 .ret r
  | .call rd callee args => ∃ rs, i = .call rd callee rs ∧ args.length = rs.length
  | .callExt rd _ _ args => ∃ mod fname rs, i = .callExt rd mod fname rs ∧ args.length = rs.length
  | .tailCall callee args => ∃ rs, i = .tailCall callee rs ∧ args.length = rs.length
  | .tailCallExt _ _ args => ∃ mod fname rs, i = .tailCallExt mod fname rs ∧ args.length = rs.length
  | .recv rd => i = .reg1 .recv rd
  | .sleep _ => ∃ r, i = .reg1 .sleepMs r

/-- What is left to be done fits the operands. -/
theorem Insn.Leaves.fits {i : Insn} {flow : Flow} (h : i.Leaves flow) : Exec.Fits i flow := by
  cases flow with
  | next => exact h
  | ret v => trivial
  | call rd callee args =>
    obtain ⟨rs, rfl, hlen⟩ := h
    exact ⟨List.mem_cons_self, by simp [Insn.callees, hlen], rfl⟩
  | callExt rd mg fg args =>
    obtain ⟨mod, fname, rs, rfl, -⟩ := h
    exact ⟨List.mem_cons_self, rfl⟩
  | tailCall callee args =>
    obtain ⟨rs, rfl, hlen⟩ := h
    simp [Exec.Fits, Insn.callees, hlen]
  | tailCallExt mg fg args => trivial
  | recv rd =>
    obtain rfl := h
    exact ⟨List.mem_cons_self, rfl⟩
  | sleep ms =>
    obtain ⟨r, rfl⟩ := h
    rfl

namespace Exec

variable {σ α β : Type} {P Q : α → Prop}

/-- A result of the computation satisfies `Q`, and the frame is left as it was but for the
values of the registers. -/
def Stays (x : Exec σ α) (Q : α → Prop) : Prop :=
  ∀ fr s, EStateM.Ends (fun _ _ => True)
    (fun p _ => Q p.1 ∧ p.2.code = fr.code ∧ p.2.pc = fr.pc ∧ p.2.regs.length = fr.regs.length)
    (x fr) s

/-- A pure computation leaves the frame. -/
theorem Stays.pure {a : α} (h : Q a) : Stays (Pure.pure a : Exec σ α) Q :=
  fun _ _ => ⟨h, rfl, rfl, rfl⟩

/-- A sequence of computations. -/
theorem Stays.bind {R : β → Prop} {x : Exec σ α} {f : α → Exec σ β} (hx : Stays x P)
    (hf : ∀ a, P a → Stays (f a) R) : Stays (x >>= f) R := by
  intro fr s
  refine (hx fr s).bindState fun a fr' s' ⟨ha, hcode, hpc, hregs⟩ => ?_
  refine (hf a ha fr' s').mono (fun _ _ => id) ?_
  rintro p _ ⟨hq, hcode', hpc', hregs'⟩
  exact ⟨hq, hcode'.trans hcode, hpc'.trans hpc, hregs'.trans hregs⟩

/-- Weaken what is known of the result. -/
theorem Stays.mono {x : Exec σ α} (hx : Stays x P) (h : ∀ a, P a → Q a) : Stays x Q :=
  fun fr s => (hx fr s).mono (fun _ _ => id) fun _ _ hp => ⟨h _ hp.1, hp.2⟩

/-- Acting on the system leaves the frame alone. -/
theorem stays_sys (x : Sys σ α) : Stays (sys x) fun _ => True := by
  intro fr s
  have hany : EStateM.Ends (fun _ _ => True) (fun _ _ => True) x s := by
    unfold EStateM.Ends
    cases x s <;> trivial
  exact hany.bind fun a s' _ => ⟨trivial, rfl, rfl, rfl⟩

/-- A trap has no result. -/
theorem stays_trap (t : Trap) : Stays (trap t : Exec σ α) Q := fun _ _ => trivial

/-- A trap unless a condition holds. -/
theorem stays_unless {b : Prop} [Decidable b] (t : Trap) {x : Exec σ α} (hx : Stays x Q) :
    Stays (do if b then trap t
              x) Q := by
  split
  · exact (stays_trap (Q := fun _ => True) t).bind fun _ _ => hx
  · exact hx

/-- Reading a register leaves the frame. -/
theorem stays_get (r : UInt8) : Stays (get r : Exec σ Term) fun _ => True := by
  intro fr s
  unfold get
  cases fr.regs[r.toNat]? with
  | none => exact .throw trivial
  | some v => exact .pure ⟨trivial, rfl, rfl, rfl⟩

/-- Writing a register leaves the program counter and the code. -/
theorem stays_set (r : UInt8) (v : Term) : Stays (set r v : Exec σ Unit) fun _ => True := by
  intro fr s
  unfold set
  split
  · exact .pure ⟨trivial, rfl, rfl, by simp⟩
  · exact .throw trivial

/-- Reading registers gives as many values and leaves the frame. -/
theorem stays_gets (rs : List UInt8) :
    Stays (gets rs : Exec σ (List Term)) fun vs => vs.length = rs.length := by
  induction rs with
  | nil => exact .pure rfl
  | cons r rs ih =>
    refine (stays_get r).bind fun v _ => ih.bind fun vs hvs => .pure ?_
    simp [hvs]

/-- Reading pairs of registers. -/
theorem stays_getPairs (ps : List (UInt8 × UInt8)) :
    Stays (getPairs ps : Exec σ (List (Term × Term))) fun _ => True := by
  induction ps with
  | nil => exact .pure trivial
  | cons kv ps ih =>
    exact (stays_get kv.1).bind fun _ _ => (stays_get kv.2).bind fun _ _ =>
      ih.bind fun _ _ => .pure trivial

private theorem stays_setNext (r : UInt8) (v : Term) :
    Stays (setNext r v : Exec σ Flow) (· = .next) :=
  (stays_set r v).bind fun _ _ => .pure rfl

private theorem stays_int (r : UInt8) : Stays (int r : Exec σ Word) fun _ => True :=
  (stays_get r).bind fun _ _ => stays_sys _

section

variable (api : SystemApi σ) (limit : ℕ)

private theorem stays_alloc (rd : UInt8) (f : HeapM Term) :
    Stays (alloc api limit rd f) (· = .next) :=
  (stays_sys _).bind fun _ _ => stays_setNext rd _

private theorem stays_peek (f : Mem → α) : Stays (peek api f) fun _ => True :=
  (stays_sys _).bind fun _ _ => .pure trivial

private theorem stays_expectKind (k : Kind) (t : Term) :
    Stays (expectKind api k t) fun _ => True :=
  (stays_sys _).bind fun _ _ => stays_unless _ (.pure trivial)

private theorem stays_expectBoxed (k : Kind) (t : Term) :
    Stays (expectBoxed api k t) fun _ => True :=
  (stays_sys _).bind fun _ _ => stays_unless _ (.pure trivial)

private theorem stays_arith (rd ra rb : UInt8) (f : Word → Word → Option Word) :
    Stays (arith rd ra rb f : Exec σ Flow) (· = .next) :=
  (stays_int ra).bind fun _ _ => (stays_int rb).bind fun _ _ =>
    (stays_sys _).bind fun _ _ => stays_setNext rd _

private theorem stays_shift (rd ra rb : UInt8) (f : Word → ℕ → Word) :
    Stays (shift rd ra rb f : Exec σ Flow) (· = .next) :=
  (stays_int ra).bind fun _ _ => (stays_int rb).bind fun _ _ =>
    stays_unless _ (stays_setNext rd _)

private theorem stays_reg1 (o : Reg1Op) (r : UInt8) :
    Stays (reg1 api o r) (Insn.Leaves (.reg1 o r)) := by
  have hnext : ∀ v, (Insn.reg1 o r).fallsThrough = true →
      Stays (setNext r v : Exec σ Flow) (Insn.Leaves (.reg1 o r)) := fun v ho =>
    (stays_setNext r v).mono fun _ ha => ha ▸ ho
  cases o <;> dsimp only [reg1]
  case loadNil => exact hnext _ rfl
  case selfPid => exact (stays_sys _).bind fun _ _ => hnext _ rfl
  case recv => exact .pure rfl
  case ticks => exact (stays_sys _).bind fun _ _ => hnext _ rfl
  case print =>
    exact (stays_get r).bind fun _ _ => (stays_sys _).bind fun _ _ => .pure rfl
  case ret => exact (stays_get r).bind fun _ _ => .pure ⟨r, rfl⟩
  case exitAtom =>
    exact (stays_get r).bind fun _ _ => (stays_sys _).bind fun _ _ => stays_trap _
  case sleepMs =>
    exact (stays_int r).bind fun _ _ => stays_unless _ <|
      (stays_sys _).bind fun _ _ => .pure ⟨r, rfl⟩

private theorem stays_reg2 (o : Reg2Op) (a b : UInt8) :
    Stays (reg2 api limit o a b) (· = .next) := by
  cases o <;> dsimp only [reg2] <;>
    with_reducible repeat' first
      | exact stays_setNext a _
      | exact stays_alloc api limit a _
      | exact .pure rfl
      | refine (stays_get _).bind fun _ _ => ?_
      | refine (stays_int b).bind fun _ _ => ?_
      | refine (stays_expectKind api _ _).bind fun _ _ => ?_
      | refine (stays_peek api _).bind fun _ _ => ?_
      | refine (stays_sys _).bind fun _ _ => ?_

private theorem stays_reg3 (o : Reg3Op) (rd ra rb : UInt8) :
    Stays (reg3 api limit o rd ra rb) (· = .next) := by
  cases o <;> dsimp only [reg3] <;>
    with_reducible repeat' first
      | exact stays_setNext rd _
      | exact stays_alloc api limit rd _
      | exact stays_arith rd ra rb _
      | exact stays_shift rd ra rb _
      | refine (stays_get _).bind fun _ _ => ?_
      | refine (stays_int _).bind fun _ _ => ?_
      | refine (stays_expectBoxed api _ _).bind fun _ _ => ?_
      | refine (stays_peek api _).bind fun _ _ => ?_
      | refine (stays_sys _).bind fun _ _ => ?_
      | refine stays_unless _ ?_

private theorem stays_reg4 (o : Reg4Op) (rd ra rb rc : UInt8) :
    Stays (reg4 api limit o rd ra rb rc) (· = .next) := by
  cases o <;> dsimp only [reg4] <;>
    with_reducible repeat' first
      | exact stays_setNext rd _
      | exact stays_alloc api limit rd _
      | refine (stays_get _).bind fun _ _ => ?_
      | refine (stays_int _).bind fun _ _ => ?_
      | refine (stays_expectBoxed api _ _).bind fun _ _ => ?_
      | refine (stays_peek api _).bind fun _ _ => ?_
      | refine (stays_sys _).bind fun _ _ => ?_
      | refine stays_unless _ ?_

private theorem stays_getElem (rd rs idx : UInt8) :
    Stays (getElem api rd rs idx) (· = .next) := by
  refine (stays_get rs).bind fun _ _ => (stays_expectKind api _ _).bind fun _ _ => ?_
  exact (stays_peek api _).bind fun _ _ => stays_unless _ <|
    (stays_peek api _).bind fun _ _ => stays_setNext rd _

private theorem stays_spawn (rd : UInt8) (callee : UInt32) (ra : UInt8) :
    Stays (spawn api rd callee ra) (· = .next) :=
  (stays_get ra).bind fun _ _ => stays_unless _ <|
    (stays_sys _).bind fun _ _ => stays_setNext rd _

/-- An instruction other than a jump leaves the frame in place. -/
theorem stays_exec {i : Insn} (hjump : i.offset = none) :
    Stays (exec api limit i) i.Leaves := by
  have hnext : ∀ {x : Exec σ Flow}, i.fallsThrough = true → Stays x (· = .next) →
      Stays x i.Leaves := fun hi hx => hx.mono fun _ ha => ha ▸ hi
  cases i
  case nop => exact .pure rfl
  case loadInt => exact hnext rfl (stays_setNext _ _)
  case loadAtom => exact (stays_sys _).bind fun _ _ => hnext rfl (stays_setNext _ _)
  case reg1 o r => exact stays_reg1 api o r
  case reg2 => exact hnext rfl (stays_reg2 api limit _ _ _)
  case reg3 => exact hnext rfl (stays_reg3 api limit _ _ _ _)
  case reg4 => exact hnext rfl (stays_reg4 api limit _ _ _ _ _)
  case makeTuple => exact (stays_gets _).bind fun _ _ => hnext rfl (stays_alloc api limit _ _)
  case getElem => exact hnext rfl (stays_getElem api _ _ _)
  case jmp => cases hjump
  case jmpIf => cases hjump
  case call rd callee rs =>
    exact (stays_gets rs).bind fun _ hvs => (stays_sys _).bind fun _ _ => .pure ⟨rs, rfl, hvs⟩
  case spawn => exact hnext rfl (stays_spawn api _ _ _)
  case portOpen => exact (stays_sys _).bind fun _ _ => hnext rfl (stays_setNext _ _)
  case portSubmit =>
    exact (stays_get _).bind fun _ _ => (stays_get _).bind fun _ _ => (stays_get _).bind
      fun _ _ => (stays_sys _).bind fun _ _ => .pure rfl
  case callExt rd mod fname rs =>
    exact (stays_gets rs).bind fun _ hvs => (stays_sys _).bind fun _ _ => (stays_sys _).bind
      fun _ _ => (stays_sys _).bind fun _ _ => .pure ⟨mod, fname, rs, rfl, hvs⟩
  case binNew => exact hnext rfl (stays_alloc api limit _ _)
  case mapNew =>
    exact (stays_getPairs _).bind fun _ _ => (stays_sys _).bind fun _ _ =>
      hnext rfl (stays_setNext _ _)
  case tailCallExt mod fname rs =>
    exact (stays_gets rs).bind fun _ hvs => (stays_sys _).bind fun _ _ => (stays_sys _).bind
      fun _ _ => (stays_sys _).bind fun _ _ => .pure ⟨mod, fname, rs, rfl, hvs⟩
  case portSubmit2 =>
    exact (stays_get _).bind fun _ _ => (stays_get _).bind fun _ _ => (stays_get _).bind
      fun _ _ => (stays_get _).bind fun _ _ => (stays_get _).bind fun _ _ =>
        (stays_sys _).bind fun _ _ => .pure rfl
  case tailCall callee rs =>
    exact (stays_gets rs).bind fun _ hvs => (stays_sys _).bind fun _ _ => .pure ⟨rs, rfl, hvs⟩

end

end Exec

namespace Interp

variable {σ : Type} {m : Module} {api : SystemApi σ} {limit idx : ℕ} {f : Function}
  {st : ScanState} {fr : Frame}

/-- One instruction of verified code keeps to the code, and leaves to be done what it says. -/
theorem AtStart.moves (hm : verify m = .ok ()) (h : AtStart m idx f st fr) (s : σ) :
    EStateM.Ends (fun _ _ => True) (fun p _ => FlowOk m idx f st p.1 p.2 ∧
      ∃ i next, decodeAt f.code fr.pc = some (i, next) ∧ (i.Leaves p.1 ∨ p.1 = .next))
      (Exec.body api limit fr) s := by
  obtain ⟨i, next, hstart⟩ := (h.verified hm).start_ok fr.pc h.pc_mem
  rw [Exec.body_eq_exec api limit (h.code ▸ hstart.decodes)]
  cases hoff : i.offset with
  | none =>
    refine (Exec.stays_exec api limit hoff { fr with pc := next } s).mono (fun _ _ => id) ?_
    rintro ⟨flow, fr'⟩ _ ⟨hleaves, hcode, hpc, hregs⟩
    exact ⟨flowOk_of_fits h hstart hleaves.fits hcode hpc (hregs.trans h.regs),
      i, next, hstart.decodes, .inl hleaves⟩
  | some off =>
    refine (h.exec_jump hm hstart hoff s).mono (fun _ _ _ => trivial) ?_
    rintro ⟨flow, fr'⟩ _ ⟨hflow, hnext⟩
    cases hflow
    exact ⟨hnext, i, next, hstart.decodes, .inr rfl⟩

end Interp

end Yggdrasil
