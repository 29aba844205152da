import Yggdrasil.Jit.Cfg

/-!
# Translated instructions keep the blocks in order

On a well-formed instruction the translation never gives up: its registers, atoms and callees
are in range, and its targets are leaders. What it inserts keeps the blocks in order, and closes
the block exactly when the instruction ends one. A branch of the bytecode becomes a branch to
the block of its target.
-/

namespace Yggdrasil

namespace Jit

variable {ctx : Context}

section Pieces

/-- A constant is one more value of the open block. -/
theorem inserts_iconst (w : Word) : Inserts ctx false (Tx.iconst w) fun _ _ => True :=
  inserts_ins fun _ => rfl

/-- An operation on one value. -/
theorem inserts_unary (o : Unary) (a : Value) :
    Inserts ctx false (Tx.unary o a) fun _ _ => True :=
  inserts_ins fun _ => rfl

/-- An operation on two values. -/
theorem inserts_binary (o : Binary) (a b : Value) :
    Inserts ctx false (Tx.binary o a b) fun _ _ => True :=
  inserts_ins fun _ => rfl

/-- A call of a helper stays in the open block. -/
theorem inserts_callHelper (h : Helper) (args : List Value) :
    Inserts ctx false (Tx.callHelper h args) fun o _ => o.isSome = h.hasRet := by
  unfold Tx.callHelper
  split
  · rename_i hret
    refine (inserts_ins fun _ => rfl).bind fun v _ _ => .pure ?_
    rw [hret]
    rfl
  · rename_i hret
    refine (inserts_push rfl).bind fun _ _ _ => .pure ?_
    simpa using hret

/-- A call of a helper for its effect. -/
theorem inserts_callVoid (h : Helper) (args : List Value) :
    Inserts ctx false (Tx.callVoid h args) fun _ _ => True :=
  (inserts_callHelper h args).bind fun _ _ _ => .pure trivial

/-- The result of a helper that has one. -/
theorem inserts_result {h : Helper} (hret : h.hasRet = true) (args : List Value) :
    Inserts ctx false (do Tx.unwrap (← Tx.callHelper h args)) fun _ _ => True := by
  refine (inserts_callHelper h args).bind fun o _ ho => ?_
  rw [hret] at ho
  obtain ⟨v, rfl⟩ := Option.isSome_iff_exists.mp ho
  exact .pure trivial

/-- Reading a register stays in the open block. -/
theorem inserts_useVar {r : UInt8} (hr : r < ctx.fn.nregs) :
    Inserts ctx false (Tx.useVar ctx r) fun _ _ => True := by
  rw [Tx.useVar, if_pos hr]
  exact inserts_ins fun _ => rfl

/-- A register is written. -/
theorem inserts_defVar {r : UInt8} (hr : r < ctx.fn.nregs) (v : Value) :
    Inserts ctx false (Tx.defVar ctx r v) fun _ _ => True := by
  rw [Tx.defVar, if_pos hr]
  exact inserts_push rfl

/-- Reading registers stays in the open block. -/
theorem inserts_useVars {rs : List UInt8} (hrs : ∀ r ∈ rs, r < ctx.fn.nregs) :
    Inserts ctx false (Tx.useVars ctx rs) fun _ _ => True := by
  induction rs with
  | nil => exact .pure trivial
  | cons r rs ih =>
    obtain ⟨hr, hrs⟩ := List.forall_mem_cons.mp hrs
    exact (inserts_useVar hr).bind fun _ _ _ => (ih hrs).bind fun _ _ _ => .pure trivial

/-- Pairs of registers are read. -/
theorem inserts_usePairs {ps : List (UInt8 × UInt8)}
    (hps : ∀ kv ∈ ps, kv.1 < ctx.fn.nregs ∧ kv.2 < ctx.fn.nregs) :
    Inserts ctx false (Tx.usePairs ctx ps) fun _ _ => True := by
  induction ps with
  | nil => exact .pure trivial
  | cons kv ps ih =>
    obtain ⟨⟨hk, hv⟩, hps⟩ := List.forall_mem_cons.mp hps
    exact (inserts_useVar hk).bind fun _ _ _ => (inserts_useVar hv).bind fun _ _ _ =>
      (ih hps).bind fun _ _ _ => .pure trivial

private theorem fresh_one {n : ℕ} {blk : Block} :
    blk = .fresh n ↔ ∃ k, n ≤ k ∧ k < n + 1 ∧ blk = .fresh k := by
  constructor
  · rintro rfl
    exact ⟨n, le_rfl, Nat.lt_succ_self n, rfl⟩
  · rintro ⟨k, hle, hlt, rfl⟩
    rw [show k = n by omega]

private theorem fresh_two {n : ℕ} {blk : Block} :
    blk = .fresh n ∨ blk = .fresh (n + 1) ↔ ∃ k, n ≤ k ∧ k < n + 1 + 1 ∧ blk = .fresh k := by
  constructor
  · rintro (rfl | rfl)
    · exact ⟨n, le_rfl, by omega, rfl⟩
    · exact ⟨n + 1, by omega, by omega, rfl⟩
  · rintro ⟨k, hle, hlt, rfl⟩
    obtain rfl | rfl : k = n ∨ k = n + 1 := by omega
    · exact .inl rfl
    · exact .inr rfl

/-- A block for the case that a condition holds. -/
theorem inserts_orTrap (c : Value) : Inserts ctx false (Tx.orTrap c) fun _ _ => True := by
  intro b
  refine ⟨(), _, [.brif c (.fresh b.nextBlock) .trap, .label (.fresh b.nextBlock)], rfl, ?_,
    trivial⟩
  refine ⟨rfl, rfl, rfl, (Bool.or_false _).symm, List.append_assoc .., rfl, Nat.le_succ _,
    List.nodup_singleton _, fun blk => List.mem_singleton.trans fresh_one, ?_⟩
  simp [Item.targets, Created]

/-- The block that returns the sentinel, and the one in which the call goes on. -/
theorem inserts_unwind (isTail : Value) : Inserts ctx false (Tx.unwind isTail) fun _ _ => True := by
  intro b
  refine ⟨(), _, [.brif isTail (.fresh (b.nextBlock + 1)) (.fresh b.nextBlock),
    .label (.fresh (b.nextBlock + 1)), .iconst b.nextValue tailSentinel.word, .ret b.nextValue,
    .label (.fresh b.nextBlock)], rfl, ?_, trivial⟩
  refine ⟨rfl, rfl, rfl, (Bool.or_false _).symm, by simp, rfl, Nat.le_add_right b.nextBlock 2,
    ?_, fun blk => ?_, ?_⟩
  · change [Block.fresh (b.nextBlock + 1), .fresh b.nextBlock].Nodup
    simp
  · change blk ∈ [Block.fresh (b.nextBlock + 1), .fresh b.nextBlock] ↔ _
    rw [List.mem_pair, or_comm]
    exact fresh_two
  · have hlt : b.nextBlock < b.nextBlock + 2 := by omega
    refine List.forall_mem_cons.mpr ⟨?_, by simp [Item.targets]⟩
    exact List.forall_mem_cons.mpr ⟨Nat.lt_succ_self _, List.forall_mem_singleton.mpr hlt⟩

/-- The block that resumes the callee, and the one in which the call goes on. -/
theorem inserts_resume {rd : UInt8} (hrd : rd < ctx.fn.nregs) (isSent : Value) (token : ℕ) :
    Inserts ctx false (Tx.resume ctx rd isSent token) fun _ _ => True := by
  intro b
  have hdef : Tx.defVar ctx rd = fun v => Tx.push (.defVar rd.toNat v) := by
    funext v
    rw [Tx.defVar, if_pos hrd]
  let new : List Item := [.brif isSent (.fresh b.nextBlock) (.fresh (b.nextBlock + 1)),
    .label (.fresh b.nextBlock), .token b.nextValue token,
    .call (some (b.nextValue + 1)) (.helper .resumeTail) [b.nextValue],
    .defVar rd.toNat (b.nextValue + 1), .jump (.fresh (b.nextBlock + 1)),
    .label (.fresh (b.nextBlock + 1))]
  have hrun : Tx.resume ctx rd isSent token b = .ok ((), { b with
      nextValue := b.nextValue + 2
      nextBlock := b.nextBlock + 2
      items := b.items ++ new }) := by
    have hitems : b.items ++ new = new.foldl (fun l i => l ++ [i]) b.items := by simp [new]
    rw [hitems, Tx.resume, hdef]
    rfl
  refine ⟨(), _, new, hrun, ?_, trivial⟩
  refine ⟨rfl, rfl, rfl, (Bool.or_false _).symm, rfl, rfl, Nat.le_add_right b.nextBlock 2,
    ?_, fun blk => ?_, ?_⟩
  · change [Block.fresh b.nextBlock, .fresh (b.nextBlock + 1)].Nodup
    simp
  · change blk ∈ [Block.fresh b.nextBlock, .fresh (b.nextBlock + 1)] ↔ _
    rw [List.mem_pair]
    exact fresh_two
  · simp [new, Item.targets, Created]

/-- An integer is expected. -/
theorem inserts_expectInt (v : Value) : Inserts ctx false (Tx.expectInt v) fun _ _ => True :=
  (inserts_unary _ _).bind fun _ _ _ => (inserts_unary _ _).bind fun _ _ _ =>
    (inserts_orTrap _).bind fun _ _ _ => inserts_unary _ _

/-- A word becomes an integer. -/
theorem inserts_retagInt (raw : Value) : Inserts ctx false (Tx.retagInt raw) fun _ _ => True :=
  (inserts_unary _ _).bind fun _ _ _ => inserts_unary _ _

private theorem inserts_stores (slot i : ℕ) (vals : List Value) :
    Inserts ctx false (Tx.stores slot i vals) fun _ _ => True := by
  induction vals generalizing i with
  | nil => exact .pure trivial
  | cons v vals ih => exact (inserts_push rfl).bind fun _ _ _ => ih (i + 1)

/-- Values are spilled to a new stack slot. -/
theorem inserts_spill (vals : List Value) : Inserts ctx false (Tx.spill vals) fun _ _ => True := by
  have hslot : Inserts ctx false Tx.createSlot fun _ _ => True := by
    intro b
    have hrefl : Inserted ctx false b b [] := .refl b
    exact ⟨b.nextSlot, { b with nextSlot := b.nextSlot + 1 }, [], rfl,
      ⟨rfl, rfl, rfl, hrefl.filled, hrefl.items, rfl, le_rfl, hrefl.nodup, hrefl.labels,
        hrefl.targets⟩, trivial⟩
  exact hslot.bind fun _ _ _ => (inserts_stores _ _ _).bind fun _ _ _ => inserts_ins fun _ => rfl

/-- A register gets the result of a helper. -/
theorem inserts_helperTo {rd : UInt8} (hrd : rd < ctx.fn.nregs) {h : Helper}
    (hret : h.hasRet = true) (args : List Value) :
    Inserts ctx false (Tx.helperTo ctx rd h args) fun _ _ => True := by
  have hresult : Inserts ctx false (do
      let v ← (do Tx.unwrap (← Tx.callHelper h args))
      Tx.defVar ctx rd v) fun _ _ => True :=
    (inserts_result hret args).bind fun v _ _ => inserts_defVar hrd v
  simpa only [Tx.helperTo, bind_assoc] using hresult

/-- A register gets a constant. -/
theorem inserts_constTo {rd : UInt8} (hrd : rd < ctx.fn.nregs) (w : Word) :
    Inserts ctx false (Tx.constTo ctx rd w) fun _ _ => True :=
  (inserts_iconst w).bind fun _ _ _ => inserts_defVar hrd _

/-- A register gets the result of a helper on spilled values. -/
theorem inserts_spillTo {rd : UInt8} (hrd : rd < ctx.fn.nregs) {h : Helper}
    (hret : h.hasRet = true) (vals : List Value) (n : ℕ) :
    Inserts ctx false (Tx.spillTo ctx rd h vals n) fun _ _ => True :=
  (inserts_spill vals).bind fun _ _ _ => (inserts_iconst _).bind fun _ _ _ =>
    inserts_helperTo hrd hret _

/-- A global atom index is looked up without an item. -/
theorem inserts_globalAtom {a : UInt32} (ha : a.toNat < ctx.atomMap.length) :
    Inserts ctx false (Tx.globalAtom ctx a) fun _ _ => True := by
  rw [Tx.globalAtom, List.getElem?_eq_getElem ha]
  exact .pure trivial

/-- An atom is a constant of the open block. -/
theorem inserts_atomConst {a : UInt32} (ha : a.toNat < ctx.atomMap.length) :
    Inserts ctx false (Tx.atomConst ctx a) fun _ _ => True :=
  (inserts_globalAtom ha).bind fun _ _ _ => inserts_iconst _

/-- The block of a leader. -/
theorem inserts_leaderBlock {pos : ℕ} (hpos : pos ∈ ctx.leaders) :
    Inserts ctx false (Tx.leaderBlock ctx pos) fun blk _ => blk = .leader pos := by
  rw [Tx.leaderBlock, if_pos hpos]
  exact .pure rfl

end Pieces

section Instructions

/-- Instructions with one register operand. -/
theorem inserts_reg1 (o : Reg1Op) {r : UInt8} (hr : r < ctx.fn.nregs) :
    Inserts ctx (Insn.endsBlock (.reg1 o r)) (Tx.reg1 ctx o r) fun _ _ => True := by
  have hend : ∀ {i : Item}, i.label? = none → i.isTerminator = true → i.targets = [] →
      Inserts ctx true (do Tx.push i; Tx.fill) fun _ _ => True := fun hlabel hterm htargets =>
    (inserts_end hlabel hterm (by simp [htargets])).mono fun _ _ _ => trivial
  cases o
  case loadNil => exact inserts_constTo hr _
  case selfPid => exact inserts_helperTo hr rfl _
  case ticks => exact inserts_helperTo hr rfl _
  case recv => exact inserts_helperTo hr rfl _
  case print => exact (inserts_useVar hr).bind fun _ _ _ => inserts_callVoid _ _
  case ret => exact (inserts_useVar hr).bind fun _ _ _ => hend rfl rfl rfl
  case exitAtom =>
    exact (inserts_useVar hr).bind fun _ _ _ => (inserts_callVoid _ _).bind fun _ _ _ =>
      hend rfl rfl rfl
  case sleepMs =>
    exact (inserts_useVar hr).bind fun _ _ _ => (inserts_callVoid _ _).bind fun _ _ _ =>
      inserts_callVoid _ _

private theorem inserts_helper1 {h : Helper} (hret : h.hasRet = true) {rd rs : UInt8}
    (hd : rd < ctx.fn.nregs) (hs : rs < ctx.fn.nregs) :
    Inserts ctx false (Tx.helper1 ctx h rd rs) fun _ _ => True :=
  (inserts_useVar hs).bind fun _ _ _ => inserts_helperTo hd hret _

private theorem inserts_retagTo {rd : UInt8} (hd : rd < ctx.fn.nregs) (raw : Value) :
    Inserts ctx false (do Tx.defVar ctx rd (← Tx.retagInt raw)) fun _ _ => True :=
  (inserts_retagInt raw).bind fun _ _ _ => inserts_defVar hd _

/-- Instructions with two register operands. -/
theorem inserts_reg2 (o : Reg2Op) {a b : UInt8} (ha : a < ctx.fn.nregs) (hb : b < ctx.fn.nregs) :
    Inserts ctx false (Tx.reg2 ctx o a b) fun _ _ => True := by
  cases o
  case move => exact (inserts_useVar hb).bind fun _ _ _ => inserts_defVar ha _
  case send =>
    exact (inserts_useVar ha).bind fun _ _ _ => (inserts_useVar hb).bind fun _ _ _ =>
      inserts_callVoid _ _
  case bnot =>
    exact (inserts_useVar hb).bind fun _ _ _ => (inserts_expectInt _).bind fun _ _ _ =>
      (inserts_unary _ _).bind fun _ _ _ => inserts_retagTo ha _
  case isBinary =>
    refine (inserts_useVar hb).bind fun v _ _ => ?_
    have hresult : Inserts ctx false (do
        let raw ← (do Tx.unwrap (← Tx.callHelper .isBinary [v]))
        Tx.defVar ctx a (← Tx.retagInt raw)) fun _ _ => True :=
      (inserts_result rfl [v]).bind fun raw _ _ => inserts_retagTo ha raw
    simpa only [bind_assoc] using hresult
  all_goals exact inserts_helper1 rfl ha hb

private theorem inserts_ints {ra rb : UInt8} (ha : ra < ctx.fn.nregs) (hb : rb < ctx.fn.nregs)
    {g : Value → Value → Tx Unit}
    (hg : ∀ ua ub, Inserts ctx false (g ua ub) fun _ _ => True) :
    Inserts ctx false (do
      let a ← Tx.useVar ctx ra
      let b ← Tx.useVar ctx rb
      let ua ← Tx.expectInt a
      let ub ← Tx.expectInt b
      g ua ub) fun _ _ => True :=
  (inserts_useVar ha).bind fun _ _ _ => (inserts_useVar hb).bind fun _ _ _ =>
    (inserts_expectInt _).bind fun _ _ _ => (inserts_expectInt _).bind fun _ _ _ => hg _ _

private theorem inserts_arith (o : Binary) {rd ra rb : UInt8} (hd : rd < ctx.fn.nregs)
    (ha : ra < ctx.fn.nregs) (hb : rb < ctx.fn.nregs) :
    Inserts ctx false (Tx.arith ctx o rd ra rb) fun _ _ => True :=
  inserts_ints ha hb fun _ _ => (inserts_binary _ _ _).bind fun _ _ _ => inserts_retagTo hd _

private theorem inserts_shift (o : Binary) {rd ra rb : UInt8} (hd : rd < ctx.fn.nregs)
    (ha : ra < ctx.fn.nregs) (hb : rb < ctx.fn.nregs) :
    Inserts ctx false (Tx.shift ctx o rd ra rb) fun _ _ => True :=
  inserts_ints ha hb fun _ _ => (inserts_unary _ _).bind fun _ _ _ =>
    (inserts_orTrap _).bind fun _ _ _ => (inserts_binary _ _ _).bind fun _ _ _ =>
      inserts_retagTo hd _

private theorem inserts_helper2 {h : Helper} (hret : h.hasRet = true) {rd ra rb : UInt8}
    (hd : rd < ctx.fn.nregs) (ha : ra < ctx.fn.nregs) (hb : rb < ctx.fn.nregs) :
    Inserts ctx false (Tx.helper2 ctx h rd ra rb) fun _ _ => True :=
  (inserts_useVar ha).bind fun _ _ _ => (inserts_useVar hb).bind fun _ _ _ =>
    inserts_helperTo hd hret _

/-- Instructions with three register operands. -/
theorem inserts_reg3 (o : Reg3Op) {rd ra rb : UInt8} (hd : rd < ctx.fn.nregs)
    (ha : ra < ctx.fn.nregs) (hb : rb < ctx.fn.nregs) :
    Inserts ctx false (Tx.reg3 ctx o rd ra rb) fun _ _ => True := by
  cases o
  case add | sub | mul | band | bor | bxor => exact inserts_arith _ hd ha hb
  case bsl | bsr => exact inserts_shift _ hd ha hb
  case cmpEq =>
    refine (inserts_useVar ha).bind fun a _ _ => (inserts_useVar hb).bind fun b _ _ => ?_
    have hresult : Inserts ctx false (do
        let raw ← (do Tx.unwrap (← Tx.callHelper .eq [a, b]))
        Tx.defVar ctx rd (← Tx.retagInt raw)) fun _ _ => True :=
      (inserts_result rfl [a, b]).bind fun raw _ _ => inserts_retagTo hd raw
    simpa only [bind_assoc] using hresult
  case cmpLt =>
    exact inserts_ints ha hb fun _ _ => (inserts_binary _ _ _).bind fun _ _ _ =>
      (inserts_unary _ _).bind fun _ _ _ => inserts_retagTo hd _
  all_goals exact inserts_helper2 rfl hd ha hb

/-- Instructions with four register operands. -/
theorem inserts_reg4 (o : Reg4Op) {rd ra rb rc : UInt8} (hd : rd < ctx.fn.nregs)
    (ha : ra < ctx.fn.nregs) (hb : rb < ctx.fn.nregs) (hc : rc < ctx.fn.nregs) :
    Inserts ctx false (Tx.reg4 ctx o rd ra rb rc) fun _ _ => True := by
  have hhelper : ∀ {h : Helper}, h.hasRet = true →
      Inserts ctx false (Tx.helper3 ctx h rd ra rb rc) fun _ _ => True := fun hret =>
    (inserts_useVar ha).bind fun _ _ _ => (inserts_useVar hb).bind fun _ _ _ =>
      (inserts_useVar hc).bind fun _ _ _ => inserts_helperTo hd hret _
  cases o <;> exact hhelper rfl

/-- The instructions end with `i`. -/
def EndsWith (i : Item) (new : List Item) : Prop := ∃ init, new = init ++ [i]

private theorem EndsWith.prepend {i : Item} {new : List Item} (h : EndsWith i new)
    (before : List Item) : EndsWith i (before ++ new) := by
  obtain ⟨init, rfl⟩ := h
  exact ⟨before ++ init, (List.append_assoc _ _ _).symm⟩

private theorem endsWith_self (i : Item) : EndsWith i [i] := ⟨[], rfl⟩

/-- A jump goes to the block of its target. -/
theorem inserts_jmp {pos : ℕ} {off : ℤ} (htarget : jumpTarget pos off ∈ ctx.leaders) :
    Inserts ctx true (Tx.jmp ctx pos off)
      fun _ new => EndsWith (.jump (.leader (jumpTarget pos off))) new := by
  have hrest : Inserts ctx true (do
      let blk ← Tx.leaderBlock ctx (jumpTarget pos off)
      Tx.push (.jump blk)
      Tx.fill) fun _ new => EndsWith (.jump (.leader (jumpTarget pos off))) new := by
    refine (inserts_leaderBlock htarget).bind fun blk new hblk => ?_
    subst hblk
    refine (inserts_end rfl rfl (by simpa [Item.targets, Created] using htarget)).mono ?_
    rintro _ _ rfl
    exact (endsWith_self _).prepend new
  unfold Tx.jmp
  split
  · exact (inserts_callVoid _ _).bind fun _ new _ => hrest.mono fun _ _ h => h.prepend new
  · exact hrest

/-- A branch goes to the block of its target, or to that of the next instruction. -/
theorem inserts_jmpIf {pos : ℕ} {rc : UInt8} {off : ℤ} (hrc : rc < ctx.fn.nregs)
    (htarget : jumpTarget pos off ∈ ctx.leaders) (hnext : pos ∈ ctx.leaders) :
    Inserts ctx true (Tx.jmpIf ctx pos rc off) fun _ new =>
      ∃ c, EndsWith (.brif c (.leader (jumpTarget pos off)) (.leader pos)) new := by
  have hrest : ∀ raw, Inserts ctx true (do
      let cond ← Tx.unary (.icmpImm .notEqual 0) raw
      let tblk ← Tx.leaderBlock ctx (jumpTarget pos off)
      let fblk ← Tx.leaderBlock ctx pos
      Tx.push (.brif cond tblk fblk)
      Tx.fill) fun _ new =>
        ∃ c, EndsWith (.brif c (.leader (jumpTarget pos off)) (.leader pos)) new := by
    intro raw
    refine (inserts_unary _ _).bind fun cond n₁ _ => ?_
    refine (inserts_leaderBlock htarget).bind fun tblk n₂ htblk => ?_
    refine (inserts_leaderBlock hnext).bind fun fblk n₃ hfblk => ?_
    subst htblk hfblk
    refine (inserts_end rfl rfl ?_).mono ?_
    · simpa [Item.targets, Created] using ⟨htarget, hnext⟩
    · rintro _ _ rfl
      exact ⟨cond, (((endsWith_self _).prepend n₃).prepend n₂).prepend n₁⟩
  refine (inserts_useVar hrc).bind fun v n₁ _ => (inserts_expectInt v).bind fun raw n₂ _ => ?_
  have hback : ∀ {new : List Item},
      (∃ c, EndsWith (.brif c (.leader (jumpTarget pos off)) (.leader pos)) new) →
      ∀ before, ∃ c, EndsWith (.brif c (.leader (jumpTarget pos off)) (.leader pos))
        (before ++ new) := fun ⟨c, h⟩ before => ⟨c, h.prepend before⟩
  split
  · refine (inserts_callVoid _ _).bind fun _ n₃ _ => (hrest raw).mono fun _ _ h => ?_
    exact hback (hback (hback h n₃) n₂) n₁
  · exact (hrest raw).mono fun _ _ h => hback (hback h n₂) n₁

/-- A call of a function of the module. -/
theorem inserts_call {rd : UInt8} (hrd : rd < ctx.fn.nregs) {callee : UInt32}
    (hcallee : callee.toNat < ctx.module.functions.length) (args : List Value) :
    Inserts ctx false (Tx.call ctx rd callee args) fun _ _ => True := by
  have hsome : ¬ctx.module.functions[callee.toNat]?.isNone = true := by
    rw [List.getElem?_eq_getElem hcallee]
    simp
  unfold Tx.call
  simp only [if_neg hsome]
  exact (inserts_callVoid _ _).bind fun _ _ _ => (inserts_ins fun _ => rfl).bind fun _ _ _ =>
    (inserts_unary _ _).bind fun _ _ _ => (inserts_unwind _).bind fun _ _ _ =>
      inserts_defVar hrd _

/-- A call of another module. -/
theorem inserts_callExt {rd : UInt8} (hrd : rd < ctx.fn.nregs) {mod fname : UInt32}
    (hmod : mod.toNat < ctx.atomMap.length) (hfname : fname.toNat < ctx.atomMap.length)
    (args : List Value) : Inserts ctx false (Tx.callExt ctx rd mod fname args) fun _ _ => True := by
  refine (inserts_globalAtom hmod).bind fun gm _ _ => (inserts_globalAtom hfname).bind
    fun gf _ _ => ?_
  split
  · rename_i t _
    refine (inserts_ins fun _ => rfl).bind fun v _ _ => (inserts_defVar hrd v).bind fun _ _ _ => ?_
    split
    · exact (inserts_unary _ _).bind fun _ _ _ => inserts_resume hrd _ _
    · exact .pure trivial
  · exact (inserts_atomConst hmod).bind fun _ _ _ => (inserts_atomConst hfname).bind fun _ _ _ =>
      (inserts_spill _).bind fun _ _ _ => (inserts_iconst _).bind fun _ _ _ =>
        (inserts_callVoid _ _).bind fun _ _ _ => inserts_helperTo hrd rfl _

private theorem inserts_tailReturn : Inserts ctx true Tx.tailReturn fun _ _ => True :=
  (inserts_iconst _).bind fun _ _ _ => (inserts_end rfl rfl (by simp [Item.targets])).mono
    fun _ _ _ => trivial

/-- A tail call of another module. -/
theorem inserts_tailCallExt {mod fname : UInt32} (hmod : mod.toNat < ctx.atomMap.length)
    (hfname : fname.toNat < ctx.atomMap.length) (args : List Value) :
    Inserts ctx true (Tx.tailCallExt ctx mod fname args) fun _ _ => True :=
  (inserts_atomConst hmod).bind fun _ _ _ => (inserts_atomConst hfname).bind fun _ _ _ =>
    (inserts_spill _).bind fun _ _ _ => (inserts_iconst _).bind fun _ _ _ =>
      (inserts_callVoid _ _).bind fun _ _ _ => (inserts_callVoid _ _).bind fun _ _ _ =>
        inserts_tailReturn

/-- A tail call of a function of the module. -/
theorem inserts_tailCall (callee : UInt32) (args : List Value) :
    Inserts ctx true (Tx.tailCall callee args) fun _ _ => True :=
  (inserts_iconst _).bind fun _ _ _ => (inserts_spill _).bind fun _ _ _ =>
    (inserts_iconst _).bind fun _ _ _ => (inserts_callVoid _ _).bind fun _ _ _ =>
      (inserts_callVoid _ _).bind fun _ _ _ => inserts_tailReturn

/-- Where the branch of an instruction goes; `next` is the position after it. -/
def Branches (i : Insn) (next : ℕ) (new : List Item) : Prop :=
  (∀ off, i = .jmp off → EndsWith (.jump (.leader (jumpTarget next off))) new) ∧
    ∀ rc off, i = .jmpIf rc off →
      ∃ c, EndsWith (.brif c (.leader (jumpTarget next off)) (.leader next)) new

/-- A well-formed instruction is translated, and keeps the blocks in order. -/
theorem inserts_emit {i : Insn} {next : ℕ} (hi : i.WellFormed ctx.module ctx.fn)
    (hmap : ctx.module.atoms.length ≤ ctx.atomMap.length)
    (htarget : ∀ off, i.offset = some off → jumpTarget next off ∈ ctx.leaders)
    (hnext : i.offset.isSome → i.fallsThrough = true → next ∈ ctx.leaders) :
    Inserts ctx i.endsBlock (Tx.emit ctx i next) fun _ new => Branches i next new := by
  have hother : ∀ {fills : Bool} {x : Tx Unit}, i.offset = none →
      Inserts ctx fills x (fun _ _ => True) →
        Inserts ctx fills x fun _ new => Branches i next new := by
    intro fills x hoff hx
    refine hx.mono fun _ new _ => ⟨?_, ?_⟩
    · rintro off rfl
      cases hoff
    · rintro rc off rfl
      cases hoff
  have hregs := hi.regs_lt
  have hatoms : ∀ a ∈ i.atoms, a.toNat < ctx.atomMap.length := fun a ha =>
    Nat.lt_of_lt_of_le (hi.atoms_lt a ha) hmap
  cases i <;> simp only [Insn.regs, Insn.atoms, List.forall_mem_cons] at hregs hatoms
  case nop => exact hother rfl (.pure trivial)
  case loadInt => exact hother rfl (inserts_constTo hregs.1 _)
  case loadAtom =>
    exact hother rfl ((inserts_atomConst hatoms.1).bind fun _ _ _ => inserts_defVar hregs.1 _)
  case reg1 o r => exact hother rfl (inserts_reg1 o hregs.1)
  case reg2 o a b => exact hother rfl (inserts_reg2 o hregs.1 hregs.2.1)
  case reg3 o a b c => exact hother rfl (inserts_reg3 o hregs.1 hregs.2.1 hregs.2.2.1)
  case reg4 o a b c d =>
    exact hother rfl (inserts_reg4 o hregs.1 hregs.2.1 hregs.2.2.1 hregs.2.2.2.1)
  case makeTuple rd rs =>
    exact hother rfl ((inserts_useVars hregs.2).bind fun _ _ _ => inserts_spillTo hregs.1 rfl _ _)
  case getElem =>
    exact hother rfl ((inserts_useVar hregs.2.1).bind fun _ _ _ =>
      (inserts_iconst _).bind fun _ _ _ => inserts_helperTo hregs.1 rfl _)
  case jmp off =>
    refine (inserts_jmp (htarget off rfl)).mono fun _ new hnew => ⟨?_, by simp⟩
    rintro _ ⟨⟩
    exact hnew
  case jmpIf rc off =>
    refine (inserts_jmpIf hregs.1 (htarget off rfl) (hnext rfl rfl)).mono
      fun _ new hnew => ⟨by simp, ?_⟩
    rintro _ _ ⟨⟩
    exact hnew
  case call rd callee rs =>
    obtain ⟨g, hg, -⟩ := hi.callees_ok (callee, rs.length) (List.mem_singleton_self _)
    exact hother rfl ((inserts_useVars hregs.2).bind fun _ _ _ =>
      inserts_call hregs.1 (List.getElem?_eq_some_iff.mp hg).1 _)
  case spawn =>
    exact hother rfl ((inserts_useVar hregs.2.1).bind fun _ _ _ =>
      (inserts_iconst _).bind fun _ _ _ => inserts_helperTo hregs.1 rfl _)
  case portOpen =>
    exact hother rfl ((inserts_iconst _).bind fun _ _ _ => inserts_helperTo hregs.1 rfl _)
  case portSubmit =>
    exact hother rfl ((inserts_useVar hregs.1).bind fun _ _ _ => (inserts_iconst _).bind
      fun _ _ _ => (inserts_useVar hregs.2.1).bind fun _ _ _ =>
        (inserts_useVar hregs.2.2.1).bind fun _ _ _ => inserts_callVoid _ _)
  case callExt rd mod fname rs =>
    exact hother rfl ((inserts_useVars hregs.2).bind fun _ _ _ =>
      inserts_callExt hregs.1 hatoms.1 hatoms.2.1 _)
  case binNew =>
    exact hother rfl ((inserts_ins fun _ => rfl).bind fun _ _ _ =>
      (inserts_iconst _).bind fun _ _ _ => inserts_helperTo hregs.1 rfl _)
  case mapNew rd pairs =>
    have hpairs : ∀ kv ∈ pairs, kv.1 < ctx.fn.nregs ∧ kv.2 < ctx.fn.nregs := fun kv hkv =>
      ⟨hregs.2 _ (List.mem_flatMap.mpr ⟨kv, hkv, by simp⟩),
        hregs.2 _ (List.mem_flatMap.mpr ⟨kv, hkv, by simp⟩)⟩
    exact hother rfl ((inserts_usePairs hpairs).bind fun _ _ _ => inserts_spillTo hregs.1 rfl _ _)
  case tailCallExt mod fname rs =>
    exact hother rfl ((inserts_useVars hregs).bind fun _ _ _ =>
      inserts_tailCallExt hatoms.1 hatoms.2.1 _)
  case portSubmit2 =>
    exact hother rfl ((inserts_useVar hregs.1).bind fun _ _ _ => (inserts_useVar hregs.2.1).bind
      fun _ _ _ => (inserts_useVar hregs.2.2.1).bind fun _ _ _ =>
        (inserts_useVar hregs.2.2.2.1).bind fun _ _ _ =>
          (inserts_useVar hregs.2.2.2.2.1).bind fun _ _ _ => inserts_callVoid _ _)
  case tailCall callee rs =>
    exact hother rfl ((inserts_useVars hregs).bind fun _ _ _ => inserts_tailCall callee _)

end Instructions

end Jit

end Yggdrasil
