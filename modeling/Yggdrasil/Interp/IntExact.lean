import Yggdrasil.Interp.Safety
import Yggdrasil.Term.Valid

/-!
# Integer instructions and exact results

Small integers have 61 bits, and the instructions check for overflow of 64. A result between
the two ranges passes the check and loses its upper bits when it is tagged.
-/

namespace Yggdrasil

/-- The values of small integers. -/
def IsInt61 (z : ℤ) : Prop := -2 ^ 60 ≤ z ∧ z < 2 ^ 60

/-- The values of machine integers. -/
def IsInt64 (z : ℤ) : Prop := -2 ^ 63 ≤ z ∧ z < 2 ^ 63

private theorem isInt64_toInt (v : Word) : IsInt64 v.toInt := ⟨v.le_toInt, v.toInt_lt⟩

private theorem int_word (v : Word) : (Term.int v).word = v * 8 + 1 := by
  have hdisjoint : v <<< 3 &&& 1 = 0#64 := by
    ext i
    simp only [BitVec.getElem_and, BitVec.getElem_shiftLeft, BitVec.getElem_zero]
    rcases Nat.eq_zero_or_pos i with rfl | hpos
    · rfl
    · simp [Nat.pos_iff_ne_zero.mp hpos]
  have hshift : v <<< 3 = v * 8 := by
    rw [BitVec.shiftLeft_eq_mul_twoPow]
    rfl
  change v <<< 3 ||| 1 = _
  rw [← BitVec.add_eq_or_of_and_eq_zero _ _ hdisjoint, hshift]

/-- A tagged integer is read back as it was exactly if it is small. -/
theorem Term.asInt_int (v : Word) :
    ∃ w, (Term.int v).asInt = some w ∧ (w.toInt = v.toInt ↔ IsInt61 v.toInt) := by
  refine ⟨_, if_pos (Term.tag_shift v tagInt (by decide)), ?_⟩
  have hbounds := isInt64_toInt (Term.int v).word
  have hbmod : (Term.int v).word.toInt = (v.toInt * 8 + 1).bmod (2 ^ 64) := by
    rw [int_word, BitVec.toInt_add, BitVec.toInt_mul]
    exact Int.bmod_add_bmod
  rw [BitVec.toInt_sshiftRight, Int.shiftRight_eq_div_pow]
  unfold IsInt64 at hbounds
  unfold IsInt61
  constructor
  · intro heq
    omega
  · rintro ⟨hle, hlt⟩
    have hsmall : (v.toInt * 8 + 1).bmod (2 ^ 64) = v.toInt * 8 + 1 :=
      Int.bmod_eq_of_le (by omega) (by omega)
    omega

/-- The integer in a register. -/
def intIn (regs : List Term) (r : UInt8) : Option ℤ :=
  (regs[r.toNat]?.bind Term.asInt).map BitVec.toInt

/-- What the integer instructions with three registers compute. -/
def Reg3Op.onInts : Reg3Op → Option (ℤ → ℤ → ℤ)
  | .add => some (· + ·)
  | .sub => some (· - ·)
  | .mul => some (· * ·)
  | _ => none

/-- The register an integer instruction writes, and the exact value of its result: the
immediate, or what it computes of the small integers in its registers. -/
def Insn.exact (regs : List Term) : Insn → Option (UInt8 × ℤ)
  | .loadInt rd v => some (rd, v.toInt)
  | .reg3 o rd ra rb => do
    let op ← o.onInts
    return (rd, op (← intIn regs ra) (← intIn regs rb))
  | _ => none

/-- A checked operation fails exactly if the exact value is no machine integer, and has the
exact value otherwise. -/
structure Checks (r : Option Word) (z : ℤ) : Prop where
  /-- Overflow is found. -/
  none : r = none → ¬ IsInt64 z
  /-- The result is exact. -/
  some : ∀ v, r = some v → v.toInt = z

private theorem checks_of {overflow : Bool} {v : Word} {z : ℤ}
    (hover : overflow = true → ¬ IsInt64 z) (hexact : ¬ overflow = true → v.toInt = z) :
    Checks (if overflow then none else some v) z := by
  by_cases h : overflow = true
  · rw [if_pos h]
    exact ⟨fun _ => hover h, fun _ heq => by cases heq⟩
  · rw [if_neg h]
    refine ⟨fun heq => ?_, fun w hw => ?_⟩
    · cases heq
    · cases hw
      exact hexact h

private theorem not_isInt64 {z : ℤ}
    (h : (decide (z ≥ 2 ^ (64 - 1)) || decide (z < -2 ^ (64 - 1))) = true) : ¬ IsInt64 z := by
  simp only [Bool.or_eq_true, decide_eq_true_eq] at h
  unfold IsInt64
  omega

namespace Exec

variable {σ : Type} {fr : Frame} {s : σ} {rd ra rb : UInt8} {z : ℤ}

/-- An integer instruction writes its exact result as a small integer and goes on, or traps
with `Badarg`. -/
def ExactOrTraps (api : SystemApi σ) (limit : ℕ) (fr : Frame) (s : σ) (next : ℕ) (rd : UInt8)
    (z : ℤ) : Prop :=
  (∃ t w, body api limit fr s =
      .ok (.next, { fr with pc := next, regs := fr.regs.set rd.toNat t }) s ∧
    t.asInt = some w ∧ w.toInt = z) ∨
  body api limit fr s = .error (.trap .badarg) s

private theorem setNext_int (fr : Frame) (hrd : rd.toNat < fr.regs.length) (v : Word) :
    setNext rd (Term.int v) fr s =
      .ok (.next, { fr with regs := fr.regs.set rd.toNat (Term.int v) }) s := by
  simp only [setNext, set, bind, StateT.bind, if_pos hrd]
  rfl

private theorem int_bind {α : Type} {r : UInt8} {t : Term} {a : Word}
    (hr : fr.regs[r.toNat]? = some t) (ha : t.asInt = some a) (k : Word → Exec σ α) :
    (int r >>= k) fr s = k a fr s := by
  have hint : int r fr s = .ok (a, fr) s := by
    have hget : get r fr = (pure (t, fr) : Sys σ _) := by simp only [get, hr]
    change ((get r fr) >>= fun p => sys (Sys.int p.1) p.2) s = _
    rw [hget, pure_bind]
    simp only [Sys.int, ha]
    rfl
  change ((int r fr) >>= fun p => k p.1 p.2) s = _
  simp only [bind, EStateM.bind, hint]

private theorem arith_eq (fr : Frame) {a b : Word} {ta tb : Term}
    {f : Word → Word → Option Word}
    (hra : fr.regs[ra.toNat]? = some ta) (hrb : fr.regs[rb.toNat]? = some tb)
    (ha : ta.asInt = some a) (hb : tb.asInt = some b) :
    arith rd ra rb f fr s = (sys (Sys.orTrap .badarg (f a b)) >>= fun v =>
      setNext rd (Term.int v)) fr s := by
  rw [arith, int_bind hra ha, int_bind hrb hb]

/-- The result that is written is the exact one if it is small. -/
private theorem written_iff {x : EStateM.Result Stop σ (Flow × Frame)} {v : Word} {next : ℕ}
    (hx : x = .ok (.next, { fr with pc := next, regs := fr.regs.set rd.toNat (Term.int v) }) s)
    (hrd : rd.toNat < fr.regs.length) (hv : v.toInt = z) :
    ((∃ t w, x = .ok (.next, { fr with pc := next, regs := fr.regs.set rd.toNat t }) s ∧
      t.asInt = some w ∧ w.toInt = z) ∨ x = .error (.trap .badarg) s) ↔ IsInt61 z := by
  obtain ⟨w, hw, hexact⟩ := Term.asInt_int v
  rw [hv] at hexact
  subst hx
  constructor
  · rintro (⟨t, w', hok, hw', hz⟩ | herror)
    · have hset : fr.regs.set rd.toNat (Term.int v) = fr.regs.set rd.toNat t := by
        have hpair := (EStateM.Result.ok.inj hok).1
        exact congrArg (fun p => p.2.regs) hpair
      have hget := congrArg (fun l => l[rd.toNat]?) hset
      simp only [List.getElem?_set_self hrd] at hget
      cases Option.some.inj hget
      cases hw.symm.trans hw'
      exact hexact.mp hz
    · cases herror
  · intro hsmall
    exact .inl ⟨_, w, rfl, hw, hexact.mpr hsmall⟩

private theorem arith_iff {f : Word → Word → Option Word} {a b : Word} {ta tb : Term} {next : ℕ}
    (hra : fr.regs[ra.toNat]? = some ta) (hrb : fr.regs[rb.toNat]? = some tb)
    (ha : ta.asInt = some a) (hb : tb.asInt = some b) (hrd : rd.toNat < fr.regs.length)
    (hf : Checks (f a b) z) {x : EStateM.Result Stop σ (Flow × Frame)}
    (hx : x = arith rd ra rb f { fr with pc := next } s) :
    ((∃ t w, x = .ok (.next, { fr with pc := next, regs := fr.regs.set rd.toNat t }) s ∧
      t.asInt = some w ∧ w.toInt = z) ∨ x = .error (.trap .badarg) s) ↔
      IsInt61 z ∨ ¬ IsInt64 z := by
  have harith : x = _ := hx.trans (arith_eq { fr with pc := next } hra hrb ha hb)
  cases hval : f a b with
  | none =>
    rw [hval] at harith
    exact iff_of_true (.inr harith) (.inr (hf.none hval))
  | some v =>
    rw [hval] at harith
    have hv := hf.some v hval
    have hok := harith.trans (setNext_int { fr with pc := next } hrd v)
    rw [written_iff hok hrd hv]
    have hlarge : ¬ ¬ IsInt64 z := not_not.mpr (hv ▸ isInt64_toInt v)
    exact (or_iff_left hlarge).symm

private theorem intIn_eq_some {regs : List Term} {r : UInt8} (h : intIn regs r = some z) :
    ∃ t a, regs[r.toNat]? = some t ∧ t.asInt = some a ∧ a.toInt = z := by
  obtain ⟨a, ha, rfl⟩ := Option.map_eq_some_iff.mp h
  obtain ⟨t, ht, hint⟩ := Option.bind_eq_some_iff.mp ha
  exact ⟨t, a, ht, hint, rfl⟩

variable {api : SystemApi σ} {limit next : ℕ} {i : Insn}

private theorem exact_reg3 {regs : List Term} {o : Reg3Op} {rd' : UInt8}
    (h : (Insn.reg3 o rd' ra rb).exact regs = some (rd, z)) :
    rd' = rd ∧ ∃ op ta a tb b, o.onInts = some op ∧ regs[ra.toNat]? = some ta ∧
      ta.asInt = some a ∧ regs[rb.toNat]? = some tb ∧ tb.asInt = some b ∧
      z = op a.toInt b.toInt := by
  obtain ⟨op, hop, h⟩ := Option.bind_eq_some_iff.mp h
  obtain ⟨za, hza, h⟩ := Option.bind_eq_some_iff.mp h
  obtain ⟨zb, hzb, h⟩ := Option.bind_eq_some_iff.mp h
  obtain ⟨ta, a, hta, ha, rfl⟩ := intIn_eq_some hza
  obtain ⟨tb, b, htb, hb, rfl⟩ := intIn_eq_some hzb
  cases h
  exact ⟨rfl, op, ta, a, tb, b, hop, hta, ha, htb, hb, rfl⟩

private theorem reg3_checks (api : SystemApi σ) (limit : ℕ) {o : Reg3Op} {op : ℤ → ℤ → ℤ}
    (h : o.onInts = some op) :
    ∃ f, (∀ rd ra rb, reg3 api limit o rd ra rb = arith rd ra rb f) ∧
      ∀ a b, Checks (f a b) (op a.toInt b.toInt) := by
  cases o with
  | add =>
    cases h
    exact ⟨_, fun _ _ _ => rfl, fun _ _ =>
      checks_of not_isInt64 BitVec.toInt_add_of_not_saddOverflow⟩
  | sub =>
    cases h
    exact ⟨_, fun _ _ _ => rfl, fun _ _ =>
      checks_of not_isInt64 BitVec.toInt_sub_of_not_ssubOverflow⟩
  | mul =>
    cases h
    exact ⟨_, fun _ _ _ => rfl, fun _ _ =>
      checks_of not_isInt64 BitVec.toInt_mul_of_not_smulOverflow⟩
  | _ => cases h

private theorem exec_iff (hexact : i.exact fr.regs = some (rd, z))
    (hrd : rd.toNat < fr.regs.length)
    (hbody : body api limit fr s = exec api limit i { fr with pc := next } s) :
    ExactOrTraps api limit fr s next rd z ↔ IsInt61 z ∨ ¬ IsInt64 z := by
  cases i with
  | loadInt rd' v =>
    cases hexact
    have hok := hbody.trans (setNext_int { fr with pc := next } hrd v)
    have hlarge : ¬ ¬ IsInt64 v.toInt := not_not.mpr (isInt64_toInt v)
    exact (written_iff hok hrd rfl).trans (or_iff_left hlarge).symm
  | reg3 o rd' ra rb =>
    obtain ⟨rfl, op, ta, a, tb, b, hop, hta, ha, htb, hb, rfl⟩ := exact_reg3 hexact
    obtain ⟨g, hreg3, hchecks⟩ := reg3_checks api limit hop
    rw [exec, hreg3] at hbody
    exact arith_iff hta htb ha hb hrd (hchecks a b) hbody
  | _ => cases hexact

private theorem mem_regs_of_exact {regs : List Term} (h : i.exact regs = some (rd, z)) :
    rd ∈ i.regs := by
  cases i with
  | loadInt rd' v =>
    cases h
    exact List.mem_singleton_self _
  | reg3 o rd' ra rb =>
    obtain ⟨rfl, -⟩ := exact_reg3 h
    exact List.mem_cons_self
  | _ => cases h

end Exec

/-- In verified code, at `LOAD_INT` with any immediate and at `ADD`, `SUB` and `MUL` of any
small integers: the instruction writes its exact result or traps exactly if that result is a
small integer or no machine integer. -/
theorem integer_instruction_exact_iff {σ : Type} {m : Module} {api : SystemApi σ}
    {limit idx next : ℕ} {f : Function} {st : ScanState} {fr : Frame} {i : Insn} {rd : UInt8}
    {z : ℤ} (hm : verify m = .ok ()) (hstart : Interp.AtStart m idx f st fr)
    (hinsn : decodeAt fr.code fr.pc = some (i, next))
    (hexact : i.exact fr.regs = some (rd, z)) (s : σ) :
    Exec.ExactOrTraps api limit fr s next rd z ↔ IsInt61 z ∨ ¬ IsInt64 z := by
  obtain ⟨i', next', hok⟩ := (hstart.verified hm).start_ok fr.pc hstart.pc_mem
  obtain ⟨rfl, rfl⟩ : i' = i ∧ next' = next := by
    have heq := (hstart.code ▸ hok.decodes).symm.trans hinsn
    simpa using heq
  have hrd : rd.toNat < fr.regs.length := by
    rw [hstart.regs]
    exact UInt8.lt_iff_toNat_lt.mp (hok.wellFormed.regs_lt rd (Exec.mem_regs_of_exact hexact))
  exact Exec.exec_iff hexact hrd (congrFun (Exec.body_eq_exec api limit hinsn) s)

/-- A function that adds its arguments. -/
def addTwo : Module := ⟨["add"], [⟨0, 2, 2, [11, 0, 0, 1, 19, 0]⟩]⟩

/-- The frame of `addTwo` with two arguments. -/
def addTwoFrame (a b : Term) : Frame := ⟨[11, 0, 0, 1, 19, 0], 0, [a, b]⟩

/-- A system with an empty heap. -/
def emptyStore : Store := ⟨fun _ => 0, Heap.new 0 0⟩

/-- One plus two is exact. -/
theorem addTwo_exact : Exec.ExactOrTraps SystemApi.isolated 0
    (addTwoFrame (Term.int 1) (Term.int 2)) emptyStore 4 0 3 ↔ IsInt61 3 ∨ ¬ IsInt64 3 := by
  have hm : verify addTwo = .ok () := by decide
  have hstart : Interp.AtStart addTwo 0 ⟨0, 2, 2, [11, 0, 0, 1, 19, 0]⟩ ⟨[4, 0], [], false⟩
      (addTwoFrame (Term.int 1) (Term.int 2)) := ⟨rfl, by decide, rfl, rfl, by decide⟩
  exact integer_instruction_exact_iff hm hstart rfl rfl emptyStore

/-- A function that loads `2^60`. -/
def loadBig : Module := ⟨["big"], [⟨0, 0, 1, [1, 0, 0, 0, 0, 0, 0, 0, 0, 16, 19, 0]⟩]⟩

set_option maxRecDepth 2000 in
/-- `2^59 + 2^59` is written as `-2^60`, and so is the immediate `2^60`. -/
theorem large_results_wrap :
    verify addTwo = .ok () ∧
      (∃ t s, Interp.runFunction addTwo SystemApi.isolated 0 2 0
          [Term.int (2 ^ 59), Term.int (2 ^ 59)] emptyStore = .ok t s ∧
        t.asInt = some (-2 ^ 60)) ∧
      verify loadBig = .ok () ∧
      ∃ t s, Interp.runFunction loadBig SystemApi.isolated 0 2 0 [] emptyStore = .ok t s ∧
        t.asInt = some (-2 ^ 60) :=
  ⟨by decide, ⟨_, _, rfl, by decide⟩, by decide, ⟨_, _, rfl, by decide⟩⟩

end Yggdrasil
