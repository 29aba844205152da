import Yggdrasil.Lib.Outcome
import Yggdrasil.Interp.Exec

/-!
# Well-formed instructions are safe to execute

None of the checks the interpreter makes of the code can fail on a well-formed
instruction, whatever the callbacks do. The instruction keeps the size of the
frame and hands control on only in ways its operands allow.
-/

namespace Yggdrasil

/-- A way to stop that does not blame the code. -/
def Stop.Benign : Stop → Prop
  | .fault _ => False
  | .trap t => t ≠ .badCode
  | _ => True

namespace Sys

variable {σ α β : Type}

/-- A computation that never blames the code. -/
def Safe (x : Sys σ α) : Prop :=
  ∀ s, EStateM.Ends (fun e _ => e.Benign) (fun _ _ => True) x s

private theorem Safe.pure (a : α) : Safe (Pure.pure a : Sys σ α) := fun _ => trivial

private theorem Safe.throw {e : Stop} (h : e.Benign) : Safe (MonadExcept.throw e : Sys σ α) :=
  fun _ => h

private theorem Safe.bind {x : Sys σ α} {f : α → Sys σ β} (hx : Safe x)
    (hf : ∀ a, Safe (f a)) : Safe (x >>= f) :=
  fun s => (hx s).bind fun a s' _ => hf a s'

/-- A callback without an error result is safe. -/
theorem safe_effect (x : Effect σ α) : Safe (effect x) := by
  intro s
  unfold EStateM.Ends effect
  rcases x s with ⟨a, s'⟩ | ⟨⟨⟩, s'⟩ <;> trivial

/-- A callback that never returns `badCode` is safe. -/
theorem safe_attempt {x : Attempt σ α} (h : ∀ s s', x s ≠ .error (.trap .badCode) s') :
    Safe (attempt x) := by
  intro s
  unfold EStateM.Ends attempt
  rcases hx : x s with ⟨a, s'⟩ | ⟨t | _ | _, s'⟩
  · trivial
  · intro hbad
    subst hbad
    exact h s s' hx
  · trivial
  · trivial

private theorem safe_orTrap {t : Trap} (h : t ≠ .badCode) (o : Option α) :
    Safe (orTrap t o : Sys σ α) := by
  cases o with
  | none => exact .throw h
  | some a => exact .pure a

private theorem safe_ofHalt (x : Except Halt α) : Safe (ofHalt x : Sys σ α) := by
  rcases x with (_ | _) | a
  · exact .throw trivial
  · exact .throw trivial
  · exact .pure a

private theorem safe_int (t : Term) : Safe (int t : Sys σ Word) := safe_orTrap (by decide) _

variable (api : SystemApi σ)

private theorem safe_mem : Safe (mem api) := fun _ => trivial

private theorem safe_kind (t : Term) : Safe (kind api t) := by
  refine (safe_mem api).bind fun mem => ?_
  cases t.kind mem with
  | none => exact .throw trivial
  | some k => exact .pure k

private theorem safe_isBoxedKind (k : Kind) (t : Term) : Safe (isBoxedKind api k t) := by
  unfold isBoxedKind
  split
  · exact (safe_kind api t).bind fun _ => .pure _
  · exact .pure _

private theorem safe_grow {x : Sys σ α} (hx : Safe x) :
    Safe (do if ← effect api.heapGrow then x else throw (.trap .heapFull) : Sys σ α) := by
  refine (safe_effect _).bind fun grown => ?_
  cases grown with
  | true => exact hx
  | false => exact .throw (by simp [Stop.Benign])

private theorem safe_allocTerm (f : HeapM Term) (n : ℕ) : Safe (allocTerm api f n) := by
  induction n with
  | zero => exact .throw trivial
  | succ n ih =>
    intro s
    unfold EStateM.Ends allocTerm
    cases f (api.store s) with
    | ok t st => trivial
    | error e st => exact safe_grow api ih (api.setStore st s)

private theorem safe_mapNewLoop (n : ℕ) (pairs : List (Term × Term)) :
    Safe (mapNewLoop api n pairs) := by
  induction n generalizing pairs with
  | zero => exact .throw trivial
  | succ n ih =>
    intro s
    unfold EStateM.Ends mapNewLoop
    rcases Heap.mapFromPairs pairs (api.store s) with ⟨⟨t, st⟩ | ⟨e | _, st⟩, pairs'⟩
    · trivial
    · exact safe_grow api (ih pairs') (api.setStore st s)
    · exact fun h => nomatch h

private theorem safe_mapPutLoop (m k v : Term) (n : ℕ) : Safe (mapPutLoop api m k v n) := by
  induction n with
  | zero => exact .throw trivial
  | succ n ih =>
    intro s
    unfold EStateM.Ends mapPutLoop
    rcases Heap.mapPut m k v (api.store s) with ⟨t, st⟩ | ⟨e | _, st⟩
    · trivial
    · exact safe_grow api ih (api.setStore st s)
    · exact fun h => nomatch h

private theorem safe_listBytes (n : ℕ) (t : Term) : Safe (listBytes api n t) := by
  induction n generalizing t with
  | zero => exact .throw trivial
  | succ n ih =>
    refine (safe_kind api t).bind fun k => ?_
    split
    · refine (safe_mem api).bind fun mem => (safe_int _).bind fun h => ?_
      split
      · exact .throw (by simp [Stop.Benign])
      · exact (safe_mem api).bind fun _ => (ih _).bind fun _ => .pure _
    · split
      · exact .pure _
      · exact .throw (by simp [Stop.Benign])

private theorem safe_listElems (n : ℕ) (t : Term) : Safe (listElems api n t) := by
  induction n generalizing t with
  | zero => exact .throw trivial
  | succ n ih =>
    refine (safe_isBoxedKind api _ t).bind fun k => ?_
    split
    · exact (safe_mem api).bind fun _ => (ih _).bind fun _ => (safe_mem api).bind fun _ => .pure _
    · split
      · exact .pure _
      · exact .throw (by simp [Stop.Benign])

end Sys

namespace Exec

variable {σ α β : Type} {n : ℕ} {P : α → Prop} {Q : β → Prop}

/-- In a frame of `n` registers the computation never blames the code, stays at
its place in the frame, and its result satisfies `Q`. -/
def Safe (n : ℕ) (x : Exec σ α) (Q : α → Prop) : Prop :=
  ∀ fr s, fr.regs.length = n →
    EStateM.Ends (fun e _ => e.Benign)
      (fun p _ => Q p.1 ∧ p.2.code = fr.code ∧ p.2.pc = fr.pc ∧ p.2.regs.length = n) (x fr) s

private theorem Safe.pure {Q : α → Prop} {a : α} (h : Q a) :
    Safe n (Pure.pure a : Exec σ α) Q :=
  fun _ _ hn => ⟨h, rfl, rfl, hn⟩

private theorem Safe.bind {x : Exec σ α} {f : α → Exec σ β} (hx : Safe n x P)
    (hf : ∀ a, P a → Safe n (f a) Q) : Safe n (x >>= f) Q := by
  intro fr s hn
  refine (hx fr s hn).bindState fun a fr' s' ⟨ha, hcode, hpc, hn'⟩ => ?_
  refine (hf a ha fr' s' hn').mono (fun _ _ => id) ?_
  rintro p _ ⟨hq, hcode', hpc', hn''⟩
  exact ⟨hq, hcode'.trans hcode, hpc'.trans hpc, hn''⟩

private theorem safe_sys {x : Sys σ α} (hx : Sys.Safe x) : Safe n (sys x) fun _ => True := by
  intro fr s hn
  exact (hx s).bind fun a s' _ => ⟨trivial, rfl, rfl, hn⟩

private theorem safe_trap {t : Trap} (h : t ≠ .badCode) (Q : α → Prop) :
    Safe n (trap t : Exec σ α) Q :=
  fun _ _ _ => h

private theorem safe_get {r : UInt8} (h : r.toNat < n) :
    Safe n (get r : Exec σ Term) fun _ => True := by
  intro fr s hn
  simp only [get, List.getElem?_eq_getElem (hn ▸ h)]
  exact ⟨trivial, rfl, rfl, hn⟩

private theorem safe_set {r : UInt8} (h : r.toNat < n) (v : Term) :
    Safe n (set r v : Exec σ Unit) fun _ => True := by
  intro fr s hn
  simp only [set, if_pos (hn ▸ h : r.toNat < fr.regs.length)]
  exact ⟨trivial, rfl, rfl, by simpa using hn⟩

private theorem safe_setNext {r : UInt8} (h : r.toNat < n) (v : Term) :
    Safe n (setNext r v : Exec σ Flow) (· = .next) :=
  (safe_set h v).bind fun _ _ => .pure rfl

private theorem safe_int {r : UInt8} (h : r.toNat < n) :
    Safe n (int r : Exec σ Word) fun _ => True :=
  (safe_get h).bind fun _ _ => safe_sys (Sys.safe_int _)

private theorem safe_gets {rs : List UInt8} (h : ∀ r ∈ rs, r.toNat < n) :
    Safe n (gets rs : Exec σ (List Term)) fun vs => vs.length = rs.length := by
  induction rs with
  | nil => exact .pure rfl
  | cons r rs ih =>
    refine (safe_get (h r (by simp))).bind fun v _ => ?_
    refine (ih fun x hx => h x (by simp [hx])).bind fun vs hvs => .pure ?_
    simp [hvs]

private theorem safe_getPairs {ps : List (UInt8 × UInt8)}
    (h : ∀ kv ∈ ps, kv.1.toNat < n ∧ kv.2.toNat < n) :
    Safe n (getPairs ps : Exec σ (List (Term × Term))) fun _ => True := by
  induction ps with
  | nil => exact .pure trivial
  | cons kv ps ih =>
    refine (safe_get (h kv (by simp)).1).bind fun k _ => ?_
    refine (safe_get (h kv (by simp)).2).bind fun v _ => ?_
    exact (ih fun x hx => h x (by simp [hx])).bind fun _ _ => .pure trivial

section

variable (api : SystemApi σ) (limit : ℕ)

private theorem safe_safepoint : Safe n (safepoint api) fun _ => True :=
  safe_sys (Sys.safe_effect _)

private theorem safe_alloc {rd : UInt8} (h : rd.toNat < n) (f : HeapM Term) :
    Safe n (alloc api limit rd f) (· = .next) :=
  (safe_sys (Sys.safe_allocTerm api f limit)).bind fun _ _ => safe_setNext h _

private theorem safe_peek (f : Mem → α) : Safe n (peek api f) fun _ => True :=
  (safe_sys (Sys.safe_mem api)).bind fun _ _ => .pure trivial

private theorem safe_unless {b : Prop} [Decidable b] {x : Exec σ α} {Q : α → Prop}
    (hx : Safe n x Q) : Safe n (if b then trap .badarg >>= fun _ : Unit => x else x) Q := by
  split
  · exact (safe_trap (by decide) fun _ => True).bind fun _ _ => hx
  · exact hx

private theorem safe_when {b : Prop} [Decidable b] {t : Trap} (h : t ≠ .badCode) :
    Safe n (if b then trap t else Pure.pure () : Exec σ Unit) fun _ => True := by
  split
  · exact safe_trap h _
  · exact .pure trivial

private theorem safe_expectKind (k : Kind) (t : Term) :
    Safe n (expectKind api k t) fun _ => True :=
  (safe_sys (Sys.safe_kind api t)).bind fun _ _ => safe_when (by decide)

private theorem safe_expectBoxed (k : Kind) (t : Term) :
    Safe n (expectBoxed api k t) fun _ => True :=
  (safe_sys (Sys.safe_isBoxedKind api k t)).bind fun _ _ => safe_when (by decide)

private theorem badarg_ne_badCode : Trap.badarg ≠ .badCode := by decide

variable {api} {limit}

private theorem safe_reg2 (hapi : api.NeverBadCode) (o : Reg2Op) {a b : UInt8}
    (ha : a.toNat < n) (hb : b.toNat < n) : Safe n (reg2 api limit o a b) (· = .next) := by
  cases o <;> dsimp only [reg2] <;>
    with_reducible repeat' first
      | exact safe_setNext ha _
      | exact safe_alloc api limit ha _
      | exact .pure rfl
      | refine (safe_get ha).bind fun _ _ => ?_
      | refine (safe_get hb).bind fun _ _ => ?_
      | refine (safe_int hb).bind fun _ _ => ?_
      | refine (safe_expectKind api _ _).bind fun _ _ => ?_
      | refine (safe_peek api _).bind fun _ _ => ?_
      | refine (safe_sys (Sys.safe_listBytes api _ _)).bind fun _ _ => ?_
      | refine (safe_sys (Sys.safe_isBoxedKind api _ _)).bind fun _ _ => ?_
      | refine (safe_sys (Sys.safe_attempt (hapi.send _ _))).bind fun _ _ => ?_
      | refine (safe_sys (Sys.safe_attempt (hapi.bufToBin _))).bind fun _ _ => ?_
      | refine (safe_sys (Sys.safe_attempt (hapi.binToBuf _))).bind fun _ _ => ?_
      | refine (safe_sys (Sys.safe_attempt (hapi.bufNew _))).bind fun _ _ => ?_

private theorem safe_arith {rd ra rb : UInt8} (hd : rd.toNat < n) (ha : ra.toNat < n)
    (hb : rb.toNat < n) (f : Word → Word → Option Word) :
    Safe n (arith rd ra rb f : Exec σ Flow) (· = .next) :=
  (safe_int ha).bind fun _ _ => (safe_int hb).bind fun _ _ =>
    (safe_sys (Sys.safe_orTrap badarg_ne_badCode _)).bind fun _ _ => safe_setNext hd _

private theorem safe_shift {rd ra rb : UInt8} (hd : rd.toNat < n) (ha : ra.toNat < n)
    (hb : rb.toNat < n) (f : Word → ℕ → Word) :
    Safe n (shift rd ra rb f : Exec σ Flow) (· = .next) := by
  exact (safe_int ha).bind fun _ _ => (safe_int hb).bind fun _ _ =>
    safe_unless (safe_setNext hd _)

private theorem safe_reg3 (o : Reg3Op) {rd ra rb : UInt8} (hd : rd.toNat < n)
    (ha : ra.toNat < n) (hb : rb.toNat < n) :
    Safe n (reg3 api limit o rd ra rb) (· = .next) := by
  cases o <;> dsimp only [reg3] <;>
    with_reducible repeat' first
      | exact safe_setNext hd _
      | exact safe_alloc api limit hd _
      | exact safe_arith hd ha hb _
      | exact safe_shift hd ha hb _
      | refine (safe_get ha).bind fun _ _ => ?_
      | refine (safe_get hb).bind fun _ _ => ?_
      | refine (safe_int ha).bind fun _ _ => ?_
      | refine (safe_int hb).bind fun _ _ => ?_
      | refine (safe_expectBoxed api _ _).bind fun _ _ => ?_
      | refine (safe_peek api _).bind fun _ _ => ?_
      | refine (safe_sys (Sys.safe_mem api)).bind fun _ _ => ?_
      | refine (safe_sys (Sys.safe_ofHalt _)).bind fun _ _ => ?_
      | refine (safe_sys (Sys.safe_listElems api _ _)).bind fun _ _ => ?_
      | refine (safe_sys (Sys.safe_orTrap badarg_ne_badCode _)).bind fun _ _ => ?_
      | refine safe_unless ?_

private theorem safe_reg4 (hapi : api.NeverBadCode) (o : Reg4Op) {rd ra rb rc : UInt8}
    (hd : rd.toNat < n) (ha : ra.toNat < n) (hb : rb.toNat < n) (hc : rc.toNat < n) :
    Safe n (reg4 api limit o rd ra rb rc) (· = .next) := by
  cases o <;> dsimp only [reg4] <;>
    with_reducible repeat' first
      | exact safe_setNext hd _
      | exact safe_alloc api limit hd _
      | refine (safe_get ha).bind fun _ _ => ?_
      | refine (safe_get hb).bind fun _ _ => ?_
      | refine (safe_get hc).bind fun _ _ => ?_
      | refine (safe_int hb).bind fun _ _ => ?_
      | refine (safe_int hc).bind fun _ _ => ?_
      | refine (safe_expectBoxed api _ _).bind fun _ _ => ?_
      | refine (safe_peek api _).bind fun _ _ => ?_
      | refine (safe_sys (Sys.safe_mapPutLoop api _ _ _ _)).bind fun _ _ => ?_
      | refine (safe_sys (Sys.safe_attempt (hapi.bufWrite _ _ _))).bind fun _ _ => ?_
      | refine (safe_sys (Sys.safe_attempt (hapi.bufRead _ _ _))).bind fun _ _ => ?_
      | refine safe_unless ?_

/-- The ways an instruction may hand control on. -/
def Fits (i : Insn) : Flow → Prop
  | .next | .sleep _ => i.fallsThrough = true
  | .ret _ | .tailCallExt _ _ _ => True
  | .call rd callee args =>
    rd ∈ i.regs ∧ (callee, args.length) ∈ i.callees ∧ i.fallsThrough = true
  | .callExt rd _ _ _ | .recv rd => rd ∈ i.regs ∧ i.fallsThrough = true
  | .tailCall callee args => (callee, args.length) ∈ i.callees

private theorem Safe.next {x : Exec σ Flow} {i : Insn} (hx : Safe n x (· = .next))
    (hi : i.fallsThrough = true) : Safe n x (Fits i) :=
  fun fr s hn => (hx fr s hn).mono (fun _ _ => id) fun _ _ h => ⟨h.1 ▸ hi, h.2⟩

private theorem safe_reg1 (o : Reg1Op) {r : UInt8} (hr : r.toNat < n) :
    Safe n (reg1 api o r) (Fits (.reg1 o r)) := by
  have hget : Safe n (sys MonadState.get : Exec σ σ) fun _ => True :=
    safe_sys fun _ => trivial
  cases o <;> dsimp only [reg1]
  case loadNil => exact (safe_setNext hr _).next rfl
  case selfPid => exact hget.bind fun _ _ => (safe_setNext hr _).next rfl
  case recv => exact .pure ⟨List.mem_singleton_self _, rfl⟩
  case ticks => exact hget.bind fun _ _ => (safe_setNext hr _).next rfl
  case print =>
    exact (safe_get hr).bind fun _ _ => (safe_sys (Sys.safe_effect _)).bind fun _ _ => .pure rfl
  case ret => exact (safe_get hr).bind fun _ _ => .pure trivial
  case exitAtom =>
    refine (safe_get hr).bind fun _ _ => ?_
    exact (safe_sys (Sys.safe_orTrap badarg_ne_badCode _)).bind fun a _ =>
      safe_trap (show Trap.exit a ≠ .badCode from Trap.noConfusion) _
  case sleepMs =>
    exact (safe_int hr).bind fun _ _ => safe_unless <|
      (safe_safepoint api).bind fun _ _ => .pure rfl

private theorem safe_getElem {rd rs : UInt8} (hd : rd.toNat < n) (hs : rs.toNat < n)
    (idx : UInt8) : Safe n (getElem api rd rs idx) (· = .next) := by
  refine (safe_get hs).bind fun _ _ => (safe_expectKind api _ _).bind fun _ _ => ?_
  exact (safe_peek api _).bind fun _ _ => safe_unless <|
    (safe_peek api _).bind fun _ _ => safe_setNext hd _

private theorem safe_spawn (hapi : api.NeverBadCode) {rd ra : UInt8} (hd : rd.toNat < n)
    (ha : ra.toNat < n) (callee : UInt32) : Safe n (spawn api rd callee ra) (· = .next) :=
  (safe_get ha).bind fun _ _ => safe_unless <|
    (safe_sys (Sys.safe_attempt (hapi.spawn _ _))).bind fun _ _ => safe_setNext hd _

/-- A well-formed instruction other than a jump is safe in a frame of the
function's registers, and its flow fits its operands. -/
theorem safe_exec (hapi : api.NeverBadCode) {m : Module} {f : Function} {i : Insn}
    (hi : i.WellFormed m f) (hjump : i.offset = none) :
    Safe f.nregs.toNat (exec api limit i) (Fits i) := by
  have hreg : ∀ r ∈ i.regs, r.toNat < f.nregs.toNat := fun r hr =>
    UInt8.lt_iff_toNat_lt.mp (hi.regs_lt r hr)
  cases i <;> simp only [Insn.regs, List.forall_mem_cons] at hreg
  case nop => exact .pure rfl
  case loadInt => exact (safe_setNext hreg.1 _).next rfl
  case loadAtom =>
    exact (safe_sys (Sys.safe_effect _)).bind fun _ _ => (safe_setNext hreg.1 _).next rfl
  case reg1 o r => exact safe_reg1 o hreg.1
  case reg2 o a b => exact (safe_reg2 hapi o hreg.1 hreg.2.1).next rfl
  case reg3 o a b c => exact (safe_reg3 o hreg.1 hreg.2.1 hreg.2.2.1).next rfl
  case reg4 o a b c d =>
    exact (safe_reg4 hapi o hreg.1 hreg.2.1 hreg.2.2.1 hreg.2.2.2.1).next rfl
  case makeTuple rd rs =>
    exact (safe_gets hreg.2).bind fun _ _ => (safe_alloc api limit hreg.1 _).next rfl
  case getElem => exact (safe_getElem hreg.1 hreg.2.1 _).next rfl
  case jmp => cases hjump
  case jmpIf => cases hjump
  case call rd callee rs =>
    refine (safe_gets hreg.2).bind fun vs hvs => (safe_safepoint api).bind fun _ _ => .pure ?_
    exact ⟨by simp [Insn.regs], by simp [Insn.callees, hvs], rfl⟩
  case spawn => exact (safe_spawn hapi hreg.1 hreg.2.1 _).next rfl
  case portOpen =>
    exact (safe_sys (Sys.safe_attempt (hapi.portOpen _))).bind fun _ _ =>
      (safe_setNext hreg.1 _).next rfl
  case portSubmit =>
    exact (safe_get hreg.1).bind fun _ _ => (safe_get hreg.2.1).bind fun _ _ =>
      (safe_get hreg.2.2.1).bind fun _ _ =>
        (safe_sys (Sys.safe_attempt (hapi.portSubmit _ _ _ _))).bind fun _ _ => .pure rfl
  case callExt rd mod fname rs =>
    refine (safe_gets hreg.2).bind fun vs _ => (safe_sys (Sys.safe_effect _)).bind fun _ _ => ?_
    refine (safe_sys (Sys.safe_effect _)).bind fun _ _ => (safe_safepoint api).bind fun _ _ => ?_
    exact .pure ⟨by simp [Insn.regs], rfl⟩
  case binNew => exact (safe_alloc api limit hreg.1 _).next rfl
  case mapNew rd pairs =>
    refine (safe_getPairs fun kv hkv => ⟨hreg.2 _ ?_, hreg.2 _ ?_⟩).bind fun _ _ =>
      (safe_sys (Sys.safe_mapNewLoop api _ _)).bind fun _ _ => (safe_setNext hreg.1 _).next rfl
    · exact List.mem_flatMap.mpr ⟨kv, hkv, by simp⟩
    · exact List.mem_flatMap.mpr ⟨kv, hkv, by simp⟩
  case tailCallExt mod fname rs =>
    refine (safe_gets hreg).bind fun vs _ => (safe_sys (Sys.safe_effect _)).bind fun _ _ => ?_
    exact (safe_sys (Sys.safe_effect _)).bind fun _ _ =>
      (safe_safepoint api).bind fun _ _ => .pure trivial
  case portSubmit2 =>
    exact (safe_get hreg.1).bind fun _ _ => (safe_get hreg.2.1).bind fun _ _ =>
      (safe_get hreg.2.2.1).bind fun _ _ => (safe_get hreg.2.2.2.1).bind fun _ _ =>
        (safe_get hreg.2.2.2.2.1).bind fun _ _ =>
          (safe_sys (Sys.safe_attempt (hapi.portSubmit2 _ _ _ _ _))).bind fun _ _ => .pure rfl
  case tailCall callee rs =>
    refine (safe_gets hreg).bind fun vs hvs => (safe_safepoint api).bind fun _ _ => .pure ?_
    simp [Fits, Insn.callees, hvs]

private theorem jump_ends {fr : Frame} {off : ℤ} {target : ℕ} {s : σ}
    (htarget : (target : ℤ) = fr.pc + off) (hle : target ≤ fr.code.length) :
    EStateM.Ends (fun e _ => e.Benign)
      (fun p _ => p.2.code = fr.code ∧ p.2.pc = target ∧ p.2.regs.length = fr.regs.length)
      (jump api off fr) s := by
  have hmove : ∀ (fr' : Frame) (s : σ), fr'.code = fr.code → fr'.pc = fr.pc →
      fr'.regs.length = fr.regs.length → EStateM.Ends (fun e _ => e.Benign)
        (fun (p : Unit × Frame) _ => p.2.code = fr.code ∧ p.2.pc = target ∧
          p.2.regs.length = fr.regs.length)
        (if (fr'.pc : ℤ) + off < 0 ∨ fr'.code.length < ((fr'.pc : ℤ) + off).toNat
          then throw (.fault .jump)
          else pure ((), { fr' with pc := ((fr'.pc : ℤ) + off).toNat }) :
            Sys σ (Unit × Frame)) s := by
    intro fr' s hcode hpc hregs
    rw [hcode, hpc, ← htarget, if_neg (by omega)]
    exact .pure ⟨rfl, Int.toNat_natCast _, hregs⟩
  unfold jump
  split
  · refine (safe_safepoint api fr s rfl).bindState fun _ fr' s' h => ?_
    exact hmove fr' s' h.2.1 h.2.2.1 h.2.2.2
  · exact hmove fr s rfl rfl rfl

/-- A well-formed jump whose target lies in the code goes on to the next
instruction or to the target. -/
theorem jump_exec {m : Module} {f : Function} {i : Insn} (hi : i.WellFormed m f) {off : ℤ}
    (hoff : i.offset = some off) {fr : Frame} (hregs : fr.regs.length = f.nregs.toNat)
    {target : ℕ} (htarget : (target : ℤ) = fr.pc + off) (hle : target ≤ fr.code.length) (s : σ) :
    EStateM.Ends (fun e _ => e.Benign)
      (fun p _ => p.1 = .next ∧ p.2.code = fr.code ∧ p.2.regs.length = f.nregs.toNat ∧
        (p.2.pc = target ∨ i.fallsThrough = true ∧ p.2.pc = fr.pc))
      (exec api limit i fr) s := by
  cases i <;> simp only [Insn.offset, Option.some.injEq, reduceCtorEq] at hoff
  case jmp =>
    subst hoff
    refine (jump_ends htarget hle).bindState fun _ fr' s' ⟨hcode, hpc, hlen⟩ => ?_
    exact .pure ⟨rfl, hcode, hlen.trans hregs, .inl hpc⟩
  case jmpIf rc off' =>
    subst hoff
    have hrc : rc.toNat < f.nregs.toNat :=
      UInt8.lt_iff_toNat_lt.mp (hi.regs_lt rc (by simp [Insn.regs]))
    refine (safe_int hrc fr s hregs).bindState fun v fr' s' ⟨_, hcode, hpc, hlen⟩ => ?_
    split
    · have hle' : target ≤ fr'.code.length := hcode ▸ hle
      have htarget' : (target : ℤ) = fr'.pc + off' := hpc ▸ htarget
      refine (jump_ends htarget' hle').bindState fun _ fr'' s'' ⟨hcode', hpc', hlen'⟩ => ?_
      exact .pure ⟨rfl, hcode'.trans hcode, hlen'.trans hlen, .inl hpc'⟩
    · exact .pure ⟨rfl, hcode, hlen, .inr ⟨rfl, hpc⟩⟩

end

end Exec

end Yggdrasil
