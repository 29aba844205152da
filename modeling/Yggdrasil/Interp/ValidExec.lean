import Yggdrasil.Interp.Contract
import Yggdrasil.Interp.Run

/-!
# Instructions keep registers valid

Under the contract of the system interface an instruction executed on valid
registers leaves valid registers and hands on valid terms, and it never reaches an
`unreachable!`. This holds for any bytes the loop may fetch.
-/

namespace Yggdrasil

open EStateM (KeepsState)

variable {σ α β : Type}

/-- All registers hold valid terms. -/
def Frame.Valid (w : Objects) (fr : Frame) : Prop := ∀ t ∈ fr.regs, t.Valid w.space

/-- The terms an instruction hands on are valid. -/
def Flow.Valid (w : Objects) : Flow → Prop
  | .next | .recv _ | .sleep _ => True
  | .ret v => v.Valid w.space
  | .call _ _ args | .callExt _ _ _ args | .tailCall _ args | .tailCallExt _ _ args =>
    ∀ t ∈ args, t.Valid w.space

/-- A valid term stays valid in a larger world. -/
theorem Term.Valid.later {w w' : Objects} {t : Term} (h : t.Valid w.space) (hle : w ≤ w') :
    t.Valid w'.space :=
  h.mono (Objects.space_mono hle)

namespace Exec

variable {I : Objects → σ → Prop} {w : Objects} {Q : Objects → α → Prop}

/-- The computation keeps the invariant and the registers valid, and reaches no
`unreachable!`. -/
abbrev Sound (I : Objects → σ → Prop) (w : Objects) (Q : Objects → α → Prop) (x : Exec σ α) :
    Prop :=
  KeepsState I Sys.NoPanic Frame.Valid w Q x

private theorem sound_sys {x : Sys σ α} (hx : Sys.Sound I w Q x) : Sound I w Q (sys x) :=
  KeepsState.lift (fun _ _ _ hle hfr t ht => (hfr t ht).later hle) hx

private theorem sound_trap (t : Trap) : Sound I w Q (trap t) :=
  sound_sys (.throw (by simp [Sys.NoPanic]))

private theorem sound_unless {b : Prop} [Decidable b] (t : Trap) {x : Exec σ α}
    (hx : ¬b → Sound I w Q x) : Sound I w Q (if b then trap t >>= fun _ : Unit => x else x) := by
  split
  · exact (sound_trap t : Sound I w (fun _ _ => False) _).bind fun _ _ _ hfalse => hfalse.elim
  · exact hx ‹_›

private theorem sound_fault (f : Fault) : Sound I w Q (fault f) :=
  sound_sys (.throw (by simp [Sys.NoPanic]))

private theorem sound_get (r : UInt8) :
    Sound I w (fun w' t => t.Valid w'.space) (get r) := by
  intro fr hfr
  unfold get
  cases hr : fr.regs[r.toNat]? with
  | none => exact .throw (by simp [Sys.NoPanic])
  | some v => exact .pure ⟨hfr, hfr v (List.mem_of_getElem? hr)⟩

/-- A valid term may be written into a register. -/
theorem sound_set (r : UInt8) {v : Term} (hv : v.Valid w.space) :
    Sound I w (fun _ _ => True) (set r v) := by
  intro fr hfr
  unfold set
  split
  · refine .pure ⟨fun t ht => ?_, trivial⟩
    rcases List.mem_or_eq_of_mem_set ht with hmem | rfl
    · exact hfr t hmem
    · exact hv
  · exact .throw (by simp [Sys.NoPanic])

private theorem sound_setNext (r : UInt8) {v : Term} (hv : v.Valid w.space) :
    Sound I w Flow.Valid (setNext r v) :=
  (sound_set r hv).bind fun _ _ _ _ => .pure trivial

private theorem sound_u8 : Sound I w (fun _ _ => True) (u8 : Exec σ UInt8) := by
  intro fr hfr
  unfold u8
  cases fr.code[fr.pc]? with
  | none => exact .throw (by simp [Sys.NoPanic])
  | some v => exact .pure ⟨hfr, trivial⟩

private theorem sound_u32 : Sound I w (fun _ _ => True) (u32 : Exec σ UInt32) := by
  intro fr hfr
  unfold u32
  cases getU32 fr.code fr.pc with
  | none => exact .throw (by simp [Sys.NoPanic])
  | some v => exact .pure ⟨hfr, trivial⟩

private theorem sound_i32 : Sound I w (fun _ _ => True) (i32 : Exec σ ℤ) :=
  sound_u32.bind fun _ _ _ _ => .pure trivial

private theorem sound_i64 : Sound I w (fun _ _ => True) (i64 : Exec σ Word) := by
  intro fr hfr
  unfold i64
  cases getI64 fr.code fr.pc with
  | none => exact .throw (by simp [Sys.NoPanic])
  | some v => exact .pure ⟨hfr, trivial⟩

private theorem sound_bytes (n : ℕ) : Sound I w (fun _ _ => True) (bytes n : Exec σ _) := by
  intro fr hfr
  unfold bytes
  cases slice fr.code fr.pc n with
  | none => exact .throw (by simp [Sys.NoPanic])
  | some v => exact .pure ⟨hfr, trivial⟩

private theorem sound_args (n : ℕ) :
    Sound I w (fun w' vs => ∀ t ∈ vs, t.Valid w'.space) (args n : Exec σ _) := by
  induction n generalizing w with
  | zero => exact .pure (by simp)
  | succ n ih =>
    refine sound_u8.bind fun r _ _ _ => (sound_get r).bind fun v _ _ hv => ?_
    refine ih.bind fun vs w' hle hvs => .pure ?_
    rw [List.forall_mem_cons]
    exact ⟨hv.later hle, hvs⟩

private theorem sound_argPairs (n : ℕ) :
    Sound I w (fun w' ps => ∀ kv ∈ ps, kv.1.Valid w'.space ∧ kv.2.Valid w'.space)
      (argPairs n : Exec σ _) := by
  induction n generalizing w with
  | zero => exact .pure (by simp)
  | succ n ih =>
    refine sound_u8.bind fun rk _ _ _ => sound_u8.bind fun rv _ _ _ => ?_
    refine (sound_get rk).bind fun k _ _ hk => (sound_get rv).bind fun v _ hle₁ hv => ?_
    refine ih.bind fun vs w' hle hvs => .pure ?_
    rw [List.forall_mem_cons]
    exact ⟨⟨hk.later (hle₁.trans hle), hv.later hle⟩, hvs⟩

private theorem sound_int (r : UInt8) : Sound I w (fun _ _ => True) (int r : Exec σ Word) :=
  (sound_get r).bind fun _ _ _ _ => sound_sys (Sys.sound_int _)

section

variable {api : SystemApi σ} (hapi : api.Contract I) {limit : ℕ}

include hapi

private theorem sound_safepoint : Sound I w (fun _ _ => True) (safepoint api) :=
  sound_sys (Sys.sound_effect (hapi.safepoint w))

private theorem sound_jump (off : ℤ) : Sound I w (fun _ _ => True) (jump api off) := by
  have hmove : ∀ w' : Objects, Sound I w' (fun _ _ => True) (fun fr =>
      if (fr.pc : ℤ) + off < 0 ∨ fr.code.length < ((fr.pc : ℤ) + off).toNat
      then throw (.fault .jump)
      else pure ((), { fr with pc := ((fr.pc : ℤ) + off).toNat }) : Exec σ Unit) := by
    intro w' fr hfr
    dsimp only
    split
    · exact .throw (by simp [Sys.NoPanic])
    · exact .pure ⟨hfr, trivial⟩
  unfold jump
  split
  · exact (sound_safepoint hapi).bind fun _ w' _ _ => hmove w'
  · exact hmove w

private theorem sound_alloc (rd : UInt8) {f : HeapM Term}
    (hf : ∀ w', w ≤ w' → Builds w'.space f) : Sound I w Flow.Valid (alloc api limit rd f) :=
  (sound_sys (Sys.sound_allocTerm hapi hf limit)).bind fun _ _ _ hv => sound_setNext rd hv

private theorem sound_peek (f : Mem → α) :
    Sound I w (fun w' a => ∃ mem, w'.In mem ∧ a = f mem) (peek api f) :=
  (sound_sys (Sys.sound_mem hapi)).bind fun mem _ _ hmem => .pure ⟨mem, hmem, rfl⟩

private theorem sound_expectKind (b : Box) {t : Term} (ht : t.Valid w.space) :
    Sound I w (fun w' _ => w'.HasBox t b) (expectKind api b.kind t) := by
  refine (sound_sys (Sys.sound_kind hapi ht)).bind fun k w' _ hk => ?_
  split
  · exact sound_trap _
  · rename_i hne
    exact .pure (hk b (by simpa using hne))

private theorem sound_expectBoxed (b : Box) {t : Term} (ht : t.Valid w.space) :
    Sound I w (fun w' _ => w'.HasBox t b) (expectBoxed api b.kind t) := by
  refine (sound_sys (Sys.sound_isBoxedKind hapi ht b)).bind fun is w' _ his => ?_
  split
  · exact sound_trap _
  · rename_i hne
    exact .pure (his (by simpa using hne))

private theorem sound_reg1 (o : Reg1Op) (r : UInt8) :
    Sound I w Flow.Valid (reg1 api o r) := by
  have hstate : Sound I w (fun w' s => I w' s) (sys MonadState.get : Exec σ σ) :=
    sound_sys fun s hs => ⟨w, le_refl w, hs, hs⟩
  cases o <;> dsimp only [reg1]
  case loadNil => exact sound_setNext r Term.valid_nil
  case selfPid => exact hstate.bind fun s w' _ _ => sound_setNext r (Term.valid_pid _)
  case recv => exact .pure trivial
  case ticks => exact hstate.bind fun s w' _ hs => sound_setNext r (hapi.ticks w' s hs)
  case print =>
    refine (sound_get r).bind fun v w' _ hv => ?_
    exact (sound_sys (Sys.sound_effect (hapi.print w' v hv))).bind fun _ _ _ _ => .pure trivial
  case ret => exact (sound_get r).bind fun v _ _ hv => .pure hv
  case exitAtom =>
    refine (sound_get r).bind fun v _ _ _ => ?_
    exact (sound_sys (Sys.sound_orTrap _ _)).bind fun _ _ _ _ => sound_trap _
  case sleepMs =>
    refine (sound_int r).bind fun ms _ _ _ => sound_unless _ fun _ => ?_
    exact (sound_safepoint hapi).bind fun _ _ _ _ => .pure trivial

private theorem sound_reg2 (o : Reg2Op) (a b : UInt8) :
    Sound I w Flow.Valid (reg2 api limit o a b) := by
  cases o <;> dsimp only [reg2]
  case move => exact (sound_get b).bind fun v _ _ hv => sound_setNext a hv
  case head =>
    refine (sound_get b).bind fun t w₁ _ ht => ?_
    refine (sound_expectKind hapi .cons ht).bind fun _ w₂ hle₂ hbox => ?_
    refine (sound_peek hapi _).bind fun v w₃ hle₃ ⟨mem, hmem, hv⟩ => sound_setNext a ?_
    rw [hv]
    exact hmem.objects.valid_head (ht.later (hle₂.trans hle₃)) ((hbox.mono hle₃).kind hmem)
  case tail =>
    refine (sound_get b).bind fun t w₁ _ ht => ?_
    refine (sound_expectKind hapi .cons ht).bind fun _ w₂ hle₂ hbox => ?_
    refine (sound_peek hapi _).bind fun v w₃ hle₃ ⟨mem, hmem, hv⟩ => sound_setNext a ?_
    rw [hv]
    exact hmem.objects.valid_tail (ht.later (hle₂.trans hle₃)) ((hbox.mono hle₃).kind hmem)
  case send =>
    refine (sound_get a).bind fun dst w₁ _ hdst => (sound_get b).bind fun msg w₂ hle hmsg => ?_
    refine (sound_sys (Sys.sound_attempt (hapi.send w₂ dst msg (hdst.later hle) hmsg))).bind ?_
    exact fun _ _ _ _ => .pure trivial
  case bnot => exact (sound_int b).bind fun v _ _ _ => sound_setNext a (Term.valid_int _)
  case binFromList =>
    refine (sound_get b).bind fun t w₁ _ ht => ?_
    refine (sound_sys (Sys.sound_listBytes hapi ht limit)).bind fun data _ _ _ => ?_
    exact sound_alloc hapi a fun _ _ => builds_binary data
  case binToList =>
    refine (sound_get b).bind fun t w₁ _ ht => ?_
    refine (sound_expectKind hapi .binary ht).bind fun _ _ _ _ => ?_
    refine (sound_peek hapi _).bind fun data _ _ _ => sound_alloc hapi a fun _ _ => ?_
    refine builds_listOnto Term.valid_nil fun t ht => ?_
    obtain ⟨x, _, rfl⟩ := List.mem_map.mp ht
    exact Term.valid_int _
  case binSize =>
    refine (sound_get b).bind fun t w₁ _ ht => ?_
    refine (sound_expectKind hapi .binary ht).bind fun _ _ _ _ => ?_
    exact (sound_peek hapi _).bind fun data _ _ _ => sound_setNext a (Term.valid_int _)
  case bufToBin =>
    refine (sound_int b).bind fun id w₁ _ _ => ?_
    exact (sound_sys (Sys.sound_attempt (hapi.bufToBin w₁ id))).bind fun v _ _ hv =>
      sound_setNext a hv
  case binToBuf =>
    refine (sound_get b).bind fun t w₁ _ ht => ?_
    exact (sound_sys (Sys.sound_attempt (hapi.binToBuf w₁ t ht))).bind fun v _ _ hv =>
      sound_setNext a hv
  case isBinary =>
    refine (sound_get b).bind fun t w₁ _ ht => ?_
    exact (sound_sys (Sys.sound_isBoxedKind hapi ht .binary)).bind fun is _ _ _ =>
      sound_setNext a (Term.valid_int _)
  case bufNew =>
    refine (sound_get b).bind fun t w₁ _ ht => ?_
    exact (sound_sys (Sys.sound_attempt (hapi.bufNew w₁ t ht))).bind fun v _ _ hv =>
      sound_setNext a hv

omit hapi in
private theorem sound_arith (rd ra rb : UInt8) (f : Word → Word → Option Word) :
    Sound I w Flow.Valid (arith rd ra rb f : Exec σ Flow) :=
  (sound_int ra).bind fun _ _ _ _ => (sound_int rb).bind fun _ _ _ _ =>
    (sound_sys (Sys.sound_orTrap _ _)).bind fun _ _ _ _ => sound_setNext rd (Term.valid_int _)

omit hapi in
private theorem sound_shift (rd ra rb : UInt8) (f : Word → ℕ → Word) :
    Sound I w Flow.Valid (shift rd ra rb f : Exec σ Flow) := by
  refine (sound_int ra).bind fun _ _ _ _ => (sound_int rb).bind fun _ _ _ _ => ?_
  exact sound_unless _ fun _ => sound_setNext rd (Term.valid_int _)

private theorem sound_reg3 (o : Reg3Op) (rd ra rb : UInt8) :
    Sound I w Flow.Valid (reg3 api limit o rd ra rb) := by
  cases o <;> dsimp only [reg3]
  case cons =>
    refine (sound_get ra).bind fun h w₁ _ hh => (sound_get rb).bind fun t w₂ hle ht => ?_
    exact sound_alloc hapi rd fun w' hle' => builds_cons (hh.later (hle.trans hle')) (ht.later hle')
  case cmpEq =>
    refine (sound_get ra).bind fun a w₁ _ ha => (sound_get rb).bind fun b w₂ hle hb => ?_
    refine (sound_sys (Sys.sound_mem hapi)).bind fun mem w₃ hle' hmem => ?_
    have hne := hmem.objects.eqTerm_ne_panic (ha.later (hle.trans hle')) (hb.later hle') limit
    exact (sound_sys (Sys.sound_ofHalt hne)).bind fun _ _ _ _ =>
      sound_setNext rd (Term.valid_int _)
  case cmpLt =>
    exact (sound_int ra).bind fun _ _ _ _ => (sound_int rb).bind fun _ _ _ _ =>
      sound_setNext rd (Term.valid_int _)
  case add | sub | mul | band | bor | bxor => exact sound_arith rd ra rb _
  case bsl | bsr => exact sound_shift rd ra rb _
  case binCat =>
    refine (sound_get ra).bind fun a w₁ _ ha => (sound_get rb).bind fun b w₂ hle hb => ?_
    refine (sound_expectBoxed hapi .binary (ha.later hle)).bind fun _ w₃ hle' _ => ?_
    refine (sound_expectBoxed hapi .binary (hb.later hle')).bind fun _ _ _ _ => ?_
    exact (sound_peek hapi _).bind fun data _ _ _ =>
      sound_alloc hapi rd fun _ _ => builds_binary data
  case listCat =>
    refine (sound_get ra).bind fun a w₁ _ ha => (sound_get rb).bind fun b w₂ hle hb => ?_
    refine (sound_sys (Sys.sound_listElems hapi (ha.later hle) limit)).bind
      fun es w₃ hle' hes => ?_
    exact sound_alloc hapi rd fun w' hle'' => builds_listOnto (hb.later (hle'.trans hle''))
      fun t ht => (hes t ht).later hle''
  case mapGet =>
    refine (sound_get ra).bind fun m w₁ _ hm => (sound_get rb).bind fun k w₂ hle hk => ?_
    refine (sound_expectBoxed hapi .map (hm.later hle)).bind fun _ w₃ hle' hbox => ?_
    refine (sound_peek hapi _).bind fun o w₄ hle'' ⟨mem, hmem, ho⟩ => ?_
    refine (sound_sys (Sys.sound_orTrap _ _)).bind fun v w₅ hle₅ hv => sound_setNext rd ?_
    rw [ho] at hv
    have hm' := hm.later (hle.trans (hle'.trans hle''))
    exact (hmem.objects.valid_mapGet hm' ((hbox.mono hle'').kind hmem) hv).later hle₅
  case binAt =>
    refine (sound_get ra).bind fun b w₁ _ hb => (sound_int rb).bind fun idx w₂ hle _ => ?_
    refine (sound_expectBoxed hapi .binary (hb.later hle)).bind fun _ _ _ _ => ?_
    refine sound_unless _ fun _ => (sound_peek hapi _).bind fun _ _ _ _ => ?_
    exact (sound_sys (Sys.sound_orTrap _ _)).bind fun _ _ _ _ =>
      sound_setNext rd (Term.valid_int _)

private theorem sound_reg4 (o : Reg4Op) (rd ra rb rc : UInt8) :
    Sound I w Flow.Valid (reg4 api limit o rd ra rb rc) := by
  cases o <;> dsimp only [reg4]
  case mapPut =>
    refine (sound_get ra).bind fun m w₁ _ hm => (sound_get rb).bind fun k w₂ hle₂ hk => ?_
    refine (sound_get rc).bind fun v w₃ hle₃ hv => ?_
    have hm₃ := hm.later (hle₂.trans hle₃)
    refine (sound_expectBoxed hapi .map hm₃).bind fun _ w₄ hle₄ hbox => ?_
    refine (sound_sys (Sys.sound_mapPutLoop hapi (hm₃.later hle₄) hbox
      (hk.later (hle₃.trans hle₄)) (hv.later hle₄) limit)).bind fun t _ _ ht => ?_
    exact sound_setNext rd ht
  case binPart =>
    refine (sound_get ra).bind fun b w₁ _ hb => (sound_int rb).bind fun off w₂ hle₂ _ => ?_
    refine (sound_int rc).bind fun len w₃ hle₃ _ => ?_
    refine (sound_expectBoxed hapi .binary (hb.later (hle₂.trans hle₃))).bind fun _ _ _ _ => ?_
    refine sound_unless _ fun _ => (sound_peek hapi _).bind fun data _ _ _ => ?_
    exact sound_unless _ fun _ => sound_alloc hapi rd fun _ _ => builds_binary _
  case bufWrite =>
    refine (sound_get ra).bind fun b w₁ _ hb => (sound_get rb).bind fun off w₂ hle₂ hoff => ?_
    refine (sound_get rc).bind fun d w₃ hle₃ hd => ?_
    have hcall := hapi.bufWrite w₃ b off d (hb.later (hle₂.trans hle₃)) (hoff.later hle₃) hd
    exact (sound_sys (Sys.sound_attempt hcall)).bind fun v _ _ hv => sound_setNext rd hv
  case bufRead =>
    refine (sound_get ra).bind fun b w₁ _ hb => (sound_get rb).bind fun off w₂ hle₂ hoff => ?_
    refine (sound_get rc).bind fun n w₃ hle₃ hn => ?_
    have hcall := hapi.bufRead w₃ b off n (hb.later (hle₂.trans hle₃)) (hoff.later hle₃) hn
    exact (sound_sys (Sys.sound_attempt hcall)).bind fun v _ _ hv => sound_setNext rd hv

private theorem sound_getElem (rd rs idx : UInt8) :
    Sound I w Flow.Valid (getElem api rd rs idx) := by
  refine (sound_get rs).bind fun t w₁ _ ht => ?_
  refine (sound_expectKind hapi .tuple ht).bind fun _ w₂ hle₂ hbox => ?_
  refine (sound_peek hapi _).bind fun n w₃ hle₃ ⟨mem, hmem, hn⟩ => sound_unless _ fun hlt => ?_
  refine (sound_peek hapi _).bind fun v w₄ hle₄ ⟨mem', hmem', hv⟩ => sound_setNext rd ?_
  have hsame : t.tupleArity mem' = n := by
    obtain ⟨hboxed, hd, hin, -⟩ := hbox.mono hle₃
    have hheader := hmem.header _ _ hin
    have hheader' := hmem'.header _ _ (hle₄ hin)
    rw [hn, Term.tupleArity, Term.tupleArity, Term.headerLen, Term.headerLen, Term.header,
      Term.header, hheader, hheader']
  rw [hv]
  exact hmem'.objects.valid_tupleElem (ht.later (hle₂.trans (hle₃.trans hle₄)))
    ((hbox.mono (hle₃.trans hle₄)).kind hmem') (by omega)

private theorem sound_spawn (rd : UInt8) (callee : UInt32) (ra : UInt8) :
    Sound I w Flow.Valid (spawn api rd callee ra) := by
  refine (sound_get ra).bind fun arg w₁ _ harg => sound_unless _ fun hboxed => ?_
  have hcall := hapi.spawn w₁ callee arg (by simpa using hboxed) harg
  exact (sound_sys (Sys.sound_attempt hcall)).bind fun p _ _ _ =>
    sound_setNext rd (Term.valid_pid _)

private theorem sound_globals (mod fname : UInt32) {f : UInt32 → UInt32 → Flow}
    (hf : ∀ w', w ≤ w' → ∀ mg fg, (f mg fg).Valid w') :
    Sound I w Flow.Valid (do
      let mg ← sys (Sys.effect (api.atomGlobal mod))
      let fg ← sys (Sys.effect (api.atomGlobal fname))
      safepoint api
      return f mg fg) := by
  refine (sound_sys (Sys.sound_effect (hapi.atomGlobal _ mod))).bind fun mg w₁ hle₁ _ => ?_
  refine (sound_sys (Sys.sound_effect (hapi.atomGlobal _ fname))).bind fun fg w₂ hle₂ _ => ?_
  refine (sound_safepoint hapi).bind fun _ w₃ hle₃ _ => .pure ?_
  exact hf w₃ (hle₁.trans (hle₂.trans hle₃)) mg fg

private theorem sound_dispatch (op : Op) : Sound I w Flow.Valid (dispatch api limit op) := by
  cases op <;> dsimp only [dispatch]
  case nop => exact .pure trivial
  case loadInt =>
    exact sound_u8.bind fun rd _ _ _ => sound_i64.bind fun v _ _ _ =>
      sound_setNext rd (Term.valid_int v)
  case loadAtom =>
    refine sound_u8.bind fun rd _ _ _ => sound_u32.bind fun a w' _ _ => ?_
    exact (sound_sys (Sys.sound_effect (hapi.atomGlobal w' a))).bind fun g _ _ _ =>
      sound_setNext rd (Term.valid_atom g)
  case reg1 o => exact sound_u8.bind fun r _ _ _ => sound_reg1 hapi o r
  case reg2 o =>
    exact sound_u8.bind fun a _ _ _ => sound_u8.bind fun b _ _ _ => sound_reg2 hapi o a b
  case reg3 o =>
    exact sound_u8.bind fun a _ _ _ => sound_u8.bind fun b _ _ _ => sound_u8.bind fun c _ _ _ =>
      sound_reg3 hapi o a b c
  case reg4 o =>
    exact sound_u8.bind fun a _ _ _ => sound_u8.bind fun b _ _ _ => sound_u8.bind fun c _ _ _ =>
      sound_u8.bind fun d _ _ _ => sound_reg4 hapi o a b c d
  case makeTuple =>
    refine sound_u8.bind fun rd _ _ _ => sound_u8.bind fun n _ _ _ => ?_
    refine (sound_args _).bind fun vs w' _ hvs => sound_alloc hapi rd fun w'' hle => ?_
    exact builds_tuple fun t ht => (hvs t ht).later hle
  case getElem =>
    exact sound_u8.bind fun a _ _ _ => sound_u8.bind fun b _ _ _ => sound_u8.bind fun c _ _ _ =>
      sound_getElem hapi a b c
  case jmp =>
    exact sound_i32.bind fun off _ _ _ => (sound_jump hapi off).bind fun _ _ _ _ => .pure trivial
  case jmpIf =>
    refine sound_u8.bind fun rc _ _ _ => sound_i32.bind fun off _ _ _ => ?_
    refine (sound_int rc).bind fun v _ _ _ => ?_
    split
    · exact (sound_jump hapi off).bind fun _ _ _ _ => .pure trivial
    · exact .pure trivial
  case call =>
    refine sound_u8.bind fun rd _ _ _ => sound_u32.bind fun c _ _ _ => sound_u8.bind
      fun n _ _ _ => (sound_args _).bind fun vs w' _ hvs => ?_
    exact (sound_safepoint hapi).bind fun _ w'' hle _ =>
      .pure fun t ht => (hvs t ht).later hle
  case spawn =>
    exact sound_u8.bind fun rd _ _ _ => sound_u32.bind fun c _ _ _ => sound_u8.bind
      fun ra _ _ _ => sound_spawn hapi rd c ra
  case portOpen =>
    refine sound_u8.bind fun rd _ _ _ => sound_u8.bind fun k w' _ _ => ?_
    exact (sound_sys (Sys.sound_attempt (hapi.portOpen w' k))).bind fun v _ _ hv =>
      sound_setNext rd hv
  case portSubmit =>
    refine sound_u8.bind fun rp _ _ _ => sound_u8.bind fun o _ _ _ => sound_u8.bind
      fun ra _ _ _ => sound_u8.bind fun rt _ _ _ => ?_
    refine (sound_get rp).bind fun p w₁ _ hp => (sound_get ra).bind fun a w₂ hle₂ ha => ?_
    refine (sound_get rt).bind fun t w₃ hle₃ ht => ?_
    have hcall := hapi.portSubmit w₃ p o a t (hp.later (hle₂.trans hle₃)) (ha.later hle₃) ht
    exact (sound_sys (Sys.sound_attempt hcall)).bind fun _ _ _ _ => .pure trivial
  case callExt =>
    refine sound_u8.bind fun rd _ _ _ => sound_u32.bind fun m _ _ _ => sound_u32.bind
      fun f _ _ _ => sound_u8.bind fun n _ _ _ => (sound_args _).bind fun vs w' _ hvs => ?_
    exact sound_globals hapi m f fun w'' hle _ _ t ht => (hvs t ht).later hle
  case binNew =>
    exact sound_u8.bind fun rd _ _ _ => sound_u32.bind fun len _ _ _ => (sound_bytes _).bind
      fun data _ _ _ => sound_alloc hapi rd fun _ _ => builds_binary data
  case mapNew =>
    refine sound_u8.bind fun rd _ _ _ => sound_u8.bind fun n _ _ _ => ?_
    refine (sound_argPairs _).bind fun ps w' _ hps => ?_
    exact (sound_sys (Sys.sound_mapNewLoop hapi hps limit)).bind fun t _ _ ht =>
      sound_setNext rd ht
  case tailCallExt =>
    refine sound_u32.bind fun m _ _ _ => sound_u32.bind fun f _ _ _ => sound_u8.bind
      fun n _ _ _ => (sound_args _).bind fun vs w' _ hvs => ?_
    exact sound_globals hapi m f fun w'' hle _ _ t ht => (hvs t ht).later hle
  case portSubmit2 =>
    refine sound_u8.bind fun rp _ _ _ => sound_u8.bind fun ro _ _ _ => sound_u8.bind
      fun ra _ _ _ => sound_u8.bind fun rb _ _ _ => sound_u8.bind fun rt _ _ _ => ?_
    refine (sound_get rp).bind fun p w₁ _ hp => (sound_get ro).bind fun o w₂ hle₂ ho => ?_
    refine (sound_get ra).bind fun a w₃ hle₃ ha => (sound_get rb).bind fun b w₄ hle₄ hb => ?_
    refine (sound_get rt).bind fun t w₅ hle₅ ht => ?_
    have hcall := hapi.portSubmit2 w₅ p o a b t
      (hp.later (hle₂.trans (hle₃.trans (hle₄.trans hle₅))))
      (ho.later (hle₃.trans (hle₄.trans hle₅))) (ha.later (hle₄.trans hle₅)) (hb.later hle₅) ht
    exact (sound_sys (Sys.sound_attempt hcall)).bind fun _ _ _ _ => .pure trivial
  case tailCall =>
    refine sound_u32.bind fun c _ _ _ => sound_u8.bind fun n _ _ _ => (sound_args _).bind
      fun vs w' _ hvs => ?_
    exact (sound_safepoint hapi).bind fun _ w'' hle _ =>
      .pure fun t ht => (hvs t ht).later hle

/-- One round of the loop on valid registers leaves valid registers and hands on
valid terms. -/
theorem sound_body : Sound I w Flow.Valid (body api limit) := by
  refine sound_u8.bind fun b w' _ _ => ?_
  cases Op.ofByte b with
  | none => exact sound_fault _
  | some op => exact sound_dispatch hapi op

end

end Exec

namespace Interp

variable {I : Objects → σ → Prop} {w : Objects} {m : Module} {idx : ℕ} {args : List Term}

/-- A call on valid arguments enters a frame of valid registers. -/
theorem enter_valid (hargs : ∀ t ∈ args, t.Valid w.space) {fr : Frame}
    (h : enter m idx args = .ok fr) : fr.Valid w := by
  unfold enter at h
  cases hf : m.functions[idx]? with
  | none => simp [hf] at h
  | some f =>
    simp only [hf] at h
    split at h
    · cases h
    · cases h
      intro t ht
      rcases List.mem_append.mp ht with hmem | hmem
      · exact hargs t hmem
      · rw [(List.mem_replicate.mp hmem).2]
        exact Term.valid_nil

/-- A call on valid arguments starts in a frame of valid registers. -/
theorem sound_start (m : Module) (idx : ℕ) (hargs : ∀ t ∈ args, t.Valid w.space) :
    Sys.Sound I w (fun w' fr => fr.Valid w') (start m idx args) := by
  unfold start
  cases henter : enter m idx args with
  | ok fr => exact .pure (enter_valid hargs henter)
  | error e => exact .throw (by simp [Sys.NoPanic])

end Interp

end Yggdrasil
