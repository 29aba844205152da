import Yggdrasil.Bytecode.Sentinel
import Yggdrasil.Bytecode.WellFormed
import Yggdrasil.Lib.Marking

/-!
# The sentinel analysis is exact

The scan for tail calls moves over an instruction exactly when it can be decoded, and ends
behind it. So on verified code it finds the tail calls and the calls that are there, and the
passes over the functions set the bit of a function exactly when calls lead from it to a tail
call.
-/

namespace Yggdrasil

section Lengths

variable {α β : Type} {code : List UInt8} {n k : ℕ}

/-- The position `n` bytes on, if they are all there. -/
private def fixed (code : List UInt8) (pos n : ℕ) : Option ℕ :=
  if pos + n ≤ code.length then some (pos + n) else none

/-- The reader takes `n` bytes whatever they are. -/
private def Takes (code : List UInt8) (n : ℕ) (x : Dec α) : Prop :=
  ∀ pos ≤ code.length, (x pos).map Prod.snd = fixed code pos n

private theorem map_bind (x : Dec α) (f : α → Dec β) (pos : ℕ) :
    ((x >>= f) pos).map Prod.snd = (x pos).bind fun p => (f p.1 p.2).map Prod.snd := by
  change ((x pos).bind fun p => f p.1 p.2).map Prod.snd = _
  cases x pos <;> rfl

private theorem Takes.pure (a : α) : Takes code 0 (Pure.pure a) := by
  intro pos hpos
  exact (if_pos hpos).symm

private theorem Takes.then {x : Dec α} {f : α → Dec β} (hx : Takes code n x) {pos : ℕ}
    (hpos : pos ≤ code.length) {g : ℕ → Option ℕ}
    (hf : ∀ a, pos + n ≤ code.length → (f a (pos + n)).map Prod.snd = g (pos + n)) :
    ((x >>= f) pos).map Prod.snd = (fixed code pos n).bind g := by
  have htakes := hx pos hpos
  rw [map_bind, ← htakes]
  cases hxp : x pos with
  | none => rfl
  | some p =>
    rw [hxp, Option.map_some, fixed] at htakes
    split at htakes
    · rename_i hle
      have hp : p.2 = pos + n := Option.some.inj htakes
      rw [Option.bind_some, Option.map_some, Option.bind_some, hp]
      exact hf p.1 hle
    · cases htakes

private theorem Takes.bind {x : Dec α} {f : α → Dec β} (hx : Takes code n x)
    (hf : ∀ a, Takes code k (f a)) : Takes code (n + k) (x >>= f) := by
  intro pos hpos
  rw [hx.then hpos (g := fun q => fixed code q k) fun a hle => hf a (pos + n) hle]
  unfold fixed
  by_cases hle : pos + n ≤ code.length
  · rw [if_pos hle, Option.bind_some, Nat.add_assoc]
  · rw [if_neg hle, if_neg (by omega)]
    rfl

private theorem takes_u8 : Takes code 1 (Dec.u8 code) := by
  intro pos _
  rw [Dec.u8, fixed, Option.map_map]
  by_cases h : pos < code.length
  · rw [if_pos (by omega), List.getElem?_eq_getElem h]
    rfl
  · rw [if_neg (by omega), List.getElem?_eq_none (by omega)]
    rfl

private theorem takes_u32 : Takes code 4 (Dec.u32 code) := by
  intro pos _
  rw [Dec.u32, fixed, getU32, slice, Option.map_map]
  split <;> rfl

private theorem takes_i64 : Takes code 8 (Dec.i64 code) := by
  intro pos _
  rw [Dec.i64, fixed, getI64, slice, Option.map_map]
  split <;> rfl

private theorem takes_bytes (n : ℕ) : Takes code n (Dec.bytes code n) := by
  intro pos _
  rw [Dec.bytes, fixed, slice, Option.map_map]
  split <;> rfl

private theorem takes_regs (n : ℕ) : Takes code n (Dec.regs code n) := by
  induction n with
  | zero => exact .pure _
  | succ n ih =>
    have hbind := takes_u8.bind fun r => ih.bind fun rs => @Takes.pure _ code (r :: rs)
    rwa [Nat.add_zero, Nat.add_comm] at hbind

private theorem takes_regPairs (n : ℕ) : Takes code (2 * n) (Dec.regPairs code n) := by
  induction n with
  | zero => exact .pure _
  | succ n ih =>
    rw [show 2 * (n + 1) = 1 + (1 + (2 * n + 0)) by omega]
    exact takes_u8.bind fun _ => takes_u8.bind fun _ => ih.bind fun _ => .pure _

/-- A reader of `n` bytes, then one of a count of `w` bytes, then one whose length is
given by the count. -/
private theorem Takes.counted {γ : Type} {x : Dec α} {c : Dec γ} {g : ℕ → Option γ} {w : ℕ}
    {f : α → γ → Dec β} {k : γ → ℕ} (hx : Takes code n x)
    (hc : ∀ pos, c pos = (g pos).map fun v => (v, pos + w))
    (hle : ∀ pos v, g pos = some v → pos + w ≤ code.length)
    (hf : ∀ a v, Takes code (k v) (f a v)) {pos : ℕ} (hpos : pos ≤ code.length) :
    ((x >>= fun a => c >>= f a) pos).map Prod.snd =
      (g (pos + n)).bind fun v => fixed code pos (n + w + k v) := by
  have hthen : ∀ a, pos + n ≤ code.length → ((c >>= f a) (pos + n)).map Prod.snd =
      (g (pos + n)).bind fun v => fixed code (pos + n + w) (k v) := by
    intro a _
    rw [map_bind, hc]
    cases hv : g (pos + n) with
    | none => rfl
    | some v => exact hf a v _ (hle _ v hv)
  rw [hx.then hpos (g := fun q => (g q).bind fun v => fixed code (q + w) (k v)) hthen]
  unfold fixed
  by_cases hlt : pos + n ≤ code.length
  · rw [if_pos hlt, Option.bind_some]
    simp only [Nat.add_assoc]
  · rw [if_neg hlt]
    cases hv : g (pos + n) with
    | none => rfl
    | some v =>
      have := hle _ v hv
      omega

private theorem Takes.countedByte {x : Dec α} {f : α → UInt8 → Dec β} {k : UInt8 → ℕ}
    (hx : Takes code n x) (hf : ∀ a b, Takes code (k b) (f a b)) {pos : ℕ}
    (hpos : pos ≤ code.length) :
    ((x >>= fun a => Dec.u8 code >>= f a) pos).map Prod.snd =
      (code[pos + n]?).bind fun b => fixed code pos (n + 1 + k b) :=
  hx.counted (g := fun q => code[q]?) (fun _ => rfl)
    (fun _ _ hv => (List.getElem?_eq_some_iff.mp hv).1) hf hpos

private theorem skipOperands_eq {opcode : UInt8} {op : Op} (hop : Op.ofByte opcode = some op)
    {pos : ℕ} (hpos : pos ≤ code.length) :
    skipOperands opcode code pos = (Dec.operands code op pos).map Prod.snd := by
  have hfixed : ∀ (n : ℕ), Takes code n (Dec.operands code op) →
      skipOperands opcode code pos = fixed code pos n →
      skipOperands opcode code pos = (Dec.operands code op pos).map Prod.snd := fun n htakes heq =>
    heq.trans (htakes pos hpos).symm
  cases op
  case nop => exact hfixed 0 (.pure _) (by rw [skipOperands, hop]; rfl)
  case loadInt =>
    exact hfixed 9 (takes_u8.bind fun _ => takes_i64.bind fun _ => .pure _)
      (by rw [skipOperands, hop]; rfl)
  case loadAtom =>
    exact hfixed 5 (takes_u8.bind fun _ => takes_u32.bind fun _ => .pure _)
      (by rw [skipOperands, hop]; rfl)
  case reg1 o =>
    exact hfixed 1 (takes_u8.bind fun _ => .pure _)
      (by rw [skipOperands, hop]; cases o <;> rfl)
  case reg2 o =>
    exact hfixed 2 (takes_u8.bind fun _ => takes_u8.bind fun _ => .pure _)
      (by rw [skipOperands, hop]; cases o <;> rfl)
  case reg3 o =>
    exact hfixed 3 (takes_u8.bind fun _ => takes_u8.bind fun _ => takes_u8.bind fun _ => .pure _)
      (by rw [skipOperands, hop]; cases o <;> rfl)
  case reg4 o =>
    exact hfixed 4 (takes_u8.bind fun _ => takes_u8.bind fun _ => takes_u8.bind fun _ =>
      takes_u8.bind fun _ => .pure _) (by rw [skipOperands, hop]; cases o <;> rfl)
  case getElem =>
    exact hfixed 3 (takes_u8.bind fun _ => takes_u8.bind fun _ => takes_u8.bind fun _ => .pure _)
      (by rw [skipOperands, hop]; rfl)
  case jmp =>
    exact hfixed 4 (takes_u32.bind fun _ => .pure _) (by rw [skipOperands, hop]; rfl)
  case jmpIf =>
    exact hfixed 5 (takes_u8.bind fun _ => takes_u32.bind fun _ => .pure _)
      (by rw [skipOperands, hop]; rfl)
  case spawn =>
    exact hfixed 6 (takes_u8.bind fun _ => takes_u32.bind fun _ => takes_u8.bind fun _ => .pure _)
      (by rw [skipOperands, hop]; rfl)
  case portOpen =>
    exact hfixed 2 (takes_u8.bind fun _ => takes_u8.bind fun _ => .pure _)
      (by rw [skipOperands, hop]; rfl)
  case portSubmit =>
    exact hfixed 4 (takes_u8.bind fun _ => takes_u8.bind fun _ => takes_u8.bind fun _ =>
      takes_u8.bind fun _ => .pure _) (by rw [skipOperands, hop]; rfl)
  case portSubmit2 =>
    exact hfixed 5 (takes_u8.bind fun _ => takes_u8.bind fun _ => takes_u8.bind fun _ =>
      takes_u8.bind fun _ => takes_u8.bind fun _ => .pure _) (by rw [skipOperands, hop]; rfl)
  case makeTuple =>
    have hcount := takes_u8.countedByte (fun rd n => (takes_regs n.toNat).bind fun rs =>
      Takes.pure (Insn.makeTuple rd rs)) hpos
    rw [Dec.operands, hcount, skipOperands, hop]
    rfl
  case mapNew =>
    have hcount := takes_u8.countedByte (fun rd n => (takes_regPairs n.toNat).bind fun ps =>
      Takes.pure (Insn.mapNew rd ps)) hpos
    rw [Dec.operands, hcount, skipOperands, hop]
    rfl
  case binNew =>
    have hcount := takes_u8.counted (c := Dec.u32 code) (g := getU32 code) (fun _ => rfl)
      (fun _ _ => le_length_of_getU32) (fun rd len => (takes_bytes len.toNat).bind fun data =>
      Takes.pure (Insn.binNew rd data)) hpos
    rw [Dec.operands, hcount, skipOperands, hop]
    rfl
  case call =>
    have hcount := (takes_u8.bind fun rd => takes_u32.bind fun callee =>
      Takes.pure (rd, callee)).countedByte (fun p n => (takes_regs n.toNat).bind fun rs =>
      Takes.pure (Insn.call p.1 p.2 rs)) hpos
    simp only [bind_assoc, pure_bind] at hcount
    rw [Dec.operands, hcount, skipOperands, hop]
    rfl
  case tailCall =>
    have hcount := takes_u32.countedByte (fun callee n => (takes_regs n.toNat).bind fun rs =>
      Takes.pure (Insn.tailCall callee rs)) hpos
    rw [Dec.operands, hcount, skipOperands, hop]
    rfl
  case callExt =>
    have hcount := (takes_u8.bind fun rd => takes_u32.bind fun mod => takes_u32.bind fun fname =>
      Takes.pure (rd, mod, fname)).countedByte (fun p n => (takes_regs n.toNat).bind fun rs =>
      Takes.pure (Insn.callExt p.1 p.2.1 p.2.2 rs)) hpos
    simp only [bind_assoc, pure_bind] at hcount
    rw [Dec.operands, hcount, skipOperands, hop]
    rfl
  case tailCallExt =>
    have hcount := (takes_u32.bind fun mod => takes_u32.bind fun fname =>
      Takes.pure (mod, fname)).countedByte (fun p n => (takes_regs n.toNat).bind fun rs =>
      Takes.pure (Insn.tailCallExt p.1 p.2 rs)) hpos
    simp only [bind_assoc, pure_bind] at hcount
    rw [Dec.operands, hcount, skipOperands, hop]
    rfl

/-- The scan for tail calls moves over the instruction that is there. -/
theorem skipOperands_iff {opcode : UInt8} {pos next : ℕ} (hopcode : code[pos]? = some opcode) :
    skipOperands opcode code (pos + 1) = some next ↔ ∃ i, decodeAt code pos = some (i, next) := by
  have hlt := (List.getElem?_eq_some_iff.mp hopcode).1
  have hdecode : decodeAt code pos = (Op.ofByte opcode).bind fun op =>
      Dec.operands code op (pos + 1) := by
    change (Dec.u8 code pos).bind _ = _
    rw [Dec.u8, hopcode, Option.map_some, Option.bind_some]
    dsimp only
    cases Op.ofByte opcode <;> rfl
  rw [hdecode]
  cases hop : Op.ofByte opcode with
  | none => simp [skipOperands, hop]
  | some op =>
    rw [skipOperands_eq hop hlt, Option.bind_some, Option.map_eq_some_iff]
    constructor
    · rintro ⟨⟨i, e⟩, hi, rfl⟩
      exact ⟨i, hi⟩
    · rintro ⟨i, hi⟩
      exact ⟨(i, next), hi, rfl⟩

end Lengths

/-- The instruction is a tail call. -/
def Insn.isTailCall : Insn → Bool
  | .tailCall _ _ | .tailCallExt _ _ _ => true
  | _ => false

/-- The function an instruction calls within the module. -/
def Insn.sibling : Insn → Option UInt32
  | .call _ callee _ => some callee
  | _ => none

/-- The instruction occurs in the code, which is a sequence of instructions. -/
def Function.Contains (f : Function) (i : Insn) : Prop :=
  ∃ insns, f.code = Insn.encodeAll insns ∧ (∀ j ∈ insns, j.Encodable) ∧ i ∈ insns

namespace Module

variable (m : Module)

/-- Function `i` has an instruction that calls function `j`. -/
def Calls (i j : ℕ) : Prop :=
  ∃ f insn callee, m.functions[i]? = some f ∧ f.Contains insn ∧ insn.sibling = some callee ∧
    callee.toNat = j

/-- Function `i` has a tail call. -/
def TailCalls (i : ℕ) : Prop :=
  ∃ f insn, m.functions[i]? = some f ∧ f.Contains insn ∧ insn.isTailCall = true

/-- Calls lead from function `i` to one that has a tail call. -/
def ReachesTailCall (i : ℕ) : Prop := ∃ j, Relation.ReflTransGen m.Calls i j ∧ m.TailCalls j

end Module

section Scan

variable {code : List UInt8} {pos next : ℕ} {st : TailScan} {i : Insn}

private theorem byte_of_decodeAt (hi : decodeAt code pos = some (i, next)) :
    code[pos]? = some i.op.toByte := by
  obtain ⟨hlt, hle⟩ := decodeAt_bounds hi
  obtain ⟨-, ⟨rest, hrest⟩, -⟩ := (decodeAt_eq_some_iff (by omega)).mp hi
  have hbyte : (code.drop pos)[0]? = some i.op.toByte := by
    rw [← hrest]
    rfl
  rwa [List.getElem?_drop, Nat.add_zero] at hbyte

private theorem callee_of_decodeAt {rd : UInt8} {callee : UInt32} {args : List UInt8}
    (hi : decodeAt code pos = some (.call rd callee args, next)) :
    getU32 code (pos + 2) = some callee := by
  have hbyte := byte_of_decodeAt hi
  rw [decodeAt, StateT.run, Dec.insn, StateT.bind_eq_some] at hi
  obtain ⟨b, mid, hb, hrest⟩ := hi
  simp only [Dec.u8, hbyte, Option.map_some, Option.some.injEq, Prod.mk.injEq] at hb
  obtain ⟨rfl, rfl⟩ := hb
  rw [Op.ofByte_eq_some_iff.mpr rfl] at hrest
  simp only [Insn.op, Dec.operands, StateT.bind_eq_some, StateT.pure_eq_some] at hrest
  obtain ⟨rd', mid, hrd, callee', mid', hcallee, n, _, -, rs, _, -, heq⟩ := hrest
  cases heq
  simp only [Dec.u8, Option.map_eq_some_iff, Prod.mk.injEq] at hrd
  obtain ⟨_, -, -, rfl⟩ := hrd
  simp only [Dec.u32, Option.map_eq_some_iff, Prod.mk.injEq] at hcallee
  obtain ⟨_, hcallee, rfl, -⟩ := hcallee
  exact hcallee

private theorem visit_eq (hi : decodeAt code pos = some (i, next)) :
    st.visit code pos i.op.toByte =
      ⟨st.bit || i.isTailCall, st.callees ++ i.sibling.toList, pos :: st.starts⟩ := by
  have hop : Op.ofByte i.op.toByte = some i.op := Op.ofByte_eq_some_iff.mpr rfl
  rw [TailScan.visit, hop]
  cases i <;> simp [Insn.op, Insn.isTailCall, Insn.sibling]
  case call rd callee args => rw [callee_of_decodeAt hi]

/-- What the scan finds in a sequence of instructions. -/
theorem tailScanLoop_eq {rounds : ℕ} {insns : List Insn} (hpos : pos ≤ code.length)
    (hrounds : code.length ≤ pos + rounds) (hcode : code.drop pos = Insn.encodeAll insns)
    (hinsns : ∀ i ∈ insns, i.Encodable) :
    tailScanLoop code rounds pos st =
      ⟨st.bit || insns.any Insn.isTailCall, st.callees ++ insns.filterMap Insn.sibling,
        (ScanState.collect ⟨st.starts, [], true⟩ pos insns).boundaries⟩ := by
  induction insns generalizing rounds pos st with
  | nil =>
    have hend : code[pos]? = none := by
      rw [List.getElem?_eq_none_iff]
      simpa [Insn.encodeAll] using hcode
    cases rounds with
    | zero => simp [tailScanLoop, ScanState.collect]
    | succ rounds => simp [tailScanLoop, hend, ScanState.collect]
  | cons i is ih =>
    obtain ⟨hok, his⟩ := List.forall_mem_cons.mp hinsns
    obtain ⟨hi, hrest⟩ := Insn.decodeAt_cons hpos hcode hok
    obtain ⟨hlt, hle⟩ := decodeAt_bounds hi
    have hbyte := byte_of_decodeAt hi
    have hskip := (skipOperands_iff hbyte).mpr ⟨i, hi⟩
    obtain ⟨rounds, rfl⟩ : ∃ n, rounds = n + 1 := ⟨rounds - 1, by omega⟩
    rw [tailScanLoop, hbyte]
    dsimp only
    rw [hskip]
    dsimp only
    rw [visit_eq hi, ih hle (by omega) hrest his, TailScan.mk.injEq]
    refine ⟨?_, ?_, ?_⟩
    · rw [List.any_cons, Bool.or_assoc]
    · rw [List.append_assoc, List.filterMap_cons]
      cases i.sibling <;> rfl
    · rw [ScanState.collect]
      exact ScanState.boundaries_collect_congr rfl

end Scan

/-- The scan of one function run to its end: started at `pos` with `st` it ends with `out`. -/
inductive TailScanEnds (code : List UInt8) : ℕ → TailScan → TailScan → Prop
  | done {pos : ℕ} {st : TailScan} : code[pos]? = none → TailScanEnds code pos st st
  | stuck {pos : ℕ} {opcode : UInt8} {st : TailScan} : code[pos]? = some opcode →
      skipOperands opcode code (pos + 1) = none →
      TailScanEnds code pos st { st.visit code pos opcode with bit := true }
  | step {pos next : ℕ} {opcode : UInt8} {st out : TailScan} : code[pos]? = some opcode →
      skipOperands opcode code (pos + 1) = some next →
      TailScanEnds code next (st.visit code pos opcode) out → TailScanEnds code pos st out

/-- `sentinel_returners` run to its end: the scan of every function ends, and then the loop of
passes ends with `out`. -/
def SentinelReturnersEnds (m : Module) (out : List Bool) : Prop :=
  ∃ scans, List.Forall₂ (fun f => TailScanEnds f.code 0 ⟨false, [], []⟩) m.functions scans ∧
    Marking.Ends (callsTailer (scans.map TailScan.callees)) (scans.map TailScan.bit) out

private theorem tailScanLoop_ends {code : List UInt8} {rounds pos : ℕ} {st : TailScan}
    (hrounds : code.length ≤ pos + rounds) :
    TailScanEnds code pos st (tailScanLoop code rounds pos st) := by
  induction rounds generalizing pos st with
  | zero => exact .done (List.getElem?_eq_none_iff.mpr hrounds)
  | succ rounds ih =>
    rw [tailScanLoop]
    cases hbyte : code[pos]? with
    | none => exact .done hbyte
    | some opcode =>
      dsimp only
      cases hskip : skipOperands opcode code (pos + 1) with
      | none => exact .stuck hbyte hskip
      | some next =>
        obtain ⟨i, hi⟩ := (skipOperands_iff hbyte).mp hskip
        obtain ⟨hlt, -⟩ := decodeAt_bounds hi
        exact .step hbyte hskip (ih (by omega))

private theorem tailFixpoint_eq (callees : List (List UInt32)) (rounds : ℕ) (bits : List Bool) :
    tailFixpoint callees rounds bits = Marking.fixpoint (callsTailer callees) rounds bits := by
  induction rounds generalizing bits with
  | zero => rfl
  | succ rounds ih =>
    rw [tailFixpoint, Marking.fixpoint, ← ih]
    rfl

private theorem marking_ends (m : Module) :
    Marking.Ends (callsTailer ((m.functions.map tailScan).map TailScan.callees))
      ((m.functions.map tailScan).map TailScan.bit) (sentinelReturners m) := by
  rw [sentinelReturners, tailFixpoint_eq]
  apply Marking.ends_fixpoint
  have hcount : ((m.functions.map tailScan).map TailScan.bit).count false ≤ _ :=
    List.count_le_length
  rw [List.length_map, List.length_map] at hcount
  omega

/-- On any code both loops of the analysis come to their end. -/
theorem sentinelReturners_ends (m : Module) : SentinelReturnersEnds m (sentinelReturners m) := by
  refine ⟨m.functions.map tailScan, ?_, marking_ends m⟩
  rw [List.forall₂_map_right_iff, List.forall₂_same]
  exact fun f _ => tailScanLoop_ends (by omega)

section Verified

variable {m : Module} {f : Function} {i : ℕ}

private theorem tailScan_of_contains {insns : List Insn} (hcode : f.code = Insn.encodeAll insns)
    (hinsns : ∀ i ∈ insns, i.Encodable) :
    (tailScan f).bit = insns.any Insn.isTailCall ∧
      (tailScan f).callees = insns.filterMap Insn.sibling := by
  have hscan : tailScan f = _ :=
    tailScanLoop_eq (Nat.zero_le _) (by omega) (by rwa [List.drop_zero]) hinsns
  rw [hscan]
  exact ⟨Bool.false_or _, List.nil_append _⟩

/-- The scan finds out whether there is a tail call. -/
theorem tailScan_bit_iff {insns : List Insn} (hf : f.WellFormed m insns) :
    (tailScan f).bit = true ↔ ∃ insn, f.Contains insn ∧ insn.isTailCall = true := by
  constructor
  · intro hbit
    rw [(tailScan_of_contains hf.code_eq hf.encodable).1, List.any_eq_true] at hbit
    obtain ⟨insn, hmem, htail⟩ := hbit
    exact ⟨insn, ⟨insns, hf.code_eq, hf.encodable, hmem⟩, htail⟩
  · rintro ⟨insn, ⟨insns', hcode, hinsns, hmem⟩, htail⟩
    rw [(tailScan_of_contains hcode hinsns).1, List.any_eq_true]
    exact ⟨insn, hmem, htail⟩

/-- The scan finds the functions that are called. -/
theorem mem_tailScan_callees_iff {insns : List Insn} (hf : f.WellFormed m insns) {c : UInt32} :
    c ∈ (tailScan f).callees ↔ ∃ insn, f.Contains insn ∧ insn.sibling = some c := by
  constructor
  · intro hc
    rw [(tailScan_of_contains hf.code_eq hf.encodable).2, List.mem_filterMap] at hc
    obtain ⟨insn, hmem, hcall⟩ := hc
    exact ⟨insn, ⟨insns, hf.code_eq, hf.encodable, hmem⟩, hcall⟩
  · rintro ⟨insn, ⟨insns', hcode, hinsns, hmem⟩, hcall⟩
    rw [(tailScan_of_contains hcode hinsns).2, List.mem_filterMap]
    exact ⟨insn, hmem, hcall⟩

private theorem callee_lt {insns : List Insn} (hf : f.WellFormed m insns) {c : UInt32}
    (hc : c ∈ (tailScan f).callees) : c.toNat < m.functions.length := by
  rw [(tailScan_of_contains hf.code_eq hf.encodable).2, List.mem_filterMap] at hc
  obtain ⟨insn, hmem, hcall⟩ := hc
  cases insn <;> cases hcall
  obtain ⟨g, hg, -⟩ := (hf.operands _ hmem).callees_ok _ (List.mem_singleton_self _)
  exact (List.getElem?_eq_some_iff.mp hg).1

private theorem callees_getD (hf : m.functions[i]? = some f) :
    (((m.functions.map tailScan).map TailScan.callees).getD i []) = (tailScan f).callees := by
  simp [List.getD, hf]

private theorem calls_of_callsTailer (hm : verify m = .ok ()) {bits : List Bool}
    (hlen : bits.length = m.functions.length)
    (h : callsTailer ((m.functions.map tailScan).map TailScan.callees) bits i = true) :
    ∃ j, m.Calls i j ∧ bits[j]? = some true := by
  rw [callsTailer, List.any_eq_true] at h
  obtain ⟨c, hc, hbit⟩ := h
  cases hf : m.functions[i]? with
  | none => simp [List.getD, hf] at hc
  | some f =>
    rw [callees_getD hf] at hc
    obtain ⟨insns, hwf⟩ := (verify_eq_ok_iff m).mp hm f (List.mem_of_getElem? hf)
    obtain ⟨insn, hin, hcall⟩ := (mem_tailScan_callees_iff hwf).mp hc
    refine ⟨c.toNat, ⟨f, insn, c, hf, hin, hcall, rfl⟩, ?_⟩
    rw [List.getElem?_eq_getElem (hlen ▸ callee_lt hwf hc), Option.getD_some] at hbit
    rw [List.getElem?_eq_getElem (hlen ▸ callee_lt hwf hc), hbit]

private theorem callsTailer_of_calls (hm : verify m = .ok ()) {bits : List Bool} {j : ℕ}
    (hcalls : m.Calls i j) (hbit : bits[j]? = some true) :
    callsTailer ((m.functions.map tailScan).map TailScan.callees) bits i = true := by
  obtain ⟨f, insn, c, hf, hin, hcall, rfl⟩ := hcalls
  obtain ⟨insns, hwf⟩ := (verify_eq_ok_iff m).mp hm f (List.mem_of_getElem? hf)
  rw [callsTailer, List.any_eq_true, callees_getD hf]
  exact ⟨c, (mem_tailScan_callees_iff hwf).mpr ⟨insn, hin, hcall⟩, by rw [hbit]; rfl⟩

private theorem bit_iff_tailCalls (hm : verify m = .ok ()) :
    ((m.functions.map tailScan).map TailScan.bit)[i]? = some true ↔ m.TailCalls i := by
  rw [List.getElem?_map, List.getElem?_map, Option.map_map, Option.map_eq_some_iff]
  constructor
  · rintro ⟨f, hf, hbit⟩
    obtain ⟨insns, hwf⟩ := (verify_eq_ok_iff m).mp hm f (List.mem_of_getElem? hf)
    obtain ⟨insn, hin, htail⟩ := (tailScan_bit_iff hwf).mp hbit
    exact ⟨f, insn, hf, hin, htail⟩
  · rintro ⟨f, insn, hf, hin, htail⟩
    obtain ⟨insns, hwf⟩ := (verify_eq_ok_iff m).mp hm f (List.mem_of_getElem? hf)
    exact ⟨f, hf, (tailScan_bit_iff hwf).mpr ⟨insn, hin, htail⟩⟩

/-- There is a bit for every function. -/
theorem length_sentinelReturners (m : Module) :
    (sentinelReturners m).length = m.functions.length := by
  have hlen := List.Forall₂.length_eq (marking_ends m).grows
  simpa using hlen.symm

/-- The bit of a function is set exactly when calls lead from it to a tail call. -/
theorem sentinelReturners_iff (hm : verify m = .ok ()) :
    (sentinelReturners m)[i]? = some true ↔ m.ReachesTailCall i := by
  have hends := marking_ends m
  constructor
  · refine hends.invariant (P := m.ReachesTailCall) (n := m.functions.length) ?_ (by simp)
      (fun j hj => ?_) i
    · intro bits hlen hold j hj
      obtain ⟨k, hcalls, hbit⟩ := calls_of_callsTailer hm hlen hj
      obtain ⟨l, hpath, htail⟩ := hold k hbit
      exact ⟨l, .head hcalls hpath, htail⟩
    · exact ⟨j, .refl, (bit_iff_tailCalls hm).mp hj⟩
  · rintro ⟨j, hpath, htail⟩
    induction hpath using Relation.ReflTransGen.head_induction_on with
    | refl => exact hends.grows.marked ((bit_iff_tailCalls hm).mpr htail)
    | @head k l hcalls _ ih =>
      have hk : k < (sentinelReturners m).length := by
        obtain ⟨f, _, _, hf, -⟩ := hcalls
        rw [length_sentinelReturners]
        exact (List.getElem?_eq_some_iff.mp hf).1
      exact hends.closed k hk (callsTailer_of_calls hm hcalls ih)

end Verified

end Yggdrasil
