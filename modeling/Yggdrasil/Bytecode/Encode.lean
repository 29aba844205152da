import Yggdrasil.Bytecode.Codec
import Yggdrasil.Bytecode.Insn

/-!
# The encoding of instructions

An instruction is its opcode byte followed by its operands in little-endian order,
with a count before a list of registers. The decoder reads exactly these encodings.
-/

namespace Yggdrasil

open StateT (Reads)

/-- The opcode byte. -/
def Reg1Op.toByte : Reg1Op → UInt8
  | loadNil => 3
  | selfPid => 5
  | recv => 22
  | ticks => 54
  | print => 23
  | ret => 19
  | exitAtom => 24
  | sleepMs => 51

/-- The opcode byte. -/
def Reg2Op.toByte : Reg2Op → UInt8
  | move => 4
  | head => 9
  | tail => 10
  | send => 21
  | bnot => 33
  | binFromList => 35
  | binToList => 36
  | binSize => 37
  | bufToBin => 38
  | binToBuf => 39
  | isBinary => 43
  | bufNew => 52

/-- The opcode byte. -/
def Reg3Op.toByte : Reg3Op → UInt8
  | cons => 8
  | add => 11
  | sub => 12
  | mul => 13
  | cmpEq => 14
  | cmpLt => 15
  | band => 28
  | bor => 29
  | bxor => 30
  | bsl => 31
  | bsr => 32
  | binCat => 44
  | listCat => 45
  | mapGet => 41
  | binAt => 55

/-- The opcode byte. -/
def Reg4Op.toByte : Reg4Op → UInt8
  | mapPut => 42
  | binPart => 46
  | bufWrite => 50
  | bufRead => 53

/-- The opcode byte. -/
def Op.toByte : Op → UInt8
  | nop => 0
  | loadInt => 1
  | loadAtom => 2
  | reg1 o => o.toByte
  | reg2 o => o.toByte
  | reg3 o => o.toByte
  | reg4 o => o.toByte
  | makeTuple => 6
  | getElem => 7
  | jmp => 16
  | jmpIf => 17
  | call => 18
  | spawn => 20
  | portOpen => 25
  | portSubmit => 26
  | callExt => 27
  | binNew => 34
  | mapNew => 40
  | tailCallExt => 47
  | portSubmit2 => 48
  | tailCall => 49

private theorem Op.ofByte_toByte (op : Op) : ofByte op.toByte = some op := by
  cases op with
  | reg1 o => cases o <;> rfl
  | reg2 o => cases o <;> rfl
  | reg3 o => cases o <;> rfl
  | reg4 o => cases o <;> rfl
  | _ => rfl

/-- The byte of an opcode. -/
theorem Op.ofByte_eq_some_iff {b : UInt8} {op : Op} : ofByte b = some op ↔ b = op.toByte := by
  constructor
  · intro h
    apply UInt8.toNat_inj.mp
    unfold ofByte at h
    split at h
    all_goals
      rename_i hb
      cases h
    all_goals exact hb
  · rintro rfl
    exact ofByte_toByte op

namespace Insn

/-- The opcode. -/
def op : Insn → Op
  | nop => .nop
  | loadInt _ _ => .loadInt
  | loadAtom _ _ => .loadAtom
  | reg1 o _ => .reg1 o
  | reg2 o _ _ => .reg2 o
  | reg3 o _ _ _ => .reg3 o
  | reg4 o _ _ _ _ => .reg4 o
  | makeTuple _ _ => .makeTuple
  | getElem _ _ _ => .getElem
  | jmp _ => .jmp
  | jmpIf _ _ => .jmpIf
  | call _ _ _ => .call
  | spawn _ _ _ => .spawn
  | portOpen _ _ => .portOpen
  | portSubmit _ _ _ _ => .portSubmit
  | callExt _ _ _ _ => .callExt
  | binNew _ _ => .binNew
  | mapNew _ _ => .mapNew
  | tailCallExt _ _ _ => .tailCallExt
  | portSubmit2 _ _ _ _ _ => .portSubmit2
  | tailCall _ _ => .tailCall

/-- A list of registers with its count. -/
def encodeRegs (rs : List UInt8) : List UInt8 := UInt8.ofNat rs.length :: rs

/-- A jump offset. -/
def encodeOffset (off : ℤ) : List UInt8 := leBytes 4 (BitVec.ofInt 32 off).toNat

/-- The operands of an instruction. -/
def operandBytes : Insn → List UInt8
  | nop => []
  | loadInt rd v => rd :: leBytes 8 v.toNat
  | loadAtom rd a => rd :: leBytes 4 a.toNat
  | reg1 _ r => [r]
  | reg2 _ a b => [a, b]
  | reg3 _ a b c => [a, b, c]
  | reg4 _ a b c d => [a, b, c, d]
  | makeTuple rd rs => rd :: encodeRegs rs
  | getElem rd rs idx => [rd, rs, idx]
  | jmp off => encodeOffset off
  | jmpIf rc off => rc :: encodeOffset off
  | call rd callee args => rd :: leBytes 4 callee.toNat ++ encodeRegs args
  | spawn rd callee ra => rd :: leBytes 4 callee.toNat ++ [ra]
  | portOpen rd kind => [rd, kind]
  | portSubmit rp op ra rt => [rp, op, ra, rt]
  | callExt rd mod fname args =>
    rd :: leBytes 4 mod.toNat ++ leBytes 4 fname.toNat ++ encodeRegs args
  | binNew rd data => rd :: leBytes 4 data.length ++ data
  | mapNew rd pairs => rd :: UInt8.ofNat pairs.length :: pairs.flatMap fun kv => [kv.1, kv.2]
  | tailCallExt mod fname args => leBytes 4 mod.toNat ++ leBytes 4 fname.toNat ++ encodeRegs args
  | portSubmit2 rp ro ra0 ra1 rt => [rp, ro, ra0, ra1, rt]
  | tailCall callee args => leBytes 4 callee.toNat ++ encodeRegs args

/-- The encoding of an instruction. -/
def encode (i : Insn) : List UInt8 := i.op.toByte :: i.operandBytes

/-- Counts, lengths and offsets fit their fields. -/
def Encodable : Insn → Prop
  | makeTuple _ rs => rs.length < 2 ^ 8
  | jmp off | jmpIf _ off => -2 ^ 31 ≤ off ∧ off < 2 ^ 31
  | call _ _ args | callExt _ _ _ args | tailCallExt _ _ args | tailCall _ args =>
    args.length < 2 ^ 8
  | binNew _ data => data.length < 2 ^ 32
  | mapNew _ pairs => pairs.length < 2 ^ 8
  | _ => True

end Insn

namespace Dec

variable {code : List UInt8}

private theorem reads_bytes (n : ℕ) :
    Reads code (bytes code n) fun s w => s = w ∧ w.length = n := by
  intro pos hpos s next
  change (slice code pos n).map _ = some (s, next) ↔ _
  simp only [Option.map_eq_some_iff, slice_eq_some_iff, Prod.mk.injEq]
  constructor
  · rintro ⟨-, ⟨hle, rfl⟩, rfl, rfl⟩
    have hlen : ((code.drop pos).take n).length = n := by
      rw [List.length_take, List.length_drop]
      omega
    exact ⟨_, ⟨rfl, hlen⟩, List.take_prefix _ _, by rw [hlen]⟩
  · rintro ⟨w, ⟨rfl, rfl⟩, hpre, rfl⟩
    have hle := hpre.length_le
    rw [List.length_drop] at hle
    exact ⟨s, ⟨by omega, List.prefix_iff_eq_take.mp hpre⟩, rfl, rfl⟩

private theorem u8_eq : u8 code = do return (← bytes code 1).headD 0 := by
  funext pos
  change _ = ((slice code pos 1).map _).bind _
  simp only [u8, slice]
  by_cases hlt : pos < code.length
  · rw [if_pos (by omega), List.getElem?_eq_getElem hlt, List.drop_eq_getElem_cons hlt]
    rfl
  · rw [if_neg (by omega), List.getElem?_eq_none (by omega)]
    rfl

private theorem u32_eq : u32 code = do return UInt32.ofNat (leNat (← bytes code 4)) := by
  funext pos
  change _ = ((slice code pos 4).map _).bind _
  simp only [u32, getU32]
  cases slice code pos 4 <;> rfl

private theorem i64_eq : i64 code = do return BitVec.ofNat 64 (leNat (← bytes code 8)) := by
  funext pos
  change _ = ((slice code pos 8).map _).bind _
  simp only [i64, getI64]
  cases slice code pos 8 <;> rfl

private theorem reads_u8 : Reads code (u8 code) fun b w => w = [b] := by
  rw [u8_eq]
  refine ((reads_bytes 1).bind fun s => .pure _).congr fun b w => ?_
  constructor
  · rintro ⟨s, u, v, ⟨rfl, hlen⟩, ⟨rfl, rfl⟩, rfl⟩
    obtain ⟨c, rfl⟩ := List.length_eq_one_iff.mp hlen
    rfl
  · rintro rfl
    exact ⟨[b], [b], [], ⟨rfl, rfl⟩, ⟨rfl, rfl⟩, rfl⟩

private theorem reads_le {α : Type} {n : ℕ} {num : α → ℕ} {val : ℕ → α}
    (hlt : ∀ a, num a < 256 ^ n) (hnum : ∀ v < 256 ^ n, num (val v) = v)
    (hval : ∀ a, val (num a) = a) :
    Reads code (do return val (leNat (← bytes code n)) : Dec α) fun a w =>
      w = leBytes n (num a) := by
  refine ((reads_bytes n).bind fun s => .pure _).congr fun a w => ?_
  rw [eq_leBytes_iff (hlt a)]
  constructor
  · rintro ⟨s, u, v, ⟨rfl, hlen⟩, ⟨rfl, rfl⟩, rfl⟩
    have hs : leNat s < 256 ^ n := hlen ▸ leNat_lt s
    rw [List.append_nil, hnum _ hs]
    exact ⟨hlen, rfl⟩
  · rintro ⟨hlen, hleNat⟩
    refine ⟨w, w, [], ⟨rfl, hlen⟩, ⟨?_, rfl⟩, (List.append_nil w).symm⟩
    rw [hleNat, hval]

private theorem reads_u32 : Reads code (u32 code) fun v w => w = leBytes 4 v.toNat := by
  rw [u32_eq]
  refine reads_le (fun a => a.toNat_lt) (fun v hv => ?_) fun a => UInt32.ofNat_toNat
  exact UInt32.toNat_ofNat'.trans (Nat.mod_eq_of_lt hv)

private theorem reads_i64 : Reads code (i64 code) fun v w => w = leBytes 8 v.toNat := by
  rw [i64_eq]
  refine reads_le (fun a => a.isLt) (fun v hv => ?_) fun a => BitVec.ofNat_toNat ..
  exact (BitVec.toNat_ofNat ..).trans (Nat.mod_eq_of_lt hv)

private theorem reads_regs (n : ℕ) :
    Reads code (regs code n) fun rs w => rs.length = n ∧ w = rs := by
  induction n with
  | zero =>
    refine (Reads.pure []).congr fun rs w => ?_
    rw [List.length_eq_zero_iff]
    constructor
    · rintro ⟨rfl, rfl⟩
      exact ⟨rfl, rfl⟩
    · rintro ⟨rfl, rfl⟩
      exact ⟨rfl, rfl⟩
  | succ n ih =>
    refine (reads_u8.bind fun r => ih.bind fun rs => .pure _).congr fun rs w => ?_
    constructor
    · rintro ⟨r, _, _, rfl, ⟨rest, _, _, ⟨hlen, rfl⟩, ⟨rfl, rfl⟩, rfl⟩, rfl⟩
      simp [hlen]
    · rintro ⟨hlen, rfl⟩
      obtain ⟨r, rest, rfl⟩ := List.exists_cons_of_length_eq_add_one hlen
      exact ⟨r, [r], rest, rfl, ⟨rest, rest, [], ⟨by simpa using hlen, rfl⟩, ⟨rfl, rfl⟩, by simp⟩,
        rfl⟩

private theorem reads_regPairs (n : ℕ) :
    Reads code (regPairs code n) fun ps w =>
      ps.length = n ∧ w = ps.flatMap fun kv => [kv.1, kv.2] := by
  induction n with
  | zero =>
    refine (Reads.pure []).congr fun ps w => ?_
    rw [List.length_eq_zero_iff]
    constructor
    · rintro ⟨rfl, rfl⟩
      exact ⟨rfl, rfl⟩
    · rintro ⟨rfl, rfl⟩
      exact ⟨rfl, rfl⟩
  | succ n ih =>
    refine (reads_u8.bind fun k => reads_u8.bind fun v => ih.bind fun ps => .pure _).congr
      fun ps w => ?_
    constructor
    · rintro ⟨k, -, -, rfl, ⟨v, -, -, rfl, ⟨rest, -, -, ⟨hlen, rfl⟩, ⟨rfl, rfl⟩, rfl⟩, rfl⟩, rfl⟩
      simp [hlen]
    · rintro ⟨hlen, rfl⟩
      obtain ⟨⟨k, v⟩, rest, rfl⟩ := List.exists_cons_of_length_eq_add_one hlen
      exact ⟨k, [k], _, rfl, ⟨v, [v], _, rfl, ⟨rest, _, [], ⟨by simpa using hlen, rfl⟩,
        ⟨rfl, rfl⟩, rfl⟩, rfl⟩, by simp⟩

/-- A count and that many registers. -/
private theorem reads_counted {α : Type} {g : List UInt8 → α} :
    Reads code (do return g (← regs code (← u8 code).toNat) : Dec α)
      fun a w => ∃ rs, rs.length < 2 ^ 8 ∧ a = g rs ∧ w = Insn.encodeRegs rs := by
  refine (reads_u8.bind fun n => (reads_regs n.toNat).bind fun rs => .pure _).congr fun a w => ?_
  constructor
  · rintro ⟨n, _, _, rfl, ⟨rs, w, _, ⟨hlen, hw⟩, ⟨rfl, rfl⟩, rfl⟩, rfl⟩
    subst hw
    refine ⟨_, hlen ▸ n.toNat_lt, rfl, ?_⟩
    simp [Insn.encodeRegs, hlen]
  · rintro ⟨rs, hlt, rfl, rfl⟩
    have hn : (UInt8.ofNat rs.length).toNat = rs.length := by
      rw [UInt8.toNat_ofNat', Nat.mod_eq_of_lt hlt]
    exact ⟨UInt8.ofNat rs.length, _, rs, rfl,
      ⟨rs, rs, [], ⟨hn.symm, rfl⟩, ⟨rfl, rfl⟩, by simp⟩, rfl⟩

/-- A jump offset. -/
private theorem reads_offset {α : Type} {g : ℤ → α} :
    Reads code (do return g (asI32 (← u32 code)) : Dec α)
      fun a w => ∃ off : ℤ, (-2 ^ 31 ≤ off ∧ off < 2 ^ 31) ∧ a = g off ∧
        w = Insn.encodeOffset off := by
  refine (reads_u32.bind fun v => .pure _).congr fun a w => ?_
  constructor
  · rintro ⟨v, -, -, rfl, ⟨rfl, rfl⟩, rfl⟩
    refine ⟨asI32 v, ⟨BitVec.le_toInt _, BitVec.toInt_lt⟩, rfl, ?_⟩
    rw [Insn.encodeOffset, asI32, BitVec.ofInt_toInt, List.append_nil]
    rfl
  · rintro ⟨off, ⟨hle, hlt⟩, rfl, rfl⟩
    refine ⟨⟨BitVec.ofInt 32 off⟩, _, [], rfl, ⟨?_, rfl⟩, ?_⟩
    · rw [asI32, BitVec.toInt_ofInt_eq_self (by decide) hle hlt]
    · rw [List.append_nil]
      rfl

/-- The operands of an opcode are read from their bytes. -/
private theorem reads_operands (op : Op) :
    Reads code (operands code op) fun i w => i.op = op ∧ i.Encodable ∧ w = i.operandBytes := by
  cases op
  case binNew =>
    refine (reads_u8.bind fun rd => reads_u32.bind fun len => (reads_bytes len.toNat).bind
      fun data => .pure _).congr fun i w => ?_
    constructor
    · rintro ⟨rd, _, _, rfl, ⟨len, _, _, rfl, ⟨data, _, _, ⟨rfl, hlen⟩, ⟨rfl, rfl⟩, rfl⟩, rfl⟩,
        rfl⟩
      refine ⟨rfl, lt_of_eq_of_lt hlen len.toNat_lt, ?_⟩
      simp [Insn.operandBytes, hlen]
    · rintro ⟨hop, hok, rfl⟩
      cases i <;> cases hop
      rename_i rd data
      have hlen : (UInt32.ofNat data.length).toNat = data.length :=
        UInt32.toNat_ofNat'.trans (Nat.mod_eq_of_lt hok)
      refine ⟨rd, _, _, rfl, ⟨UInt32.ofNat data.length, _, _, rfl,
        ⟨data, _, [], ⟨rfl, hlen.symm⟩, ⟨rfl, rfl⟩, rfl⟩, rfl⟩, ?_⟩
      simp [Insn.operandBytes, hlen]
  case mapNew =>
    refine (reads_u8.bind fun rd => reads_u8.bind fun n => (reads_regPairs n.toNat).bind
      fun pairs => .pure _).congr fun i w => ?_
    constructor
    · rintro ⟨rd, _, _, rfl, ⟨n, _, _, rfl, ⟨pairs, _, _, ⟨hlen, rfl⟩, ⟨rfl, rfl⟩, rfl⟩, rfl⟩, rfl⟩
      refine ⟨rfl, lt_of_eq_of_lt hlen n.toNat_lt, ?_⟩
      simp [Insn.operandBytes, hlen]
    · rintro ⟨hop, hok, rfl⟩
      cases i <;> cases hop
      rename_i rd pairs
      have hlen : (UInt8.ofNat pairs.length).toNat = pairs.length :=
        UInt8.toNat_ofNat'.trans (Nat.mod_eq_of_lt hok)
      refine ⟨rd, _, _, rfl, ⟨UInt8.ofNat pairs.length, _, _, rfl,
        ⟨pairs, _, [], ⟨hlen.symm, rfl⟩, ⟨rfl, rfl⟩, rfl⟩, rfl⟩, ?_⟩
      simp [Insn.operandBytes]
  case' nop =>
    refine (Reads.pure _).congr fun i w => ?_
  case' loadInt =>
    refine (reads_u8.bind fun rd => reads_i64.bind fun v => .pure _).congr fun i w => ?_
  case' loadAtom =>
    refine (reads_u8.bind fun rd => reads_u32.bind fun v => .pure _).congr fun i w => ?_
  case' reg1 o =>
    refine (reads_u8.bind fun a => .pure _).congr fun i w => ?_
  case' reg2 o =>
    refine (reads_u8.bind fun a => reads_u8.bind fun b => .pure _).congr fun i w => ?_
  case' reg3 o =>
    refine (reads_u8.bind fun a => reads_u8.bind fun b => reads_u8.bind fun c =>
      .pure _).congr fun i w => ?_
  case' reg4 o =>
    refine (reads_u8.bind fun a => reads_u8.bind fun b => reads_u8.bind fun c =>
      reads_u8.bind fun d => .pure _).congr fun i w => ?_
  case' makeTuple =>
    refine (reads_u8.bind fun rd => reads_counted).congr fun i w => ?_
  case' getElem =>
    refine (reads_u8.bind fun a => reads_u8.bind fun b => reads_u8.bind fun c =>
      .pure _).congr fun i w => ?_
  case' jmp =>
    refine reads_offset.congr fun i w => ?_
  case' jmpIf =>
    refine (reads_u8.bind fun rc => reads_offset).congr fun i w => ?_
  case' call =>
    refine (reads_u8.bind fun rd => reads_u32.bind fun callee => reads_counted).congr fun i w => ?_
  case' spawn =>
    refine (reads_u8.bind fun rd => reads_u32.bind fun callee => reads_u8.bind fun ra =>
      .pure _).congr fun i w => ?_
  case' portOpen =>
    refine (reads_u8.bind fun a => reads_u8.bind fun b => .pure _).congr fun i w => ?_
  case' portSubmit =>
    refine (reads_u8.bind fun a => reads_u8.bind fun b => reads_u8.bind fun c =>
      reads_u8.bind fun d => .pure _).congr fun i w => ?_
  case' callExt =>
    refine (reads_u8.bind fun rd => reads_u32.bind fun mod => reads_u32.bind fun fname =>
      reads_counted).congr fun i w => ?_
  case' tailCallExt =>
    refine (reads_u32.bind fun mod => reads_u32.bind fun fname => reads_counted).congr fun i w => ?_
  case' portSubmit2 =>
    refine (reads_u8.bind fun a => reads_u8.bind fun b => reads_u8.bind fun c =>
      reads_u8.bind fun d => reads_u8.bind fun e => .pure _).congr fun i w => ?_
  case' tailCall =>
    refine (reads_u32.bind fun callee => reads_counted).congr fun i w => ?_
  -- the others follow the reads of their opcode, which leaves one shape of instruction
  all_goals cases i <;> simp [Insn.op, Insn.Encodable, Insn.operandBytes]

/-- An instruction is read from its encoding. -/
theorem reads_insn : Reads code (insn code) fun i w => i.Encodable ∧ w = i.encode := by
  have hop : ∀ b : UInt8, Reads code
      ((Op.ofByte b).elim failure (operands code) : Dec Insn)
      fun i w => b = i.op.toByte ∧ i.Encodable ∧ w = i.operandBytes := by
    intro b
    cases hb : Op.ofByte b with
    | none =>
      refine Reads.failure.congr fun i w => ?_
      constructor
      · exact False.elim
      · rintro ⟨hbyte, -⟩
        rw [Op.ofByte_eq_some_iff.mpr hbyte] at hb
        cases hb
    | some op =>
      refine (reads_operands op).congr fun i w => and_congr_left fun _ => ?_
      rw [← Op.ofByte_eq_some_iff, hb, Option.some.injEq, eq_comm]
  have hinsn : insn code = (do (Op.ofByte (← u8 code)).elim failure (operands code)) := by
    unfold insn
    congr! 2 with b
    cases Op.ofByte b <;> rfl
  rw [hinsn]
  refine (reads_u8.bind hop).congr fun i w => ?_
  constructor
  · rintro ⟨b, -, -, rfl, ⟨rfl, hok, rfl⟩, rfl⟩
    exact ⟨hok, rfl⟩
  · rintro ⟨hok, rfl⟩
    exact ⟨_, _, _, rfl, ⟨rfl, hok, rfl⟩, rfl⟩

end Dec

/-- An instruction is decoded where its encoding stands. -/
theorem decodeAt_eq_some_iff {code : List UInt8} {pos next : ℕ} {i : Insn}
    (hpos : pos ≤ code.length) :
    decodeAt code pos = some (i, next) ↔
      i.Encodable ∧ i.encode <+: code.drop pos ∧ next = pos + i.encode.length := by
  refine (Dec.reads_insn pos hpos i next).trans ?_
  constructor
  · rintro ⟨-, ⟨hok, rfl⟩, hpre, hnext⟩
    exact ⟨hok, hpre, hnext⟩
  · rintro ⟨hok, hpre, hnext⟩
    exact ⟨_, ⟨hok, rfl⟩, hpre, hnext⟩

end Yggdrasil
