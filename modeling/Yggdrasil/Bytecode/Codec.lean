import Yggdrasil.Bytecode.Module
import Yggdrasil.Lib.Grammar

/-!
# The binary format is a prefix code

What the decoder reads is specified as a grammar: each reader reads exactly the
encodings of the values whose lengths fit their fields. That the format is a prefix
code with an exact round trip follows from this at the position 0.
-/

namespace Yggdrasil

open StateT (Reads)

/-- Little-endian strings have the width of their field. -/
@[simp] theorem length_leBytes (n v : ℕ) : (leBytes n v).length = n := by
  induction n generalizing v with
  | zero => rfl
  | succ n ih => rw [leBytes, List.length_cons, ih]

/-- The number a field holds. -/
theorem leNat_leBytes (n v : ℕ) : leNat (leBytes n v) = v % 256 ^ n := by
  induction n generalizing v with
  | zero => rw [leBytes, leNat, pow_zero, Nat.mod_one]
  | succ n ih =>
    have hbyte : (UInt8.ofNat v).toNat = v % 256 := UInt8.toNat_ofNat'
    rw [leBytes, leNat, ih, hbyte, pow_succ', Nat.mod_mul]

/-- The field a number was read from. -/
theorem leBytes_leNat (bs : List UInt8) : leBytes bs.length (leNat bs) = bs := by
  induction bs with
  | nil => rfl
  | cons b bs ih =>
    have hb := b.toNat_lt
    have hdiv : (b.toNat + 256 * leNat bs) / 256 = leNat bs := by omega
    have hbyte : UInt8.ofNat (b.toNat + 256 * leNat bs) = b := by
      apply UInt8.toNat_inj.mp
      rw [UInt8.toNat_ofNat']
      omega
    rw [List.length_cons, leNat, leBytes, hdiv, ih, hbyte]

/-- A field of `n` bytes holds `v` and nothing else. -/
theorem eq_leBytes_iff {n v : ℕ} {w : List UInt8} (hv : v < 256 ^ n) :
    w = leBytes n v ↔ w.length = n ∧ leNat w = v := by
  constructor
  · rintro rfl
    rw [length_leBytes, leNat_leBytes, Nat.mod_eq_of_lt hv]
    exact ⟨rfl, rfl⟩
  · rintro ⟨rfl, rfl⟩
    rw [leBytes_leNat]

/-- A string of bytes spells a number below the range of its width. -/
theorem leNat_lt (bs : List UInt8) : leNat bs < 256 ^ bs.length := by
  rw [← leBytes_leNat bs, leNat_leBytes, length_leBytes]
  exact Nat.mod_lt _ (Nat.pow_pos (by decide))

namespace Reader

variable {bytes : List UInt8}

/-- The next `n` bytes are any word of that length. -/
theorem reads_take (n : ℕ) : Reads bytes (take bytes n) fun s w => s = w ∧ w.length = n := by
  intro pos hpos s next
  unfold take
  split
  · rename_i hlt
    constructor
    · intro h
      cases h
    · rintro ⟨w, ⟨-, hlen⟩, hpre, -⟩
      have hle := hpre.length_le
      rw [List.length_drop] at hle
      omega
  · rename_i hge
    have hlen : ((bytes.drop pos).take n).length = n := by
      rw [List.length_take, List.length_drop]
      omega
    change Except.ok _ = Except.ok _ ↔ _
    rw [Except.ok.injEq, Prod.mk.injEq]
    constructor
    · rintro ⟨rfl, rfl⟩
      exact ⟨_, ⟨rfl, hlen⟩, List.take_prefix _ _, by rw [hlen]⟩
    · rintro ⟨w, ⟨rfl, hw⟩, hpre, rfl⟩
      rw [List.prefix_iff_eq_take.mp hpre, hw]
      exact ⟨rfl, by rw [hlen]⟩

/-- A byte stands for itself. -/
theorem reads_u8 : Reads bytes (u8 bytes) fun b w => w = [b] := by
  refine ((reads_take 1).bind fun s => .pure _).congr fun b w => ?_
  constructor
  · rintro ⟨s, u, v, ⟨rfl, hlen⟩, ⟨rfl, rfl⟩, rfl⟩
    obtain ⟨c, rfl⟩ := List.length_eq_one_iff.mp hlen
    rfl
  · rintro rfl
    exact ⟨[b], [b], [], ⟨rfl, rfl⟩, ⟨rfl, rfl⟩, rfl⟩

/-- A number below `2 ^ 16` is read from its two bytes. -/
theorem reads_u16 : Reads bytes (u16 bytes) fun n w => n < 2 ^ 16 ∧ w = leBytes 2 n := by
  refine ((reads_take 2).bind fun s => .pure _).congr fun n w => ?_
  constructor
  · rintro ⟨s, u, v, ⟨rfl, hlen⟩, ⟨rfl, rfl⟩, rfl⟩
    have hlt : leNat s < 256 ^ 2 := hlen ▸ leNat_lt s
    rw [List.append_nil]
    exact ⟨hlt, (eq_leBytes_iff hlt).mpr ⟨hlen, rfl⟩⟩
  · rintro ⟨hn, hw⟩
    obtain ⟨hlen, rfl⟩ := (eq_leBytes_iff (show n < 256 ^ 2 from hn)).mp hw
    exact ⟨w, w, [], ⟨rfl, hlen⟩, ⟨rfl, rfl⟩, (List.append_nil w).symm⟩

/-- A `u32` is read from its four bytes. -/
theorem reads_u32 : Reads bytes (u32 bytes) fun v w => w = leBytes 4 v.toNat := by
  refine ((reads_take 4).bind fun s => .pure _).congr fun n w => ?_
  have hn : n.toNat < 256 ^ 4 := n.toNat_lt
  rw [eq_leBytes_iff hn]
  constructor
  · rintro ⟨s, u, v, ⟨rfl, hlen⟩, ⟨rfl, rfl⟩, rfl⟩
    have hlt : leNat s < 256 ^ 4 := hlen ▸ leNat_lt s
    rw [List.append_nil, UInt32.toNat_ofNat']
    exact ⟨hlen, (Nat.mod_eq_of_lt hlt).symm⟩
  · rintro ⟨hlen, hval⟩
    refine ⟨w, w, [], ⟨rfl, hlen⟩, ⟨?_, rfl⟩, (List.append_nil w).symm⟩
    rw [hval, UInt32.ofNat_toNat]

/-- Items in a row are read from their encodings in a row. -/
theorem reads_times {α : Type} {item : Reader α} {ok : α → Prop} {enc : α → List UInt8}
    (hitem : Reads bytes item fun a w => ok a ∧ w = enc a) (n : ℕ) :
    Reads bytes (times item n) fun as w =>
      as.length = n ∧ (∀ a ∈ as, ok a) ∧ w = as.flatMap enc := by
  induction n with
  | zero =>
    refine (Reads.pure []).congr fun as w => ?_
    rw [List.length_eq_zero_iff]
    constructor
    · rintro ⟨rfl, rfl⟩
      exact ⟨rfl, by simp, rfl⟩
    · rintro ⟨rfl, -, rfl⟩
      exact ⟨rfl, rfl⟩
  | succ n ih =>
    refine (hitem.bind fun a => ih.bind fun as => .pure _).congr fun as w => ?_
    constructor
    · rintro ⟨a, -, -, ⟨ha, rfl⟩, ⟨rest, -, -, ⟨hlen, hok, rfl⟩, ⟨rfl, rfl⟩, rfl⟩, rfl⟩
      refine ⟨by rw [List.length_cons, hlen], ?_, by simp⟩
      simpa using ⟨ha, hok⟩
    · rintro ⟨hlen, hok, rfl⟩
      obtain ⟨a, rest, rfl⟩ := List.exists_cons_of_length_eq_add_one hlen
      rw [List.forall_mem_cons] at hok
      refine ⟨a, _, _, ⟨hok.1, rfl⟩, ⟨rest, _, [], ⟨?_, hok.2, rfl⟩, ⟨rfl, rfl⟩, rfl⟩, by simp⟩
      simpa using hlen

/-- An atom is read from its encoding when its length fits the field. -/
theorem reads_atom :
    Reads bytes (atom bytes) fun a w => a.utf8ByteSize < 2 ^ 16 ∧ w = encodeAtom a := by
  have hutf : ∀ raw : List UInt8, Reads bytes
      ((String.fromUTF8? ⟨raw.toArray⟩).elim (throw .badUtf8) pure : Reader String)
      fun a w => a.toUTF8.data.toList = raw ∧ w = [] := by
    intro raw
    unfold String.fromUTF8?
    by_cases hvalid : (⟨raw.toArray⟩ : ByteArray).IsValidUTF8
    · rw [dif_pos hvalid]
      refine (Reads.pure _).congr fun a w => and_congr_left fun _ => ?_
      constructor
      · rintro rfl
        rfl
      · rintro rfl
        rfl
    · rw [dif_neg hvalid]
      refine (Reads.throw _).congr fun a w => ?_
      constructor
      · exact False.elim
      · rintro ⟨rfl, -⟩
        exact hvalid a.isValidUTF8
  have hatom : atom bytes = (do
      let len ← u16 bytes
      let raw ← take bytes len
      (String.fromUTF8? ⟨raw.toArray⟩).elim (throw .badUtf8) pure) := by
    unfold atom
    congr! 4 with len raw
    cases String.fromUTF8? ⟨raw.toArray⟩ <;> rfl
  rw [hatom]
  refine (reads_u16.bind fun len => (reads_take len).bind hutf).congr fun a w => ?_
  have hsize : a.toUTF8.data.toList.length = a.utf8ByteSize := by simp [String.toUTF8]
  constructor
  · rintro ⟨len, -, -, ⟨hlen, rfl⟩, ⟨raw, -, -, ⟨rfl, rfl⟩, ⟨rfl, rfl⟩, rfl⟩, rfl⟩
    rw [hsize] at hlen ⊢
    rw [List.append_nil]
    exact ⟨hlen, rfl⟩
  · rintro ⟨hlen, rfl⟩
    exact ⟨_, _, _, ⟨hlen, rfl⟩, ⟨_, _, [], ⟨rfl, hsize⟩, ⟨rfl, rfl⟩, rfl⟩, by simp [encodeAtom]⟩

/-- A function is read from its encoding when the length of its code fits the field. -/
theorem reads_function :
    Reads bytes (function bytes) fun f w => f.code.length < 2 ^ 32 ∧ w = f.encode := by
  refine (reads_u32.bind fun nameAtom => reads_u8.bind fun arity => reads_u8.bind fun nregs =>
    reads_u32.bind fun len => (reads_take len.toNat).bind fun code => .pure _).congr fun f w => ?_
  constructor
  · rintro ⟨nameAtom, -, -, rfl, ⟨arity, -, -, rfl, ⟨nregs, -, -, rfl, ⟨len, -, -, rfl,
      ⟨code, _, _, ⟨rfl, hlen⟩, ⟨rfl, rfl⟩, rfl⟩, rfl⟩, rfl⟩, rfl⟩, rfl⟩
    refine ⟨hlen ▸ len.toNat_lt, ?_⟩
    simp [Function.encode, hlen]
  · rintro ⟨hlen, rfl⟩
    have hval : (UInt32.ofNat f.code.length).toNat = f.code.length := by
      rw [UInt32.toNat_ofNat', Nat.mod_eq_of_lt hlen]
    refine ⟨f.nameAtom, _, _, rfl, ⟨f.arity, _, _, rfl, ⟨f.nregs, _, _, rfl,
      ⟨UInt32.ofNat f.code.length, _, _, rfl, ⟨f.code, _, [], ⟨rfl, hval.symm⟩, ⟨rfl, rfl⟩, rfl⟩,
      rfl⟩, rfl⟩, rfl⟩, ?_⟩
    simp [Function.encode, hval]

end Reader

namespace Module

/-- The lengths in a module fit their fields. -/
structure Encodable (m : Module) : Prop where
  /-- Atom names. -/
  atom_lt : ∀ a ∈ m.atoms, a.utf8ByteSize < 2 ^ 16
  /-- The atom table. -/
  atoms_lt : m.atoms.length < 2 ^ 32
  /-- The function table. -/
  functions_lt : m.functions.length < 2 ^ 32
  /-- The code of functions. -/
  code_lt : ∀ f ∈ m.functions, f.code.length < 2 ^ 32

/-- A module is read from its encoding when its lengths fit their fields. -/
theorem reads_module (bytes : List UInt8) :
    Reads bytes (Reader.module bytes) fun m w => m.Encodable ∧ w = m.encode := by
  have hbody : Reads bytes (do
      let natoms ← Reader.u32 bytes
      let atoms ← Reader.times (Reader.atom bytes) natoms.toNat
      let nfns ← Reader.u32 bytes
      let functions ← Reader.times (Reader.function bytes) nfns.toNat
      return { atoms, functions } : Reader Module)
      fun m w => m.Encodable ∧ m.encode = magic ++ w := by
    refine (Reader.reads_u32.bind fun natoms =>
      (Reader.reads_times Reader.reads_atom natoms.toNat).bind fun atoms =>
        Reader.reads_u32.bind fun nfns =>
          (Reader.reads_times Reader.reads_function nfns.toNat).bind fun functions =>
            .pure _).congr fun m w => ?_
    constructor
    · rintro ⟨natoms, -, -, rfl, ⟨atoms, -, -, ⟨hatoms, hatom, rfl⟩, ⟨nfns, -, -, rfl,
        ⟨functions, -, -, ⟨hfns, hfn, rfl⟩, ⟨rfl, rfl⟩, rfl⟩, rfl⟩, rfl⟩, rfl⟩
      refine ⟨⟨hatom, hatoms ▸ natoms.toNat_lt, hfns ▸ nfns.toNat_lt, hfn⟩, ?_⟩
      simp [encode, hatoms, hfns]
    · rintro ⟨hm, hw⟩
      have hatoms : (UInt32.ofNat m.atoms.length).toNat = m.atoms.length := by
        rw [UInt32.toNat_ofNat', Nat.mod_eq_of_lt hm.atoms_lt]
      have hfns : (UInt32.ofNat m.functions.length).toNat = m.functions.length := by
        rw [UInt32.toNat_ofNat', Nat.mod_eq_of_lt hm.functions_lt]
      refine ⟨UInt32.ofNat m.atoms.length, _, _, rfl, ⟨m.atoms, _, _,
        ⟨hatoms.symm, hm.atom_lt, rfl⟩, ⟨UInt32.ofNat m.functions.length, _, _, rfl,
          ⟨m.functions, _, [], ⟨hfns.symm, hm.code_lt, rfl⟩, ⟨rfl, rfl⟩, rfl⟩, rfl⟩, rfl⟩, ?_⟩
      refine @List.append_cancel_left _ magic _ _ ?_
      rw [← hw]
      simp [encode, hatoms, hfns]
  have hguard : ∀ raw : List UInt8, Reads bytes
      (if raw ≠ magic then throw .badMagic else do
        let natoms ← Reader.u32 bytes
        let atoms ← Reader.times (Reader.atom bytes) natoms.toNat
        let nfns ← Reader.u32 bytes
        let functions ← Reader.times (Reader.function bytes) nfns.toNat
        return { atoms, functions } : Reader Module)
      fun m w => raw = magic ∧ m.Encodable ∧ m.encode = magic ++ w := by
    intro raw
    by_cases hraw : raw = magic
    · rw [if_neg (not_not_intro hraw)]
      exact hbody.congr fun m w => by simp [hraw]
    · rw [if_pos hraw]
      exact (Reads.throw _).congr fun m w => by simp [hraw]
  refine ((Reader.reads_take 6).bind hguard).congr fun m w => ?_
  constructor
  · rintro ⟨-, -, v, ⟨rfl, -⟩, ⟨rfl, hm, henc⟩, rfl⟩
    exact ⟨hm, henc.symm⟩
  · rintro ⟨hm, rfl⟩
    refine ⟨magic, magic, m.encode.drop 6, ⟨rfl, rfl⟩, ⟨rfl, hm, ?_⟩, ?_⟩ <;> simp [encode, magic]

/-- Decoding succeeds exactly on strings that begin with an encoding. -/
theorem decode_eq_ok_iff {bytes : List UInt8} {m : Module} :
    decode bytes = .ok m ↔ m.Encodable ∧ m.encode <+: bytes := by
  have hread := reads_module bytes 0 (Nat.zero_le _) m
  have hdecode : decode bytes = .ok m ↔ ∃ next, Reader.module bytes 0 = .ok (m, next) := by
    unfold decode StateT.run
    cases Reader.module bytes 0 with
    | error e => simp [bind, Except.bind]
    | ok p => simp [bind, Except.bind, pure, Except.pure, Prod.ext_iff]
  rw [hdecode]
  constructor
  · rintro ⟨next, h⟩
    obtain ⟨-, ⟨hm, rfl⟩, hpre, -⟩ := (hread next).mp h
    exact ⟨hm, hpre⟩
  · rintro ⟨hm, hpre⟩
    exact ⟨_, (hread _).mpr ⟨_, ⟨hm, rfl⟩, hpre, rfl⟩⟩

/-- Two modules whose encodings begin the same string are the same. -/
private theorem eq_of_encode_isPrefix {m m' : Module} {bytes : List UInt8} (hm : m.Encodable)
    (hm' : m'.Encodable) (h : m.encode <+: bytes) (h' : m'.encode <+: bytes) : m = m' := by
  have hdecode := decode_eq_ok_iff.mpr ⟨hm, h⟩
  rw [decode_eq_ok_iff.mpr ⟨hm', h'⟩] at hdecode
  cases hdecode
  rfl

/-- The format is a prefix code with an exact round trip: an encoding is decoded
whatever follows it, none of its proper prefixes is, and every string that is decoded
begins with the encoding of the result. -/
theorem encode_prefix_code :
    (∀ m : Module, m.Encodable →
      (∀ tail, decode (m.encode ++ tail) = .ok m) ∧
        ∀ bytes, bytes <+: m.encode → bytes ≠ m.encode → ∃ e, decode bytes = .error e) ∧
      ∀ (bytes : List UInt8) (m : Module), decode bytes = .ok m → m.encode <+: bytes := by
  refine ⟨fun m hm => ⟨fun tail => ?_, fun bytes hpre hne => ?_⟩, fun bytes m h => ?_⟩
  · exact decode_eq_ok_iff.mpr ⟨hm, List.prefix_append _ _⟩
  · cases hdecode : decode bytes with
    | error e => exact ⟨e, rfl⟩
    | ok m' =>
      obtain ⟨hm', hpre'⟩ := decode_eq_ok_iff.mp hdecode
      have heq := eq_of_encode_isPrefix hm hm' List.prefix_rfl (hpre'.trans hpre)
      subst heq
      exact absurd (hpre.eq_of_length_le hpre'.length_le) hne
  · exact (decode_eq_ok_iff.mp h).2

/-- A module with one function that returns its argument. -/
def identity : Module := ⟨["id"], [⟨0, 1, 1, [19, 0]⟩]⟩

/-- The round trip of a small module, with a byte behind it and one byte short. -/
theorem identity_prefix_code :
    identity.Encodable ∧ decode (identity.encode ++ [7]) = .ok identity ∧
      ∃ e, decode identity.encode.dropLast = .error e := by
  have hm : identity.Encodable := ⟨by decide, by decide, by decide, by decide⟩
  obtain ⟨hdecode, hcut⟩ := encode_prefix_code.1 identity hm
  refine ⟨hm, hdecode [7], hcut _ (List.dropLast_prefix _) ?_⟩
  decide

end Module

end Yggdrasil
