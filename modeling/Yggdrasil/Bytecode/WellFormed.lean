import Yggdrasil.Bytecode.Boundaries
import Yggdrasil.Bytecode.Encode

/-!
# The verifier accepts exactly the well-formed modules

A function is well formed when its code is a sequence of encoded instructions with
operands in range, the last of which does not fall through, and every jump leads to
the start of one of them. The scan of the verifier recovers this sequence.
-/

namespace Yggdrasil

/-- The code of a sequence of instructions. -/
def Insn.encodeAll (insns : List Insn) : List UInt8 := insns.flatMap encode

/-- Where the `k`-th instruction of a sequence starts. -/
def Insn.startOf (insns : List Insn) (k : ℕ) : ℕ := (encodeAll (insns.take k)).length

/-- The code of `f` is the sequence `insns`, and everything in it is in range. -/
structure Function.WellFormed (m : Module) (f : Function) (insns : List Insn) : Prop where
  /-- The name is an atom of the module. -/
  name_lt : f.nameAtom.toNat < m.atoms.length
  /-- The arguments fit in the frame. -/
  arity_le : f.arity ≤ f.nregs
  /-- The code is the concatenation of the instructions. -/
  code_eq : f.code = Insn.encodeAll insns
  /-- The instructions are complete. -/
  encodable : ∀ i ∈ insns, i.Encodable
  /-- There is a last one, and control does not run past it. -/
  last : ∃ i ∈ insns.getLast?, i.fallsThrough = false
  /-- Registers, atoms and callees are in range. -/
  operands : ∀ i ∈ insns, i.WellFormed m f
  /-- Jumps lead to the start of an instruction. -/
  jumps : ∀ k i, insns[k]? = some i → ∀ off ∈ i.offset, ∃ j < insns.length,
    (Insn.startOf insns (k + 1) : ℤ) + off = Insn.startOf insns j

/-- Control that runs on does not run past the last instruction. -/
theorem Function.WellFormed.succ_lt {m : Module} {f : Function} {insns : List Insn}
    (hf : f.WellFormed m insns) {k : ℕ} {i : Insn} (hk : insns[k]? = some i)
    (hfalls : i.fallsThrough = true) : k + 1 < insns.length := by
  have hlt := (List.getElem?_eq_some_iff.mp hk).1
  by_contra hge
  obtain ⟨l, hl, hstop⟩ := hf.last
  rw [List.getLast?_eq_getElem?, show insns.length - 1 = k by omega, hk] at hl
  cases hl
  rw [hfalls] at hstop
  cases hstop

namespace Insn

variable {insns : List Insn}

/-- The first instruction shifts the starts of the others. -/
theorem startOf_cons (i : Insn) (is : List Insn) (k : ℕ) :
    startOf (i :: is) (k + 1) = i.encode.length + startOf is k := by
  simp [startOf, encodeAll]

/-- The next instruction starts behind the code of this one. -/
theorem startOf_succ {k : ℕ} {i : Insn} (hk : insns[k]? = some i) :
    startOf insns (k + 1) = startOf insns k + i.encode.length := by
  obtain ⟨hlt, rfl⟩ := List.getElem?_eq_some_iff.mp hk
  rw [startOf, List.take_succ_eq_append_getElem hlt, encodeAll, List.flatMap_append]
  simp [startOf, encodeAll]

/-- Behind the last instruction the code ends. -/
theorem startOf_length (insns : List Insn) :
    startOf insns insns.length = (encodeAll insns).length := by
  rw [startOf, List.take_length]

/-- Later instructions start later. -/
theorem startOf_lt {j k : ℕ} (hjk : j < k) (hk : k ≤ insns.length) :
    startOf insns j < startOf insns k := by
  induction k with
  | zero => omega
  | succ k ih =>
    have hstep := startOf_succ (List.getElem?_eq_getElem (show k < insns.length by omega))
    have hlen : 0 < (insns[k]).encode.length := by simp [encode]
    by_cases hjk' : j = k
    · subst hjk'
      omega
    · have := ih (by omega) (by omega)
      omega

private theorem encodeAll_split (insns : List Insn) (k : ℕ) :
    encodeAll insns = encodeAll (insns.take k) ++ encodeAll (insns.drop k) := by
  rw [encodeAll, encodeAll, encodeAll, ← List.flatMap_append, List.take_append_drop]

/-- From the start of the `k`-th instruction on, the code is that of the instructions left. -/
theorem drop_startOf (insns : List Insn) (k : ℕ) :
    (encodeAll insns).drop (startOf insns k) = encodeAll (insns.drop k) := by
  rw [encodeAll_split insns k, startOf, List.drop_left]

/-- Where an instruction starts it is decoded, up to the start of the next one. -/
theorem decodeAt_startOf (hinsns : ∀ i ∈ insns, i.Encodable) {k : ℕ} {i : Insn}
    (hk : insns[k]? = some i) :
    decodeAt (encodeAll insns) (startOf insns k) = some (i, startOf insns (k + 1)) := by
  obtain ⟨hlt, rfl⟩ := List.getElem?_eq_some_iff.mp hk
  have hprefix : insns[k].encode <+: (encodeAll insns).drop (startOf insns k) := by
    rw [drop_startOf, List.drop_eq_getElem_cons hlt]
    exact ⟨encodeAll (insns.drop (k + 1)), rfl⟩
  have hle : startOf insns k ≤ (encodeAll insns).length := by
    rw [encodeAll_split insns k, List.length_append]
    exact Nat.le_add_right _ _
  rw [startOf_succ hk]
  exact (decodeAt_eq_some_iff hle).mpr ⟨hinsns _ (List.getElem_mem hlt), hprefix, rfl⟩

/-- At the start of a sequence of instructions the first one is decoded, and behind it come the
others. -/
theorem decodeAt_cons {code : List UInt8} {pos : ℕ} {i : Insn} {is : List Insn}
    (hpos : pos ≤ code.length) (hcode : code.drop pos = encodeAll (i :: is)) (hi : i.Encodable) :
    decodeAt code pos = some (i, pos + i.encode.length) ∧
      code.drop (pos + i.encode.length) = encodeAll is := by
  have happend : code.drop pos = i.encode ++ encodeAll is := hcode
  constructor
  · exact (decodeAt_eq_some_iff hpos).mpr ⟨hi, ⟨_, happend.symm⟩, rfl⟩
  · rw [← List.drop_drop, happend, List.drop_left]

end Insn

namespace ScanState

/-- What the scan collects from a sequence of instructions at `pos`. -/
def collect (st : ScanState) : ℕ → List Insn → ScanState
  | _, [] => st
  | pos, i :: is =>
    let next := pos + i.encode.length
    collect ⟨pos :: st.boundaries,
      (i.offset.map fun off => (pos, (next : ℤ) + off)).toList ++ st.jumpTargets,
      i.fallsThrough⟩ next is

variable {st : ScanState} {pos : ℕ} {insns : List Insn}

/-- The boundaries collected are the starts of the instructions. -/
theorem mem_boundaries_collect {b : ℕ} :
    b ∈ (st.collect pos insns).boundaries ↔
      b ∈ st.boundaries ∨ ∃ k < insns.length, b = pos + Insn.startOf insns k := by
  induction insns generalizing st pos with
  | nil => simp [collect]
  | cons i is ih =>
    rw [collect, ih, List.mem_cons]
    constructor
    · rintro ((rfl | hb) | ⟨k, hk, rfl⟩)
      · exact .inr ⟨0, by simp, rfl⟩
      · exact .inl hb
      · refine .inr ⟨k + 1, by simpa using hk, ?_⟩
        rw [Insn.startOf_cons, Nat.add_assoc]
    · rintro (hb | ⟨k, hk, rfl⟩)
      · exact .inl (.inr hb)
      · cases k with
        | zero => exact .inl (.inl rfl)
        | succ k =>
          refine .inr ⟨k, by simpa using hk, ?_⟩
          rw [Insn.startOf_cons, Nat.add_assoc]

/-- The boundary collected last. -/
theorem boundaries_collect_concat {i : Insn} :
    (st.collect pos (insns ++ [i])).boundaries =
      (pos + Insn.startOf insns insns.length) :: (st.collect pos insns).boundaries := by
  induction insns generalizing st pos with
  | nil => rfl
  | cons j is ih =>
    rw [List.cons_append, collect, collect, ih, List.length_cons, Insn.startOf_cons,
      Nat.add_assoc]

/-- The boundaries collected do not depend on what else is. -/
theorem boundaries_collect_congr {st st' : ScanState} (h : st.boundaries = st'.boundaries) :
    (st.collect pos insns).boundaries = (st'.collect pos insns).boundaries := by
  induction insns generalizing st st' pos with
  | nil => exact h
  | cons i is ih =>
    rw [collect, collect]
    apply ih
    rw [h]

/-- The jumps collected are those of the instructions. -/
theorem mem_jumpTargets_collect {j : ℕ × ℤ} :
    j ∈ (st.collect pos insns).jumpTargets ↔
      j ∈ st.jumpTargets ∨ ∃ k i off, insns[k]? = some i ∧ i.offset = some off ∧
        j = (pos + Insn.startOf insns k, ((pos + Insn.startOf insns (k + 1) : ℕ) : ℤ) + off) := by
  induction insns generalizing st pos with
  | nil => simp [collect]
  | cons i is ih =>
    have hfirst : Insn.startOf (i :: is) 1 = i.encode.length := Insn.startOf_cons i is 0
    rw [collect, ih, List.mem_append, Option.mem_toList, Option.map_eq_some_iff]
    constructor
    · rintro ((⟨off, hoff, rfl⟩ | hj) | ⟨k, i', off, hk, hoff, rfl⟩)
      · refine .inr ⟨0, i, off, rfl, hoff, ?_⟩
        rw [hfirst]
        rfl
      · exact .inl hj
      · refine .inr ⟨k + 1, i', off, hk, hoff, ?_⟩
        rw [Insn.startOf_cons, Insn.startOf_cons, Nat.add_assoc, Nat.add_assoc]
    · rintro (hj | ⟨k, i', off, hk, hoff, rfl⟩)
      · exact .inl (.inr hj)
      · cases k with
        | zero =>
          cases hk
          refine .inl (.inl ⟨off, hoff, ?_⟩)
          rw [hfirst]
          rfl
        | succ k =>
          refine .inr ⟨k, i', off, hk, hoff, ?_⟩
          rw [Insn.startOf_cons, Insn.startOf_cons, Nat.add_assoc, Nat.add_assoc]

/-- The flag left at the end is that of the last instruction. -/
theorem fellThrough_collect :
    (st.collect pos insns).fellThrough = (insns.getLast?.map Insn.fallsThrough).getD st.fellThrough
    := by
  induction insns generalizing st pos with
  | nil => rfl
  | cons i is ih =>
    rw [collect, ih]
    cases is with
    | nil => rfl
    | cons i' is =>
      rw [List.getLast?_cons_cons]
      have hlast : ((i' :: is).getLast?).isSome := by simp
      obtain ⟨j, hj⟩ := Option.isSome_iff_exists.mp hlast
      rw [hj]
      rfl

end ScanState

section Scan

variable {m : Module} {fnIdx : ℕ} {f : Function}

/-- The scan loop recovers the instructions from the code. -/
theorem scanLoop_eq_ok_iff {rounds pos : ℕ} {st st' : ScanState} (hpos : pos ≤ f.code.length)
    (hrounds : f.code.length ≤ pos + rounds) :
    scanLoop m fnIdx f rounds pos st = .ok st' ↔
      ∃ insns, f.code.drop pos = Insn.encodeAll insns ∧
        (∀ i ∈ insns, i.Encodable ∧ i.WellFormed m f) ∧ st' = st.collect pos insns := by
  induction rounds generalizing pos st with
  | zero =>
    have hend : f.code.drop pos = [] := List.drop_eq_nil_of_le (by omega)
    rw [scanLoop, Except.ok.injEq, hend]
    constructor
    · rintro rfl
      exact ⟨[], rfl, by simp, rfl⟩
    · rintro ⟨insns, hcode, -, rfl⟩
      cases insns with
      | nil => rfl
      | cons i is => cases hcode
  | succ rounds ih =>
    by_cases hlt : pos < f.code.length
    · rw [scanLoop_succ_iff hlt]
      constructor
      · rintro ⟨i, next, hi, hwf, hrest⟩
        obtain ⟨hlt', hle⟩ := decodeAt_bounds hi
        obtain ⟨hok, ⟨rest, hrest'⟩, rfl⟩ := (decodeAt_eq_some_iff hpos).mp hi
        obtain ⟨insns, hcode, hall, rfl⟩ := (ih hle (by omega)).mp hrest
        refine ⟨i :: insns, ?_, List.forall_mem_cons.mpr ⟨⟨hok, hwf⟩, hall⟩, rfl⟩
        rw [← List.drop_drop, ← hrest', List.drop_left] at hcode
        rw [← hrest', hcode]
        rfl
      · rintro ⟨insns, hcode, hall, rfl⟩
        cases insns with
        | nil =>
          have hnil := congrArg List.length hcode
          rw [List.length_drop] at hnil
          simp only [Insn.encodeAll, List.flatMap_nil, List.length_nil] at hnil
          omega
        | cons i is =>
          obtain ⟨⟨hok, hwf⟩, hall⟩ := List.forall_mem_cons.mp hall
          have happend : f.code.drop pos = i.encode ++ Insn.encodeAll is := hcode
          have hi : decodeAt f.code pos = some (i, pos + i.encode.length) :=
            (decodeAt_eq_some_iff hpos).mpr ⟨hok, ⟨_, happend.symm⟩, rfl⟩
          obtain ⟨hlt', hle⟩ := decodeAt_bounds hi
          refine ⟨i, _, hi, hwf, (ih hle (by omega)).mpr ⟨is, ?_, hall, rfl⟩⟩
          rw [← List.drop_drop, happend, List.drop_left]
    · rw [scanLoop_done (Nat.not_lt.mp hlt), Except.ok.injEq,
        List.drop_eq_nil_of_le (Nat.not_lt.mp hlt)]
      constructor
      · rintro rfl
        exact ⟨[], rfl, by simp, rfl⟩
      · rintro ⟨insns, hcode, -, rfl⟩
        cases insns with
        | nil => rfl
        | cons i is => cases hcode

private theorem checkJumps_eq_ok_iff {starts : List ℕ} {jumps : List (ℕ × ℤ)} :
    checkJumps fnIdx starts jumps = .ok () ↔ ∀ j ∈ jumps, ∃ t ∈ starts, (t : ℤ) = j.2 := by
  refine ⟨checkJumps_spec, fun h => ?_⟩
  induction jumps with
  | nil => rfl
  | cons j rest ih =>
    obtain ⟨⟨t, ht, heq⟩, hrest⟩ := List.forall_mem_cons.mp h
    rw [checkJumps, if_neg, ih hrest]
    rw [← heq, Int.toNat_natCast]
    simp [ht]

/-- The verifier accepts a function exactly when it is well formed. -/
theorem verifyFn_eq_ok_iff : verifyFn m fnIdx f = .ok () ↔ ∃ insns, f.WellFormed m insns := by
  have hscan : ∀ st', scanFn m fnIdx f = .ok st' ↔ _ := fun st' =>
    scanLoop_eq_ok_iff (Nat.zero_le _) (by omega)
  constructor
  · intro h
    simp only [verifyFn] at h
    split at h
    · cases h
    rename_i hname
    split at h
    · cases h
    rename_i harity
    obtain ⟨st, hst, h⟩ := bind_eq_ok.mp h
    split at h
    · cases h
    rename_i hfell
    obtain ⟨insns, hcode, hall, rfl⟩ := (hscan st).mp hst
    have hjumps := checkJumps_eq_ok_iff.mp h
    refine ⟨insns, by simpa using hname, by simpa using harity, by simpa using hcode,
      fun i hi => (hall i hi).1, ?_, fun i hi => (hall i hi).2, fun k i hk off hoff => ?_⟩
    · rw [ScanState.fellThrough_collect] at hfell
      cases hlast : insns.getLast? with
      | none => simp [hlast] at hfell
      | some i => exact ⟨i, rfl, by simpa [hlast] using hfell⟩
    · obtain ⟨t, ht, heq⟩ := hjumps _ (List.mem_reverse.mpr
        (ScanState.mem_jumpTargets_collect.mpr (.inr ⟨k, i, off, hk, hoff, rfl⟩)))
      obtain hmem | ⟨j, hj, rfl⟩ := ScanState.mem_boundaries_collect.mp ht
      · cases hmem
      · exact ⟨j, hj, by simpa using heq.symm⟩
  · rintro ⟨insns, hf⟩
    have hst : scanFn m fnIdx f = .ok (ScanState.collect ⟨[], [], true⟩ 0 insns) :=
      (hscan _).mpr ⟨insns, by simpa using hf.code_eq, fun i hi => ⟨hf.encodable i hi,
        hf.operands i hi⟩, rfl⟩
    have hname : ¬m.atoms[f.nameAtom.toNat]? = none := by simpa using hf.name_lt
    have harity : ¬f.arity > f.nregs := by simpa using hf.arity_le
    obtain ⟨i, hi, hterm⟩ := hf.last
    have hfell : ¬(ScanState.collect ⟨[], [], true⟩ 0 insns).fellThrough = true := by
      rw [ScanState.fellThrough_collect, Option.mem_def.mp hi]
      simp [hterm]
    simp only [verifyFn, hname, harity, hst, if_false]
    refine bind_eq_ok.mpr ⟨_, rfl, ?_⟩
    rw [if_neg hfell]
    refine checkJumps_eq_ok_iff.mpr fun jump hjump => ?_
    rcases ScanState.mem_jumpTargets_collect.mp (List.mem_reverse.mp hjump) with
      hmem | ⟨k, i, off, hk, hoff, rfl⟩
    · cases hmem
    · obtain ⟨j, hj, heq⟩ := hf.jumps k i hk off hoff
      refine ⟨_, ScanState.mem_boundaries_collect.mpr (.inr ⟨j, hj, rfl⟩), ?_⟩
      simpa using heq.symm

end Scan

/-- The verifier accepts exactly the modules all of whose functions are well formed. -/
theorem verify_eq_ok_iff (m : Module) :
    verify m = .ok () ↔ ∀ f ∈ m.functions, ∃ insns, f.WellFormed m insns := by
  have hfrom : ∀ fs k, verifyFrom m k fs = .ok () ↔ ∀ f ∈ fs, ∃ insns, f.WellFormed m insns := by
    intro fs
    induction fs with
    | nil => simp [verifyFrom]
    | cons f fs ih =>
      intro k
      rw [verifyFrom, bind_eq_ok, List.forall_mem_cons, ← ih (k + 1)]
      constructor
      · rintro ⟨⟨⟩, hf, hrest⟩
        exact ⟨verifyFn_eq_ok_iff.mp hf, hrest⟩
      · rintro ⟨hf, hrest⟩
        exact ⟨(), verifyFn_eq_ok_iff.mpr hf, hrest⟩
  exact hfrom m.functions 0

end Yggdrasil
