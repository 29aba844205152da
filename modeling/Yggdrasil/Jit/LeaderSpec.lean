import Yggdrasil.Jit.Decode
import Yggdrasil.Bytecode.WellFormed

/-!
# The leaders of verified code

On code that is a sequence of instructions the first pass comes to its end and finds the
leaders of the instructions. On verified code each of them is the start of an instruction; the
first instruction is one, and so are the target of every jump and the instruction behind one
that ends its block.
-/

namespace Yggdrasil

/-- The instruction ends a block of the compiled function. -/
def Insn.endsBlock (i : Insn) : Bool := !i.fallsThrough || i.offset.isSome

namespace Jit

variable {code : List UInt8} {insns : List Insn}

/-- What the first pass finds in a sequence of instructions. -/
theorem leaderLoop_eq {rounds pos : ℕ} {st : LeaderScan} (hpos : pos ≤ code.length)
    (hrounds : code.length ≤ pos + rounds) (hcode : code.drop pos = Insn.encodeAll insns)
    (hinsns : ∀ i ∈ insns, i.Encodable) :
    ∃ leaders, leaderLoop code rounds pos st =
        .ok ⟨leaders, (ScanState.collect ⟨st.starts, [], true⟩ pos insns).boundaries⟩ ∧
      ∀ p, p ∈ leaders ↔ p ∈ st.leaders ∨
        ∃ k i, insns[k]? = some i ∧ p ∈ leadersOf i (pos + Insn.startOf insns (k + 1)) := by
  induction insns generalizing rounds pos st with
  | nil =>
    have hend : ¬pos < code.length := by
      have hnil := congrArg List.length hcode
      simp [Insn.encodeAll] at hnil
      omega
    refine ⟨st.leaders, ?_, by simp⟩
    cases rounds with
    | zero => rfl
    | succ rounds =>
      rw [leaderLoop, if_neg hend]
      rfl
  | cons i is ih =>
    obtain ⟨hok, his⟩ := List.forall_mem_cons.mp hinsns
    obtain ⟨hi, hrest⟩ := Insn.decodeAt_cons hpos hcode hok
    obtain ⟨hlt, hle⟩ := decodeAt_bounds hi
    obtain ⟨rounds, rfl⟩ : ∃ n, rounds = n + 1 := ⟨rounds - 1, by omega⟩
    have hinsn := leaderInsn_iff.mpr ⟨i, hi, rfl⟩
    obtain ⟨leaders, hloop, hmem⟩ := @ih rounds (pos + i.encode.length)
      ⟨leadersOf i (pos + i.encode.length) ++ st.leaders, pos :: st.starts⟩ hle (by omega) hrest his
    refine ⟨leaders, ?_, fun p => ?_⟩
    · rw [leaderLoop, if_pos (by omega), hinsn]
      refine hloop.trans ?_
      rw [Except.ok.injEq, LeaderScan.mk.injEq, ScanState.collect]
      refine ⟨rfl, ?_⟩
      exact ScanState.boundaries_collect_congr rfl
    · rw [hmem, List.mem_append]
      constructor
      · rintro ((hp | hp) | ⟨k, j, hk, hp⟩)
        · exact .inr ⟨0, i, rfl, by rwa [Insn.startOf_cons]⟩
        · exact .inl hp
        · exact .inr ⟨k + 1, j, hk, by rwa [Insn.startOf_cons, ← Nat.add_assoc]⟩
      · rintro (hp | ⟨k, j, hk, hp⟩)
        · exact .inl (.inr hp)
        · cases k with
          | zero =>
            cases hk
            rw [Insn.startOf_cons] at hp
            exact .inl (.inl hp)
          | succ k =>
            rw [Insn.startOf_cons, ← Nat.add_assoc] at hp
            exact .inr ⟨k, j, hk, hp⟩

/-- What the compiler relies on of the leaders of a sequence of instructions. -/
structure LeadersOk (insns : List Insn) (leaders : List ℕ) : Prop where
  /-- The first instruction is a leader. -/
  zero_mem : 0 ∈ leaders
  /-- Every leader is the start of an instruction. -/
  start : ∀ p ∈ leaders, ∃ j < insns.length, p = Insn.startOf insns j
  /-- The target of a jump is a leader, and the start of an instruction. -/
  jump : ∀ k i off, insns[k]? = some i → i.offset = some off →
    ∃ j < insns.length, (Insn.startOf insns (k + 1) : ℤ) + off = Insn.startOf insns j ∧
      jumpTarget (Insn.startOf insns (k + 1)) off = Insn.startOf insns j ∧
      Insn.startOf insns j ∈ leaders
  /-- The instruction behind one that ends its block is a leader. -/
  behind : ∀ k i, insns[k]? = some i → i.endsBlock = true → k + 1 < insns.length →
    Insn.startOf insns (k + 1) ∈ leaders

/-- The target of a jump is a leader. -/
theorem LeadersOk.target_mem {insns : List Insn} {leaders : List ℕ} (h : LeadersOk insns leaders)
    {k : ℕ} {i : Insn} {off : ℤ} (hk : insns[k]? = some i) (hoff : i.offset = some off) :
    jumpTarget (Insn.startOf insns (k + 1)) off ∈ leaders := by
  obtain ⟨j, -, -, heq, hj⟩ := h.jump k i off hk hoff
  rwa [heq]

/-- The instruction behind a jump is a leader. -/
theorem LeadersOk.next_mem {insns : List Insn} {leaders : List ℕ} (h : LeadersOk insns leaders)
    {k : ℕ} {i : Insn} (hk : insns[k]? = some i) (hoff : i.offset.isSome)
    (hlt : k + 1 < insns.length) : Insn.startOf insns (k + 1) ∈ leaders :=
  h.behind k i hk (by simp [Insn.endsBlock, hoff]) hlt

private theorem jumpTarget_eq {pos t : ℕ} {off : ℤ} (h : (pos : ℤ) + off = t) :
    jumpTarget pos off = t := by
  rw [jumpTarget, h, if_pos (Int.natCast_nonneg t), Int.toNat_natCast]

private theorem mem_leadersOf {i : Insn} {next p : ℕ} :
    p ∈ leadersOf i next ↔
      (∃ off, i.offset = some off ∧ p = jumpTarget next off) ∨ i.endsBlock = true ∧ p = next := by
  cases i
  case reg1 o r =>
    cases o <;> simp [leadersOf, Insn.offset, Insn.endsBlock, Insn.fallsThrough]
  all_goals simp [leadersOf, Insn.offset, Insn.endsBlock, Insn.fallsThrough]

/-- On a verified function the first pass comes to its end, at every instruction start, and what
it finds is in order. -/
theorem findLeaders_ok {m : Module} {f : Function} (hf : f.WellFormed m insns) :
    ∃ leaders, findLeaders f.code = .ok leaders ∧ LeadersOk insns leaders := by
  obtain ⟨found, hloop, hmem⟩ := @leaderLoop_eq f.code insns f.code.length 0 ⟨[0], []⟩
    (Nat.zero_le _) (by omega) (by rw [List.drop_zero, hf.code_eq]) hf.encodable
  have hlength : Insn.startOf insns insns.length = f.code.length := by
    rw [Insn.startOf_length, hf.code_eq]
  have hlt : ∀ j < insns.length, Insn.startOf insns j ≠ f.code.length := fun j hj => by
    have := Insn.startOf_lt hj (le_refl _)
    omega
  have hpos : 0 < insns.length := by
    obtain ⟨i, hi, -⟩ := hf.last
    exact List.length_pos_of_mem (List.mem_of_getLast? hi)
  refine ⟨found.filter (· ≠ f.code.length), ?_, ?_, ?_, ?_, ?_⟩
  · rw [findLeaders, leaderScan, hloop]
    rfl
  · refine List.mem_filter.mpr ⟨(hmem 0).mpr (.inl (List.mem_singleton_self 0)), ?_⟩
    have hzero : Insn.startOf insns 0 ≠ f.code.length := hlt 0 hpos
    exact decide_eq_true hzero
  · intro p hp
    obtain ⟨hp, hne⟩ := List.mem_filter.mp hp
    rcases (hmem p).mp hp with hzero | ⟨k, i, hk, hp⟩
    · exact ⟨0, hpos, List.mem_singleton.mp hzero⟩
    · rw [Nat.zero_add, mem_leadersOf] at hp
      rcases hp with ⟨off, hoff, rfl⟩ | ⟨-, rfl⟩
      · obtain ⟨j, hj, heq⟩ := hf.jumps k i hk off hoff
        exact ⟨j, hj, jumpTarget_eq heq⟩
      · have hk' := (List.getElem?_eq_some_iff.mp hk).1
        refine ⟨k + 1, ?_, rfl⟩
        by_contra hge
        have hend : k + 1 = insns.length := by omega
        rw [hend, hlength] at hne
        simp at hne
  · intro k i off hk hoff
    obtain ⟨j, hj, heq⟩ := hf.jumps k i hk off hoff
    refine ⟨j, hj, heq, jumpTarget_eq heq, List.mem_filter.mpr ⟨(hmem _).mpr ?_, ?_⟩⟩
    · refine .inr ⟨k, i, hk, ?_⟩
      rw [Nat.zero_add, mem_leadersOf]
      exact .inl ⟨off, hoff, (jumpTarget_eq heq).symm⟩
    · exact decide_eq_true (hlt j hj)
  · intro k i hk hends hlast
    refine List.mem_filter.mpr ⟨(hmem _).mpr (.inr ⟨k, i, hk, ?_⟩), decide_eq_true (hlt _ hlast)⟩
    rw [Nat.zero_add, mem_leadersOf]
    exact .inr ⟨hends, rfl⟩

end Jit

end Yggdrasil
