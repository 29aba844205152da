import Yggdrasil.Bytecode.ScanDecode

/-!
# What the verifier establishes

The boundaries a successful scan collects are instruction starts: a well-formed
instruction can be read at each of them, and each of its successors is again one
of them. These are the facts the engines rely on.
-/

namespace Yggdrasil

namespace Dec

/-- A reader moves forward and stays inside the code. -/
def Advances {α : Type} (code : List UInt8) (x : Dec α) : Prop :=
  ∀ ⦃pos a next⦄, x pos = some (a, next) →
    pos ≤ next ∧ (pos ≤ code.length → next ≤ code.length)

variable {α β : Type} {code : List UInt8}

private theorem Advances.pure (a : α) : Advances code (Pure.pure a : Dec α) := by
  intro pos b next h
  cases StateT.pure_eq_some.mp h
  exact ⟨le_rfl, id⟩

private theorem Advances.bind {x : Dec α} {g : α → Dec β} (hx : Advances code x)
    (hg : ∀ a, Advances code (g a)) : Advances code (x >>= g) := by
  intro pos b next h
  obtain ⟨a, mid, hmid, hnext⟩ := StateT.bind_eq_some.mp h
  obtain ⟨h₁, h₁'⟩ := hx hmid
  obtain ⟨h₂, h₂'⟩ := hg a hnext
  exact ⟨h₁.trans h₂, fun hpos => h₂' (h₁' hpos)⟩

private theorem u8_bounds {pos next : ℕ} {b : UInt8} (h : u8 code pos = some (b, next)) :
    next = pos + 1 ∧ pos < code.length := by
  simp only [u8, Option.map_eq_some_iff, Prod.mk.injEq] at h
  obtain ⟨b', hb, -, rfl⟩ := h
  exact ⟨rfl, (List.getElem?_eq_some_iff.mp hb).1⟩

private theorem advances_u8 : Advances code (u8 code) := by
  intro pos a next h
  have := u8_bounds h
  omega

private theorem advances_u32 : Advances code (u32 code) := by
  intro pos a next h
  simp only [u32, Option.map_eq_some_iff, Prod.mk.injEq] at h
  obtain ⟨v, hv, -, rfl⟩ := h
  have := le_length_of_getU32 hv
  omega

private theorem advances_i64 : Advances code (i64 code) := by
  intro pos a next h
  simp only [i64, Option.map_eq_some_iff, Prod.mk.injEq] at h
  obtain ⟨v, hv, -, rfl⟩ := h
  have := le_length_of_getI64 hv
  omega

private theorem advances_bytes (n : ℕ) : Advances code (bytes code n) := by
  intro pos a next h
  simp only [bytes, Option.map_eq_some_iff, Prod.mk.injEq] at h
  obtain ⟨s, hs, -, rfl⟩ := h
  have := (slice_eq_some_iff.mp hs).1
  omega

private theorem advances_regs (n : ℕ) : Advances code (regs code n) := by
  induction n with
  | zero => exact .pure _
  | succ n ih => exact advances_u8.bind fun _ => ih.bind fun _ => .pure _

private theorem advances_regPairs (n : ℕ) : Advances code (regPairs code n) := by
  induction n with
  | zero => exact .pure _
  | succ n ih =>
    exact advances_u8.bind fun _ => advances_u8.bind fun _ => ih.bind fun _ => .pure _

private theorem advances_operands (op : Op) : Advances code (operands code op) := by
  cases op <;>
    simp only [operands] <;>
    repeat first
      | exact .pure _
      | refine advances_u8.bind fun _ => ?_
      | refine advances_u32.bind fun _ => ?_
      | refine advances_i64.bind fun _ => ?_
      | refine (advances_regs _).bind fun _ => ?_
      | refine (advances_regPairs _).bind fun _ => ?_
      | refine (advances_bytes _).bind fun _ => ?_

end Dec

/-- A decoded instruction takes at least one byte and lies inside the code. -/
theorem decodeAt_bounds {code : List UInt8} {pos next : ℕ} {i : Insn}
    (h : decodeAt code pos = some (i, next)) : pos < next ∧ next ≤ code.length := by
  simp only [decodeAt, StateT.run, Dec.insn, StateT.bind_eq_some] at h
  obtain ⟨b, mid, hb, hrest⟩ := h
  obtain ⟨rfl, hlt⟩ := Dec.u8_bounds hb
  cases hop : Op.ofByte b with
  | none => simp [hop, StateT.failure_eq_some] at hrest
  | some op =>
    simp only [hop] at hrest
    have := Dec.advances_operands op hrest
    omega

/-- Position `pos` of `f` holds a well-formed instruction whose successors are all
among `starts`. -/
structure Function.StartOk (m : Module) (f : Function) (starts : List ℕ) (pos : ℕ) (i : Insn)
    (next : ℕ) : Prop where
  /-- The instruction is there. -/
  decodes : decodeAt f.code pos = some (i, next)
  /-- Its operands are in range. -/
  wellFormed : i.WellFormed m f
  /-- Control that runs on reaches an instruction start. -/
  next_mem : i.fallsThrough = true → next ∈ starts
  /-- A jump reaches an instruction start. -/
  jump_mem : ∀ off, i.offset = some off → ∃ t ∈ starts, (t : ℤ) = next + off

/-- Function `f` of module `m` passes the checks of the verifier with instruction
starts `starts`. -/
structure Function.Verified (m : Module) (f : Function) (starts : List ℕ) : Prop where
  /-- The name is an atom of the module. -/
  name_lt : f.nameAtom.toNat < m.atoms.length
  /-- The arguments fit in the frame. -/
  arity_le : f.arity ≤ f.nregs
  /-- The entry point is an instruction start. -/
  zero_mem : 0 ∈ starts
  /-- Every start holds a good instruction. -/
  start_ok : ∀ pos ∈ starts, ∃ i next, f.StartOk m starts pos i next

/-- What one scan collects about an instruction start, relative to its result. -/
private structure ScannedInsn (m : Module) (f : Function) (st : ScanState) (pos : ℕ) (i : Insn)
    (next : ℕ) : Prop where
  decodes : decodeAt f.code pos = some (i, next)
  wellFormed : i.WellFormed m f
  next_mem : next ∈ st.boundaries ∨ st.fellThrough = i.fallsThrough
  jump_mem : ∀ off, i.offset = some off → (pos, (next : ℤ) + off) ∈ st.jumpTargets

/-- A sequence of checks passes when both do. -/
theorem bind_eq_ok {ε α β : Type} {x : Except ε α} {g : α → Except ε β} {b : β} :
    (x >>= g) = .ok b ↔ ∃ a, x = .ok a ∧ g a = .ok b := by
  cases x with
  | error e => simp [bind, Except.bind]
  | ok a => simp [bind, Except.bind]

/-- The scan loop takes one instruction. -/
theorem scanLoop_succ_iff {m : Module} {fnIdx : ℕ} {f : Function} {rounds pos : ℕ}
    {st st' : ScanState} (hpos : pos < f.code.length) :
    scanLoop m fnIdx f (rounds + 1) pos st = .ok st' ↔
      ∃ i next, decodeAt f.code pos = some (i, next) ∧ i.WellFormed m f ∧
        scanLoop m fnIdx f rounds next
          ⟨pos :: st.boundaries,
            (i.offset.map fun off => (pos, (next : ℤ) + off)).toList ++ st.jumpTargets,
            i.fallsThrough⟩ = .ok st' := by
  rw [scanLoop, if_pos hpos, bind_eq_ok]
  constructor
  · rintro ⟨⟨r, next⟩, hinsn, hrest⟩
    obtain ⟨i, hi, hwf, rfl⟩ := scan_insn_iff.mp hinsn
    refine ⟨i, next, hi, hwf, ?_⟩
    simpa only [Option.map_map, Function.comp_def] using hrest
  · rintro ⟨i, next, hi, hwf, hrest⟩
    refine ⟨(_, next), scan_insn_iff.mpr ⟨i, hi, hwf, rfl⟩, ?_⟩
    simpa only [Option.map_map, Function.comp_def] using hrest

/-- The scan loop ends with the code. -/
theorem scanLoop_done {m : Module} {fnIdx : ℕ} {f : Function} {rounds pos : ℕ}
    {st : ScanState} (hpos : f.code.length ≤ pos) :
    scanLoop m fnIdx f rounds pos st = .ok st := by
  cases rounds with
  | zero => rfl
  | succ n => rw [scanLoop, if_neg (Nat.not_lt.mpr hpos)]

private theorem scanLoop_mono {m : Module} {fnIdx : ℕ} {f : Function} {rounds pos : ℕ}
    {st st' : ScanState} (h : scanLoop m fnIdx f rounds pos st = .ok st') :
    st.boundaries ⊆ st'.boundaries ∧ st.jumpTargets ⊆ st'.jumpTargets := by
  induction rounds generalizing pos st with
  | zero =>
    cases h
    exact ⟨List.Subset.refl _, List.Subset.refl _⟩
  | succ n ih =>
    by_cases hpos : pos < f.code.length
    · obtain ⟨i, next, -, -, hrest⟩ := (scanLoop_succ_iff hpos).mp h
      obtain ⟨hb, hj⟩ := ih hrest
      exact ⟨fun x hx => hb (List.mem_cons_of_mem _ hx),
        fun x hx => hj (List.mem_append_right _ hx)⟩
    · rw [scanLoop_done (Nat.not_lt.mp hpos)] at h
      cases h
      exact ⟨List.Subset.refl _, List.Subset.refl _⟩

private theorem scanLoop_spec {m : Module} {fnIdx : ℕ} {f : Function} {rounds pos : ℕ}
    {st st' : ScanState} (hfuel : f.code.length ≤ pos + rounds)
    (h : scanLoop m fnIdx f rounds pos st = .ok st') :
    (pos < f.code.length → pos ∈ st'.boundaries) ∧
      ∀ p ∈ st'.boundaries, p ∈ st.boundaries ∨ ∃ i next, ScannedInsn m f st' p i next := by
  induction rounds generalizing pos st with
  | zero =>
    cases h
    exact ⟨fun hlt => absurd hlt (by omega), fun p hp => .inl hp⟩
  | succ n ih =>
    by_cases hpos : pos < f.code.length
    · obtain ⟨i, next, hi, hwf, hrest⟩ := (scanLoop_succ_iff hpos).mp h
      obtain ⟨hlt, -⟩ := decodeAt_bounds hi
      obtain ⟨hnext, hall⟩ := ih (by omega) hrest
      obtain ⟨hb, hj⟩ := scanLoop_mono hrest
      have hhere : ScannedInsn m f st' pos i next := by
        refine ⟨hi, hwf, ?_, fun off hoff => hj (by simp [hoff])⟩
        by_cases hend : next < f.code.length
        · exact .inl (hnext hend)
        · rw [scanLoop_done (Nat.not_lt.mp hend)] at hrest
          cases hrest
          exact .inr rfl
      refine ⟨fun _ => hb (List.mem_cons_self ..), fun p hp => ?_⟩
      rcases hall p hp with hold | hgood
      · rcases List.mem_cons.mp hold with rfl | hold
        · exact .inr ⟨i, next, hhere⟩
        · exact .inl hold
      · exact .inr hgood
    · rw [scanLoop_done (Nat.not_lt.mp hpos)] at h
      cases h
      exact ⟨fun hlt => absurd hlt hpos, fun p hp => .inl hp⟩

/-- Jumps that pass the check lead to boundaries. -/
theorem checkJumps_spec {fnIdx : ℕ} {starts : List ℕ} {jumps : List (ℕ × ℤ)}
    (h : checkJumps fnIdx starts jumps = .ok ()) :
    ∀ j ∈ jumps, ∃ t ∈ starts, (t : ℤ) = j.2 := by
  induction jumps with
  | nil => simp
  | cons j rest ih =>
    rw [checkJumps] at h
    split at h
    · cases h
    · rename_i hok
      push Not at hok
      intro k hk
      rcases List.mem_cons.mp hk with rfl | hk
      · exact ⟨k.2.toNat, hok.2, Int.toNat_of_nonneg hok.1⟩
      · exact ih h k hk

/-- A function the verifier accepts has good instruction starts. -/
theorem verifyFn_verified {m : Module} {fnIdx : ℕ} {f : Function}
    (h : verifyFn m fnIdx f = .ok ()) :
    ∃ st, scanFn m fnIdx f = .ok st ∧ f.Verified m st.boundaries := by
  simp only [verifyFn] at h
  split at h
  · cases h
  rename_i hname
  split at h
  · cases h
  rename_i harity
  obtain ⟨st, hst, h⟩ := bind_eq_ok.mp h
  split at h
  · cases h
  rename_i hfell
  have hjumps := checkJumps_spec h
  obtain ⟨hzero, hall⟩ := scanLoop_spec (by omega) hst
  have hpos : 0 < f.code.length := by
    by_contra hlen
    rw [scanFn, scanLoop_done (by omega)] at hst
    cases hst
    exact hfell rfl
  refine ⟨st, hst, by simpa using hname, by simpa using harity, hzero hpos, fun p hp => ?_⟩
  obtain ⟨i, next, hs⟩ := (hall p hp).resolve_left (by simp)
  refine ⟨i, next, hs.decodes, hs.wellFormed, fun hft => ?_, fun off hoff => ?_⟩
  · exact hs.next_mem.resolve_right fun heq => hfell (heq.trans hft)
  · exact hjumps _ (List.mem_reverse.mpr (hs.jump_mem off hoff))

/-- Every function of a module the verifier accepts was accepted. -/
theorem verify_function {m : Module} (h : verify m = .ok ()) {idx : ℕ} {f : Function}
    (hf : m.functions[idx]? = some f) : verifyFn m idx f = .ok () := by
  have key : ∀ (fs : List Function) (k j : ℕ), verifyFrom m k fs = .ok () → fs[j]? = some f →
      verifyFn m (k + j) f = .ok () := by
    intro fs
    induction fs with
    | nil => simp
    | cons g fs ih =>
      intro k j hfrom hj
      obtain ⟨⟨⟩, hg, hrest⟩ := bind_eq_ok.mp hfrom
      cases j with
      | zero =>
        cases hj
        exact hg
      | succ j =>
        have := ih (k + 1) j hrest hj
        rwa [show k + 1 + j = k + (j + 1) by omega] at this
  have := key m.functions 0 idx h hf
  rwa [Nat.zero_add] at this

end Yggdrasil
