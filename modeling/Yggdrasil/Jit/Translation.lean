import Yggdrasil.Jit.CfgEmit

/-!
# The translation of verified functions

The loop over the code takes one instruction a round. Before each round the blocks are in order
up to the instructions translated so far: a block is open exactly when straight-line code reaches
the next instruction, and the leaders before it have been begun. So no code is ever skipped, the
translation comes to its end, and the compiled function is well formed.
-/

namespace Yggdrasil

namespace Jit

/-- Straight-line code reaches the `k`-th instruction: the one before it does not end its
block. -/
def reached (insns : List Insn) : ℕ → Bool
  | 0 => false
  | k + 1 => insns[k]?.any fun i => !i.endsBlock

/-- What is inserted before the `k`-th instruction: at a leader its block begins, and
straight-line code that reaches it jumps there. -/
def entryItems (leaders : List ℕ) (insns : List Insn) (k : ℕ) : List Item :=
  let blk := Block.leader (Insn.startOf insns k)
  if Insn.startOf insns k ∈ leaders then
    (if reached insns k then [.jump blk] else []) ++ [.label blk]
  else []

/-- The translation has come to the `k`-th instruction. -/
structure Builder.At (ctx : Context) (insns : List Insn) (k : ℕ) (b : Builder) : Prop where
  /-- It is read next. -/
  pc : b.pc = Insn.startOf insns k
  /-- The flag tells whether straight-line code reaches it. -/
  filled : b.filled = !reached insns k
  /-- Straight-line code is in a block of the bytecode. -/
  inBlock : reached insns k = true → b.inBlock = true
  /-- The rounds so far began at the instructions before it. -/
  starts : b.starts = (ScanState.collect ⟨[], [], true⟩ 0 (insns.take k)).boundaries
  /-- The function begins with its entry block. -/
  entry : b.items.head? = some (.label .entry)
  /-- A block is open if straight-line code reaches it. -/
  flow : flow false b.items = some (reached insns k)
  /-- No block is begun twice. -/
  nodup : (labelsOf b.items).Nodup
  /-- The blocks begun are those made and the leaders so far. -/
  labels : ∀ blk, blk ∈ labelsOf b.items ↔ blk = .entry ∨ (∃ n < b.nextBlock, blk = .fresh n) ∨
    ∃ p ∈ ctx.leaders, p < Insn.startOf insns k ∧ blk = .leader p
  /-- Branches lead to blocks that were made. -/
  targets : ∀ i ∈ b.items, ∀ blk ∈ i.targets, Created ctx.leaders b.nextBlock blk

section Round

variable {ctx : Context} {insns : List Insn} {k : ℕ} {b : Builder} {i : Insn}

/-- Before its block begins, straight-line code that reaches an instruction is in the block it
stands in. -/
private theorem reached_of_notMem (hleaders : LeadersOk insns ctx.leaders) (hk : k < insns.length)
    (hnot : Insn.startOf insns k ∉ ctx.leaders) : reached insns k = true := by
  cases k with
  | zero => exact absurd hleaders.zero_mem hnot
  | succ k =>
    have hget := List.getElem?_eq_getElem (show k < insns.length by omega)
    rw [reached, hget, Option.any_some, Bool.not_eq_true', Bool.eq_false_iff]
    exact fun hends => hnot (hleaders.behind k _ hget hends hk)

private theorem beginBlock_at (hleaders : LeadersOk insns ctx.leaders) (h : b.At ctx insns k)
    (hk : k < insns.length) :
    Tx.beginBlock ctx { b with starts := b.pc :: b.starts } = .ok ((), { b with
      starts := b.pc :: b.starts
      items := b.items ++ entryItems ctx.leaders insns k
      filled := false
      inBlock := true }) := by
  by_cases hmem : Insn.startOf insns k ∈ ctx.leaders
  · have hjump : (b.inBlock && !b.filled) = reached insns k := by
      rw [h.filled, Bool.not_not]
      cases hreached : reached insns k with
      | false => rw [Bool.and_false]
      | true => rw [h.inBlock hreached, Bool.and_true]
    simp only [Tx.beginBlock, h.pc, if_pos hmem, hjump, entryItems, List.append_assoc]
  · have hreached := reached_of_notMem hleaders hk hmem
    have hfilled : b.filled = false := by rw [h.filled, hreached]; rfl
    have hin := h.inBlock hreached
    simp only [Tx.beginBlock, h.pc, if_neg hmem, entryItems, List.append_nil]
    rw [← hfilled, ← hin]

private theorem flow_entry (hleaders : LeadersOk insns ctx.leaders) (hk : k < insns.length) :
    flow (reached insns k) (entryItems ctx.leaders insns k) = some true := by
  unfold entryItems
  split
  · cases reached insns k <;> rfl
  · rename_i hnot
    rw [reached_of_notMem hleaders hk hnot]
    rfl

private theorem labelsOf_append (items items' : List Item) :
    labelsOf (items ++ items') = labelsOf items ++ labelsOf items' := List.filterMap_append

private theorem labelsOf_entry (leaders : List ℕ) (insns : List Insn) (k : ℕ) :
    labelsOf (entryItems leaders insns k) =
      if Insn.startOf insns k ∈ leaders then [.leader (Insn.startOf insns k)] else [] := by
  unfold entryItems
  split
  · cases reached insns k <;> rfl
  · rfl

private theorem starts_succ (hk : insns[k]? = some i) :
    (ScanState.collect ⟨[], [], true⟩ 0 (insns.take (k + 1))).boundaries =
      Insn.startOf insns k :: (ScanState.collect ⟨[], [], true⟩ 0 (insns.take k)).boundaries := by
  obtain ⟨hlt, rfl⟩ := List.getElem?_eq_some_iff.mp hk
  rw [List.take_succ_eq_append_getElem hlt, ScanState.boundaries_collect_concat, Nat.zero_add,
    Insn.startOf_length]
  rfl

private theorem lt_startOf_succ (hleaders : LeadersOk insns ctx.leaders) (hk : k < insns.length)
    {p : ℕ} (hp : p ∈ ctx.leaders) :
    p < Insn.startOf insns (k + 1) ↔ p < Insn.startOf insns k ∨ p = Insn.startOf insns k := by
  obtain ⟨j, hj, rfl⟩ := hleaders.start p hp
  have hstep := Insn.startOf_lt (show k < k + 1 by omega) hk
  rcases Nat.lt_trichotomy j k with hlt | rfl | hgt
  · have := Insn.startOf_lt hlt (show k ≤ insns.length by omega)
    omega
  · omega
  · have hmono : Insn.startOf insns k < Insn.startOf insns j :=
      Insn.startOf_lt hgt (show j ≤ insns.length by omega)
    rcases Nat.lt_or_eq_of_le (show k + 1 ≤ j by omega) with hlt | rfl
    · have := Insn.startOf_lt hlt (show j ≤ insns.length by omega)
      omega
    · omega

private theorem mem_labels_entry {blk : Block} :
    blk ∈ labelsOf (entryItems ctx.leaders insns k) ↔
      Insn.startOf insns k ∈ ctx.leaders ∧ blk = .leader (Insn.startOf insns k) := by
  rw [labelsOf_entry]
  split
  · rename_i hmem
    simp [hmem]
  · rename_i hnot
    simp [hnot]

/-- Behind the entry into its block, an instruction finds a block open. -/
private theorem Builder.At.entered (hleaders : LeadersOk insns ctx.leaders) (h : b.At ctx insns k)
    (hk : k < insns.length) :
    Jit.flow false (b.items ++ entryItems ctx.leaders insns k) = some true ∧
      (labelsOf (b.items ++ entryItems ctx.leaders insns k)).Nodup ∧
      (∀ blk, blk ∈ labelsOf (b.items ++ entryItems ctx.leaders insns k) ↔
        blk = .entry ∨ (∃ n < b.nextBlock, blk = .fresh n) ∨
          ∃ p ∈ ctx.leaders, p < Insn.startOf insns (k + 1) ∧ blk = .leader p) ∧
      ∀ j ∈ b.items ++ entryItems ctx.leaders insns k, ∀ blk ∈ j.targets,
        Created ctx.leaders b.nextBlock blk := by
  refine ⟨flow_append h.flow (flow_entry hleaders hk), ?_, fun blk => ?_, ?_⟩
  · rw [labelsOf_append]
    refine h.nodup.append ?_ fun blk hblk hblk' => ?_
    · rw [labelsOf_entry]
      split
      · exact List.nodup_singleton _
      · exact .nil
    · obtain ⟨-, rfl⟩ := mem_labels_entry.mp hblk'
      rcases (h.labels _).mp hblk with heq | ⟨n, -, heq⟩ | ⟨p, -, hlt, heq⟩
      · cases heq
      · cases heq
      · cases heq
        exact Nat.lt_irrefl _ hlt
  · rw [labelsOf_append, List.mem_append, h.labels, mem_labels_entry]
    constructor
    · rintro ((hblk | hblk | ⟨p, hp, hlt, hblk⟩) | ⟨hmem, hblk⟩)
      · exact .inl hblk
      · exact .inr (.inl hblk)
      · exact .inr (.inr ⟨p, hp, (lt_startOf_succ hleaders hk hp).mpr (.inl hlt), hblk⟩)
      · exact .inr (.inr ⟨_, hmem, (lt_startOf_succ hleaders hk hmem).mpr (.inr rfl), hblk⟩)
    · rintro (hblk | hblk | ⟨p, hp, hlt, hblk⟩)
      · exact .inl (.inl hblk)
      · exact .inl (.inr (.inl hblk))
      · rcases (lt_startOf_succ hleaders hk hp).mp hlt with hlt | rfl
        · exact .inl (.inr (.inr ⟨p, hp, hlt, hblk⟩))
        · exact .inr ⟨hp, hblk⟩
  · intro j hj blk hblk
    rcases List.mem_append.mp hj with hj | hj
    · exact h.targets j hj blk hblk
    · unfold entryItems at hj
      split at hj
      · rename_i hmem
        rcases List.mem_append.mp hj with hj | hj
        · split at hj
          · cases List.mem_singleton.mp hj
            cases List.mem_singleton.mp hblk
            exact hmem
          · cases hj
        · cases List.mem_singleton.mp hj
          cases hblk
      · cases hj

/-- What the round of the `k`-th instruction inserts. -/
structure RoundOk (ctx : Context) (insns : List Insn) (k : ℕ) (i : Insn) (b b' : Builder)
    (new : List Item) : Prop where
  /-- The round succeeds. -/
  runs : Tx.round ctx b = .ok ((), b')
  /-- It begins at the instruction. -/
  pc : b.pc = Insn.startOf insns k
  /-- The block of the instruction is entered if it is a leader, and then comes its
  translation. -/
  items : b'.items = b.items ++ entryItems ctx.leaders insns k ++ new
  /-- The translation begins no block of the bytecode. -/
  labels : ∀ blk ∈ labelsOf new, ∃ n, blk = .fresh n
  /-- A jump goes to the block of its target. -/
  jump : ∀ off, i = .jmp off → ∃ j < insns.length,
    (Insn.startOf insns (k + 1) : ℤ) + off = Insn.startOf insns j ∧
      EndsWith (.jump (.leader (Insn.startOf insns j))) new
  /-- A conditional jump goes to the block of its target, or to that of the next instruction. -/
  branch : ∀ rc off, i = .jmpIf rc off → ∃ j < insns.length,
    (Insn.startOf insns (k + 1) : ℤ) + off = Insn.startOf insns j ∧
      ∃ c, EndsWith (.brif c (.leader (Insn.startOf insns j))
        (.leader (Insn.startOf insns (k + 1)))) new

/-- The translation about to insert the `k`-th instruction, in its block. -/
def Builder.opened (b : Builder) (ctx : Context) (insns : List Insn) (k : ℕ) : Builder := { b with
  pc := Insn.startOf insns (k + 1)
  starts := b.pc :: b.starts
  items := b.items ++ entryItems ctx.leaders insns k
  filled := false
  inBlock := true }

/-- A round enters the block of the instruction, and then translates it. -/
theorem Builder.At.round_eq (hfn : ctx.fn.WellFormed ctx.module insns)
    (hleaders : LeadersOk insns ctx.leaders) (h : b.At ctx insns k) (hk : insns[k]? = some i) :
    Tx.round ctx b = Tx.emit ctx i (Insn.startOf insns (k + 1)) (b.opened ctx insns k) := by
  have hlt := (List.getElem?_eq_some_iff.mp hk).1
  let b₁ : Builder := { b with
    starts := b.pc :: b.starts
    items := b.items ++ entryItems ctx.leaders insns k
    filled := false
    inBlock := true }
  have hdecode : decodeAt ctx.fn.code b₁.pc = some (i, Insn.startOf insns (k + 1)) := by
    rw [show b₁.pc = Insn.startOf insns k from h.pc, hfn.code_eq]
    exact Insn.decodeAt_startOf hfn.encodable hk
  have hround : Tx.round ctx b = Tx.translateInsn ctx b₁ := by
    change (Tx.beginBlock ctx >>= fun _ => get >>= fun s =>
      if s.filled then Tx.read (skipInsn ctx.fn.code) else Tx.translateInsn ctx)
        { b with starts := b.pc :: b.starts } = _
    rw [Tx.bind_ok (beginBlock_at hleaders h hlt)]
    rfl
  rw [hround, Tx.translateInsn_eq_emit hdecode]
  rfl

/-- The translation takes one instruction a round. -/
theorem Builder.At.round (hfn : ctx.fn.WellFormed ctx.module insns)
    (hmap : ctx.module.atoms.length ≤ ctx.atomMap.length) (hleaders : LeadersOk insns ctx.leaders)
    (h : b.At ctx insns k) (hk : insns[k]? = some i) :
    ∃ b' new, RoundOk ctx insns k i b b' new ∧ b'.At ctx insns (k + 1) := by
  have hlt := (List.getElem?_eq_some_iff.mp hk).1
  have hmem := List.mem_of_getElem? hk
  obtain ⟨⟨⟩, b', new, hrun, hnew, hbranches⟩ := inserts_emit (hfn.operands i hmem) hmap
    (fun off => hleaders.target_mem hk)
    (fun hoff hfalls => hleaders.next_mem hk hoff (hfn.succ_lt hk hfalls))
    (b.opened ctx insns k)
  obtain ⟨hflow, hnodup, hlabels, htargets⟩ := h.entered hleaders hlt
  have hitems : b'.items = b.items ++ entryItems ctx.leaders insns k ++ new := hnew.items
  have hblocks : b.nextBlock ≤ b'.nextBlock := hnew.block_le
  refine ⟨b', new, ⟨?_, h.pc, hitems, fun blk hblk => ?_, ?_, ?_⟩, ?_⟩
  · rw [h.round_eq hfn hleaders hk, hrun]
  · obtain ⟨n, -, -, heq⟩ := (hnew.labels blk).mp hblk
    exact ⟨n, heq⟩
  · rintro off rfl
    obtain ⟨j, hj, hoff, htgt, -⟩ := hleaders.jump k _ off hk rfl
    exact ⟨j, hj, hoff, htgt ▸ hbranches.1 off rfl⟩
  · rintro rc off rfl
    obtain ⟨j, hj, hoff, htgt, -⟩ := hleaders.jump k _ off hk rfl
    exact ⟨j, hj, hoff, htgt ▸ hbranches.2 rc off rfl⟩
  · have hreached : reached insns (k + 1) = !i.endsBlock := by rw [reached, hk]; rfl
    constructor
    · exact hnew.pc
    · rw [hnew.filled, hreached, Bool.not_not]
      exact Bool.false_or _
    · exact fun _ => hnew.inBlock
    · rw [hnew.starts, starts_succ hk, ← h.starts, ← h.pc]
      rfl
    · rw [hitems, List.head?_append, List.head?_append, h.entry]
      rfl
    · rw [hitems, hreached]
      exact flow_append hflow hnew.flow
    · rw [hitems, labelsOf_append]
      refine hnodup.append hnew.nodup fun blk hblk hblk' => ?_
      obtain ⟨n, hle, -, rfl⟩ := (hnew.labels blk).mp hblk'
      rcases (hlabels _).mp hblk with heq | ⟨n', hlt', heq⟩ | ⟨p, -, -, heq⟩
      · cases heq
      · cases heq
        exact absurd hlt' (Nat.not_lt.mpr hle)
      · cases heq
    · intro blk
      rw [hitems, labelsOf_append, List.mem_append, hlabels, hnew.labels]
      constructor
      · rintro ((hblk | ⟨n, hn, hblk⟩ | hblk) | ⟨n, -, hn, hblk⟩)
        · exact .inl hblk
        · exact .inr (.inl ⟨n, Nat.lt_of_lt_of_le hn hblocks, hblk⟩)
        · exact .inr (.inr hblk)
        · exact .inr (.inl ⟨n, hn, hblk⟩)
      · rintro (hblk | ⟨n, hn, hblk⟩ | hblk)
        · exact .inl (.inl hblk)
        · rcases Nat.lt_or_ge n b.nextBlock with hlt' | hge
          · exact .inl (.inr (.inl ⟨n, hlt', hblk⟩))
          · exact .inr ⟨n, hge, hn, hblk⟩
        · exact .inl (.inr (.inr hblk))
    · intro j hj blk hblk
      rw [hitems] at hj
      rcases List.mem_append.mp hj with hj | hj
      · exact (htargets j hj blk hblk).mono hblocks
      · exact hnew.targets j hj blk hblk

end Round

/-- The prologue and the first `k` rounds. -/
def Tx.rounds (ctx : Context) : ℕ → Tx Unit
  | 0 => Tx.prologue ctx
  | k + 1 => do
    Tx.rounds ctx k
    Tx.round ctx

section Whole

variable {ctx : Context} {insns : List Insn} {k : ℕ} {b : Builder}

/-- The registers are defined in order. -/
def paramItems (ctx : Context) (nil : Value) (regs : List ℕ) : List Item :=
  regs.map fun r => .defVar r (if r < ctx.fn.arity.toNat then r else nil)

private theorem defParams_eq (nil : Value) (regs : List ℕ) (b : Builder) :
    Tx.defParams ctx nil regs b =
      .ok ((), { b with items := b.items ++ paramItems ctx nil regs }) := by
  induction regs generalizing b with
  | nil =>
    rw [paramItems, List.map_nil, List.append_nil]
    rfl
  | cons r rs ih =>
    rw [Tx.defParams, Tx.bind_ok rfl, ih, paramItems, paramItems, List.map_cons,
      List.append_assoc]
    rfl

private theorem flow_params (nil : Value) (regs : List ℕ) :
    flow true (paramItems ctx nil regs) = some true := by
  induction regs with
  | nil => rfl
  | cons r rs ih => exact ih

private theorem labelsOf_params (nil : Value) (regs : List ℕ) :
    labelsOf (paramItems ctx nil regs) = [] := by
  induction regs with
  | nil => rfl
  | cons r rs ih => exact ih

/-- What the prologue inserts. -/
def prologueItems (ctx : Context) : List Item :=
  [.label .entry, .iconst ctx.fn.arity.toNat Term.nil.word] ++
    paramItems ctx ctx.fn.arity.toNat (List.range ctx.fn.nregs.toNat) ++ [.jump (.leader 0)]

/-- The translation behind the prologue. -/
theorem prologue_eq (hzero : 0 ∈ ctx.leaders) :
    Tx.prologue ctx (.init ctx.fn) = .ok ((),
      ⟨0, true, false, ctx.fn.arity.toNat + 1, 0, 0, prologueItems ctx, []⟩) := by
  rw [Tx.prologue, Tx.bind_ok rfl, Tx.bind_ok rfl, Tx.bind_ok (defParams_eq _ _ _), if_pos hzero]
  rfl

/-- Before the first round only the entry block has been begun. -/
private theorem prologue_at (hleaders : LeadersOk insns ctx.leaders) :
    ∃ b, Tx.prologue ctx (.init ctx.fn) = .ok ((), b) ∧ b.At ctx insns 0 := by
  have hlabels : labelsOf (prologueItems ctx) = [.entry] := by
    rw [prologueItems, labelsOf_append, labelsOf_append, labelsOf_params]
    rfl
  refine ⟨_, prologue_eq hleaders.zero_mem, rfl, rfl, by simp [reached], rfl, rfl, ?_, ?_,
    fun blk => ?_, ?_⟩
  · refine flow_append (flow_append ?_ (flow_params _ _)) rfl
    rfl
  · rw [hlabels]
    exact List.nodup_singleton _
  · rw [hlabels]
    simp [Insn.startOf, Insn.encodeAll]
  · intro j hj blk hblk
    rcases List.mem_append.mp hj with hj | hj
    · rcases List.mem_append.mp hj with hj | hj
      · simp only [List.mem_cons, List.not_mem_nil, or_false] at hj
        rcases hj with rfl | rfl <;> cases hblk
      · obtain ⟨r, -, rfl⟩ := List.mem_map.mp hj
        cases hblk
    · cases List.mem_singleton.mp hj
      cases List.mem_singleton.mp hblk
      exact hleaders.zero_mem

variable (hfn : ctx.fn.WellFormed ctx.module insns)
  (hmap : ctx.module.atoms.length ≤ ctx.atomMap.length) (hleaders : LeadersOk insns ctx.leaders)

include hfn hmap hleaders

/-- The rounds come to every instruction. -/
theorem rounds_at (hk : k ≤ insns.length) :
    ∃ b, Tx.rounds ctx k (.init ctx.fn) = .ok ((), b) ∧ b.At ctx insns k := by
  induction k with
  | zero => exact prologue_at hleaders
  | succ k ih =>
    obtain ⟨b, hrun, hat⟩ := ih (by omega)
    obtain ⟨b', new, hround, hat'⟩ :=
      hat.round hfn hmap hleaders (List.getElem?_eq_getElem (show k < insns.length by omega))
    exact ⟨b', (Tx.bind_ok hrun).trans hround.runs, hat'⟩

omit hmap hleaders in
private theorem Builder.At.pc_lt_iff (hat : b.At ctx insns k) (hk : k ≤ insns.length) :
    b.pc < ctx.fn.code.length ↔ k < insns.length := by
  rw [hat.pc, hfn.code_eq, ← Insn.startOf_length]
  constructor
  · intro hlt
    refine Nat.lt_of_le_of_ne hk ?_
    rintro rfl
    exact Nat.lt_irrefl _ hlt
  · exact fun hlt => Insn.startOf_lt hlt le_rfl

/-- The loop goes on to the end of the code. -/
private theorem loop_at (hk : k ≤ insns.length)
    (hrun : Tx.rounds ctx k (.init ctx.fn) = .ok ((), b)) (hat : b.At ctx insns k) {n : ℕ}
    (hn : ctx.fn.code.length ≤ b.pc + n) :
    ∃ b', Tx.loop ctx n b = .ok ((), b') ∧
      Tx.rounds ctx insns.length (.init ctx.fn) = .ok ((), b') ∧ b'.At ctx insns insns.length := by
  have hmore := hat.pc_lt_iff hfn hk
  induction n generalizing k b with
  | zero =>
    obtain rfl : k = insns.length := by omega
    exact ⟨b, rfl, hrun, hat⟩
  | succ n ih =>
    have hloop : Tx.loop ctx (n + 1) b =
        (if b.pc < ctx.fn.code.length then do Tx.round ctx; Tx.loop ctx n else pure ()) b := rfl
    by_cases hpc : b.pc < ctx.fn.code.length
    · have hk' := hmore.mp hpc
      obtain ⟨b', new, hround, hat'⟩ :=
        hat.round hfn hmap hleaders (List.getElem?_eq_getElem hk')
      have hstep : b.pc < b'.pc := by
        rw [hat.pc, hat'.pc]
        exact Insn.startOf_lt (Nat.lt_succ_self k) hk'
      rw [hloop, if_pos hpc, Tx.bind_ok hround.runs]
      exact ih hk' ((Tx.bind_ok hrun).trans hround.runs) hat' (by omega) (hat'.pc_lt_iff hfn hk')
    · obtain rfl : k = insns.length := by omega
      rw [hloop, if_neg hpc]
      exact ⟨b, rfl, hrun, hat⟩

omit hmap hleaders in
private theorem reached_length : reached insns insns.length = false := by
  obtain ⟨i, hi, hstop⟩ := hfn.last
  rw [List.getLast?_eq_getElem?] at hi
  have hlt := (List.getElem?_eq_some_iff.mp hi).1
  obtain ⟨n, hn⟩ : ∃ n, insns.length = n + 1 := ⟨insns.length - 1, by omega⟩
  rw [hn, Nat.add_sub_cancel] at hi
  rw [hn, reached, hi]
  simp [Insn.endsBlock, hstop]

omit hmap in
/-- With the trap block behind the last instruction, the blocks are in order. -/
private theorem Builder.At.wellFormed (hat : b.At ctx insns insns.length) {rest : List Item}
    (hlabels : labelsOf rest = [.trap]) (hflow : Jit.flow false rest = some false)
    (htargets : ∀ i ∈ rest, i.targets = []) :
    WellFormedCfg ctx.leaders b.nextBlock (b.items ++ rest) := by
  have hmem : ∀ blk, blk ∈ labelsOf (b.items ++ rest) ↔ Created ctx.leaders b.nextBlock blk := by
    intro blk
    rw [labelsOf_append, hlabels, List.mem_append, hat.labels, List.mem_singleton]
    cases blk with
    | entry => simp [Created]
    | trap => simp [Created]
    | fresh n => simp [Created]
    | leader p =>
      have hlt : p ∈ ctx.leaders → p < Insn.startOf insns insns.length := by
        intro hp
        obtain ⟨j, hj, rfl⟩ := hleaders.start p hp
        exact Insn.startOf_lt hj le_rfl
      simpa [Created] using hlt
  have hnodup : (labelsOf (b.items ++ rest)).Nodup := by
    rw [labelsOf_append, hlabels]
    refine hat.nodup.append (List.nodup_singleton _) fun blk hblk htrap => ?_
    cases List.mem_singleton.mp htrap
    simpa using (hat.labels .trap).mp hblk
  constructor
  · rw [List.head?_append, hat.entry]
    rfl
  · exact fun blk hblk => List.count_eq_one_of_mem hnodup ((hmem blk).mpr hblk)
  · exact fun blk hblk => (hmem blk).mp hblk
  · have hopen := hat.flow
    rw [reached_length hfn] at hopen
    exact blocks_ended (flow_append hopen hflow)
  · intro i hi blk hblk
    rcases List.mem_append.mp hi with hi | hi
    · exact hat.targets i hi blk hblk
    · rw [htargets i hi] at hblk
      cases hblk

/-- The whole translation comes to its end, a round began at every instruction, and the blocks
are in order. -/
theorem body_wellFormed : ∃ b b',
    Tx.rounds ctx insns.length (.init ctx.fn) = .ok ((), b) ∧ Tx.epilogue b = .ok ((), b') ∧
      Tx.body ctx (.init ctx.fn) = .ok ((), b') ∧
      b'.starts = (ScanState.collect ⟨[], [], true⟩ 0 insns).boundaries ∧
      WellFormedCfg ctx.leaders b'.nextBlock b'.items := by
  obtain ⟨b₀, hrun, hat₀⟩ := prologue_at hleaders
  obtain ⟨b, hloop, hrounds, hat⟩ := loop_at hfn hmap hleaders (Nat.zero_le _) hrun hat₀
    (show ctx.fn.code.length ≤ b₀.pc + ctx.fn.code.length by omega)
  let rest : List Item := [.label .trap, .call none (.helper .trapBadarg) [], .trap]
  have hepilogue : Tx.epilogue b = .ok ((), { b with items := b.items ++ rest }) := by
    rw [Tx.epilogue, Tx.bind_ok rfl, Tx.bind_ok rfl]
    simp [Tx.push, rest]
  refine ⟨b, _, hrounds, hepilogue, ?_, ?_, hat.wellFormed hfn hleaders rfl rfl ?_⟩
  · rw [Tx.body, Tx.bind_ok hrun, Tx.bind_ok hloop]
    exact hepilogue
  · have hstarts := hat.starts
    rwa [List.take_length] at hstarts
  · simp [rest, Item.targets]

end Whole

/-- Every function of a verified module is compiled, whatever its external calls are bound to.
Its leaders are found; each instruction is translated in a round of its own, which enters the
block of the instruction if it is a leader, by a jump where straight-line code comes to it, and
sends branches to the blocks of their targets; and in the end the blocks are in order. -/
theorem compileFn_total_wellFormed {m : Module} (hm : verify m = .ok ()) {atomMap : List UInt32}
    (hmap : m.atoms.length ≤ atomMap.length) (resolver : ExtResolver) {f : Function}
    (hf : f ∈ m.functions) :
    ∃ insns leaders b b', f.code = Insn.encodeAll insns ∧ (∀ i ∈ insns, i.Encodable) ∧
      findLeaders f.code = .ok leaders ∧ LeadersOk insns leaders ∧
      (∀ k i, insns[k]? = some i → ∃ b b' new,
        Tx.rounds ⟨m, atomMap, resolver, f, leaders⟩ k (.init f) = .ok ((), b) ∧
          RoundOk ⟨m, atomMap, resolver, f, leaders⟩ insns k i b b' new) ∧
      Tx.rounds ⟨m, atomMap, resolver, f, leaders⟩ insns.length (.init f) = .ok ((), b) ∧
      Tx.epilogue b = .ok ((), b') ∧
      compileFn m atomMap resolver f = .ok ⟨f.arity.toNat, f.nregs.toNat, f.code, b'.items⟩ ∧
      WellFormedCfg leaders b'.nextBlock b'.items := by
  obtain ⟨insns, hfn⟩ := (verify_eq_ok_iff m).mp hm f hf
  obtain ⟨leaders, hfind, hleaders⟩ := findLeaders_ok hfn
  let ctx : Context := ⟨m, atomMap, resolver, f, leaders⟩
  have hfn' : ctx.fn.WellFormed ctx.module insns := hfn
  have hleaders' : LeadersOk insns ctx.leaders := hleaders
  obtain ⟨b, b', hrounds, hepilogue, hbody, -, hcfg⟩ := body_wellFormed hfn' hmap hleaders'
  refine ⟨insns, leaders, b, b', hfn.code_eq, hfn.encodable, hfind, hleaders, ?_, hrounds,
    hepilogue, ?_, hcfg⟩
  · intro k i hk
    have hlt := (List.getElem?_eq_some_iff.mp hk).1
    obtain ⟨b, hrun, hat⟩ := rounds_at hfn' hmap hleaders' hlt.le
    obtain ⟨b', new, hround, -⟩ := hat.round hfn' hmap hleaders' hk
    exact ⟨b, b', new, hrun, hround⟩
  · have hbody' : Tx.body ⟨m, atomMap, resolver, f, leaders⟩ (.init f) = .ok ((), b') := hbody
    simp only [compileFn, hfind, hbody', bind, Except.bind, pure, Except.pure]

/-- A function that jumps back while its argument is a nonzero integer, as a module. -/
def spin : Module := ⟨["f"], [⟨0, 1, 1, [17, 0, 250, 255, 255, 255, 19, 0]⟩]⟩

/-- The module passes the verifier, and its function is compiled to a well-formed graph. -/
theorem spin_compiled : verify spin = .ok () ∧ ∀ f ∈ spin.functions, ∃ leaders fresh fn,
    compileFn spin [7] (fun _ _ => none) f = .ok fn ∧ WellFormedCfg leaders fresh fn.items := by
  have hm : verify spin = .ok () := by decide
  have hmap : spin.atoms.length ≤ [(7 : UInt32)].length := le_rfl
  refine ⟨hm, fun f hf => ?_⟩
  obtain ⟨-, leaders, -, b, -, -, -, -, -, -, -, hcompiled, hcfg⟩ :=
    compileFn_total_wellFormed hm hmap (fun _ _ => none) hf
  exact ⟨leaders, b.nextBlock, _, hcompiled, hcfg⟩

end Jit

end Yggdrasil
