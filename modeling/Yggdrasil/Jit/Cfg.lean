import Yggdrasil.Jit.Emit
import Yggdrasil.Jit.LeaderSpec

/-!
# Blocks of compiled functions

A function of the representation is a list of instructions with labels. Read from the front, a
label opens a block, which has to be closed before the next label, and a terminator closes it;
nothing stands outside a block. `Inserts` says of a step of the translation that, begun in an
open block, it keeps to this: the blocks it makes are labelled once each, and the branches lead
to blocks that were made. The rules follow the shape of the translation.
-/

namespace Yggdrasil

namespace Jit

/-- The instruction ends a block. -/
def Item.isTerminator : Item → Bool
  | .jump _ | .brif _ _ _ | .ret _ | .trap => true
  | _ => false

/-- The block a label begins. -/
def Item.label? : Item → Option Block
  | .label b => some b
  | _ => none

/-- The blocks an instruction may go to. -/
def Item.targets : Item → List Block
  | .jump b => [b]
  | .brif _ b₁ b₂ => [b₁, b₂]
  | _ => []

/-- The blocks begun, in order. -/
def labelsOf (items : List Item) : List Block := items.filterMap Item.label?

/-- The blocks with their instructions, in order. -/
def blocksOf : List Item → List (Block × List Item)
  | [] => []
  | i :: rest =>
    match i.label? with
    | some b => (b, rest.takeWhile fun j => j.label?.isNone) :: blocksOf rest
    | none => blocksOf rest

/-- The blocks of a function with leaders `leaders`, of which `fresh` were made while
instructions were translated. -/
def Created (leaders : List ℕ) (fresh : ℕ) : Block → Prop
  | .entry | .trap => True
  | .leader p => p ∈ leaders
  | .fresh n => n < fresh

/-- The blocks of a function are in order. -/
structure WellFormedCfg (leaders : List ℕ) (fresh : ℕ) (items : List Item) : Prop where
  /-- The function begins with its entry block. -/
  entry : items.head? = some (.label .entry)
  /-- Every block made is begun exactly once. -/
  once : ∀ blk, Created leaders fresh blk → (labelsOf items).count blk = 1
  /-- No other block is begun. -/
  created : ∀ blk ∈ labelsOf items, Created leaders fresh blk
  /-- Every block has exactly one terminator, and it comes last. -/
  ended : ∀ p ∈ blocksOf items, ∃ init t, p.2 = init ++ [t] ∧ t.isTerminator = true ∧
    ∀ i ∈ init, i.isTerminator = false
  /-- Branches lead to blocks that were made. -/
  targets : ∀ i ∈ items, ∀ blk ∈ i.targets, Created leaders fresh blk

/-- One instruction read while a block is open or not; the result is whether one is open then. -/
def Item.flow (opened : Bool) (i : Item) : Option Bool :=
  if i.label?.isSome then if opened then none else some true
  else if opened then some (!i.isTerminator) else none

/-- Instructions read one after the other. -/
def flow (opened : Bool) (items : List Item) : Option Bool := items.foldlM Item.flow opened

section Flow

variable {items items' : List Item} {o o' o'' : Bool}

/-- Two stretches of instructions. -/
theorem flow_append (h : flow o items = some o') (h' : flow o' items' = some o'') :
    flow o (items ++ items') = some o'' := by
  rw [flow, List.foldlM_append, ← flow, h]
  exact h'

private theorem flow_cons_eq_some {i : Item} :
    flow o (i :: items) = some o'' ↔ ∃ o', i.flow o = some o' ∧ flow o' items = some o'' := by
  rw [flow, List.foldlM_cons]
  exact Option.bind_eq_some_iff

/-- An open block that is closed in the end has one terminator, behind which the next block
begins. -/
private theorem open_block_ended (h : flow true items = some false) :
    ∃ init t, items.takeWhile (fun j => j.label?.isNone) = init ++ [t] ∧
      t.isTerminator = true ∧ ∀ i ∈ init, i.isTerminator = false := by
  induction items with
  | nil => cases h
  | cons i rest ih =>
    obtain ⟨o, hi, hrest⟩ := flow_cons_eq_some.mp h
    have hplain : i.label?.isNone = true := by
      by_contra hlabel
      rw [Option.isNone_iff_eq_none, ← Option.not_isSome_iff_eq_none, not_not] at hlabel
      simp [Item.flow, hlabel] at hi
    have hsome : i.label?.isSome = false := by simpa using hplain
    rw [List.takeWhile_cons, if_pos hplain]
    cases hterm : i.isTerminator with
    | false =>
      obtain rfl : o = true := by simpa [Item.flow, hsome, hterm] using hi.symm
      obtain ⟨init, t, heq, ht, hinit⟩ := ih hrest
      exact ⟨i :: init, t, by rw [heq]; rfl, ht, List.forall_mem_cons.mpr ⟨hterm, hinit⟩⟩
    | true =>
      obtain rfl : o = false := by simpa [Item.flow, hsome, hterm] using hi.symm
      refine ⟨[], i, ?_, hterm, by simp⟩
      cases rest with
      | nil => rfl
      | cons j rest =>
        obtain ⟨o', hj, -⟩ := flow_cons_eq_some.mp hrest
        have hlabel : ¬j.label?.isNone = true := by
          intro hnone
          have hsome' : j.label?.isSome = false := by simpa using hnone
          simp [Item.flow, hsome'] at hj
        rw [List.takeWhile_cons, if_neg hlabel]
        rfl

/-- If everything stands in a block and the last one is closed, every block has exactly one
terminator, and it comes last. -/
theorem blocks_ended (h : flow o items = some false) :
    ∀ p ∈ blocksOf items, ∃ init t, p.2 = init ++ [t] ∧ t.isTerminator = true ∧
      ∀ i ∈ init, i.isTerminator = false := by
  induction items generalizing o with
  | nil => simp [blocksOf]
  | cons i rest ih =>
    obtain ⟨o', hi, hrest⟩ := flow_cons_eq_some.mp h
    rw [blocksOf]
    cases hlabel : i.label? with
    | none => exact ih hrest
    | some b =>
      have hopen : o' = true := by
        rw [Item.flow, hlabel] at hi
        cases o <;> simp at hi
        exact hi
      subst hopen
      exact List.forall_mem_cons.mpr ⟨open_block_ended hrest, ih hrest⟩

end Flow

/-- What a step of the translation inserts, begun in an open block, keeps the blocks in order;
`fills` tells whether it closes the block. -/
structure Inserted (ctx : Context) (fills : Bool) (b b' : Builder) (new : List Item) : Prop where
  /-- Nothing is read. -/
  pc : b'.pc = b.pc
  /-- No instruction of the bytecode is begun. -/
  starts : b'.starts = b.starts
  /-- No block of the bytecode is begun. -/
  inBlock : b'.inBlock = b.inBlock
  /-- The flag tells whether the block has its terminator. -/
  filled : b'.filled = (b.filled || fills)
  /-- The instructions come behind those that were there. -/
  items : b'.items = b.items ++ new
  /-- They keep to open blocks. -/
  flow : flow true new = some !fills
  /-- Blocks are only added. -/
  block_le : b.nextBlock ≤ b'.nextBlock
  /-- No block is begun twice. -/
  nodup : (labelsOf new).Nodup
  /-- The blocks begun are those made. -/
  labels : ∀ blk, blk ∈ labelsOf new ↔ ∃ n, b.nextBlock ≤ n ∧ n < b'.nextBlock ∧ blk = .fresh n
  /-- Branches lead to blocks that were made. -/
  targets : ∀ i ∈ new, ∀ blk ∈ i.targets, Created ctx.leaders b'.nextBlock blk

/-- More blocks may have been made. -/
theorem Created.mono {leaders : List ℕ} {n n' : ℕ} {blk : Block} (h : Created leaders n blk)
    (hle : n ≤ n') : Created leaders n' blk := by
  cases blk with
  | entry => trivial
  | trap => trivial
  | leader p => exact h
  | fresh k => exact Nat.lt_of_lt_of_le h hle

namespace Inserted

variable {ctx : Context} {fills : Bool} {b b' b'' : Builder} {new new' : List Item}

/-- No item is inserted and no block ends. -/
theorem refl (b : Builder) : Inserted ctx false b b [] where
  pc := rfl
  starts := rfl
  inBlock := rfl
  filled := (Bool.or_false _).symm
  items := (List.append_nil _).symm
  flow := rfl
  block_le := le_rfl
  nodup := .nil
  labels blk := by
    simp only [labelsOf, List.filterMap_nil, List.not_mem_nil, false_iff]
    rintro ⟨n, hle, hlt, -⟩
    omega
  targets := by simp

/-- What is inserted by two computations in a row follows each other. -/
theorem trans (h : Inserted ctx false b b' new) (h' : Inserted ctx fills b' b'' new') :
    Inserted ctx fills b b'' (new ++ new') where
  pc := h'.pc.trans h.pc
  starts := h'.starts.trans h.starts
  inBlock := h'.inBlock.trans h.inBlock
  filled := by rw [h'.filled, h.filled, Bool.or_false]
  items := by rw [h'.items, h.items, List.append_assoc]
  flow := flow_append h.flow h'.flow
  block_le := h.block_le.trans h'.block_le
  nodup := by
    rw [labelsOf, List.filterMap_append]
    refine h.nodup.append h'.nodup fun blk hblk hblk' => ?_
    obtain ⟨n, -, hlt, rfl⟩ := (h.labels blk).mp hblk
    obtain ⟨n', hle, -, heq⟩ := (h'.labels _).mp hblk'
    cases heq
    omega
  labels blk := by
    rw [labelsOf, List.filterMap_append, List.mem_append]
    have hle := h.block_le
    have hle' := h'.block_le
    constructor
    · rintro (hblk | hblk)
      · obtain ⟨n, hlo, hhi, rfl⟩ := (h.labels blk).mp hblk
        exact ⟨n, hlo, by omega, rfl⟩
      · obtain ⟨n, hlo, hhi, rfl⟩ := (h'.labels blk).mp hblk
        exact ⟨n, by omega, hhi, rfl⟩
    · rintro ⟨n, hlo, hhi, rfl⟩
      by_cases hn : n < b'.nextBlock
      · exact .inl ((h.labels _).mpr ⟨n, hlo, hn, rfl⟩)
      · exact .inr ((h'.labels _).mpr ⟨n, by omega, hhi, rfl⟩)
  targets i hi blk hblk := by
    rcases List.mem_append.mp hi with hi | hi
    · exact (h.targets i hi blk hblk).mono h'.block_le
    · exact h'.targets i hi blk hblk

end Inserted

/-- The step of the translation succeeds and keeps the blocks in order; its result and what it
inserts satisfy `Q`. -/
def Inserts {α : Type} (ctx : Context) (fills : Bool) (x : Tx α) (Q : α → List Item → Prop) :
    Prop :=
  ∀ b, ∃ a b' new, x b = .ok (a, b') ∧ Inserted ctx fills b b' new ∧ Q a new

section Rules

variable {α β : Type} {ctx : Context} {fills : Bool} {P Q : α → List Item → Prop}

/-- A step that inserts nothing. -/
theorem Inserts.pure {a : α} (h : Q a []) : Inserts ctx false (Pure.pure a) Q :=
  fun b => ⟨a, b, [], rfl, .refl b, h⟩

/-- A computation that goes on after another one inserts behind it. -/
theorem Inserts.bind {R : β → List Item → Prop} {x : Tx α} {g : α → Tx β}
    (hx : Inserts ctx false x P)
    (hg : ∀ a new, P a new → Inserts ctx fills (g a) fun c new' => R c (new ++ new')) :
    Inserts ctx fills (x >>= g) R := by
  intro b
  obtain ⟨a, b₁, new, hxb, hnew, ha⟩ := hx b
  obtain ⟨c, b₂, new', hgb, hnew', hc⟩ := hg a new ha b₁
  exact ⟨c, b₂, new ++ new', (Tx.bind_ok hxb).trans hgb, hnew.trans hnew', hc⟩

/-- Less may be said of the result. -/
theorem Inserts.mono {x : Tx α} (hx : Inserts ctx fills x P) (h : ∀ a new, P a new → Q a new) :
    Inserts ctx fills x Q := by
  intro b
  obtain ⟨a, b', new, hxb, hnew, ha⟩ := hx b
  exact ⟨a, b', new, hxb, hnew, h a new ha⟩

/-- An instruction that stands inside a block. -/
def Item.isPlain (i : Item) : Bool := i.label?.isNone && !i.isTerminator

private theorem Item.plain_targets {i : Item} (hi : i.isPlain = true) : i.targets = [] := by
  cases i <;> first | rfl | cases hi

private theorem inserted_plain {i : Item} (hi : i.isPlain = true) {b b' : Builder}
    (hpc : b'.pc = b.pc) (hstarts : b'.starts = b.starts) (hin : b'.inBlock = b.inBlock)
    (hfilled : b'.filled = b.filled) (hitems : b'.items = b.items ++ [i])
    (hblock : b'.nextBlock = b.nextBlock) : Inserted ctx false b b' [i] := by
  obtain ⟨hlabel, hterm⟩ : i.label? = none ∧ i.isTerminator = false := by
    simpa [Item.isPlain] using hi
  have hnone : labelsOf [i] = [] := by simp [labelsOf, hlabel]
  refine ⟨hpc, hstarts, hin, by rw [hfilled, Bool.or_false], hitems, ?_, hblock.ge, ?_, ?_, ?_⟩
  · simp [Jit.flow, Item.flow, hlabel, hterm]
  · rw [hnone]
    exact .nil
  · intro blk
    rw [hnone]
    simp only [List.not_mem_nil, false_iff]
    rintro ⟨n, hle, hlt, -⟩
    omega
  · intro j hj blk hblk
    rw [List.mem_singleton.mp hj, Item.plain_targets hi] at hblk
    cases hblk

/-- An instruction without a result. -/
theorem inserts_push {i : Item} (hi : i.isPlain = true) :
    Inserts ctx false (Tx.push i) fun _ _ => True :=
  fun _ => ⟨(), _, [i], rfl, inserted_plain hi rfl rfl rfl rfl rfl rfl, trivial⟩

/-- An instruction with a result. -/
theorem inserts_ins {mk : Value → Item} (hmk : ∀ v, (mk v).isPlain = true) :
    Inserts ctx false (Tx.ins mk) fun _ _ => True :=
  fun b => ⟨b.nextValue, _, [mk b.nextValue], rfl,
    inserted_plain (hmk b.nextValue) rfl rfl rfl rfl rfl rfl, trivial⟩

/-- A terminator closes the block. -/
theorem inserts_end {i : Item} (hlabel : i.label? = none) (hterm : i.isTerminator = true)
    (htargets : ∀ blk ∈ i.targets, ∀ n, Created ctx.leaders n blk) :
    Inserts ctx true (do Tx.push i; Tx.fill) fun _ new => new = [i] := by
  intro b
  refine ⟨(), { b with items := b.items ++ [i], filled := true }, [i], rfl, ?_, rfl⟩
  have hnone : labelsOf [i] = [] := by simp [labelsOf, hlabel]
  refine ⟨rfl, rfl, rfl, (Bool.or_true _).symm, rfl, ?_, le_rfl, ?_, ?_, ?_⟩
  · simp [Jit.flow, Item.flow, hlabel, hterm]
  · rw [hnone]
    exact .nil
  · intro blk
    rw [hnone]
    simp only [List.not_mem_nil, false_iff]
    rintro ⟨n, hle, hlt, -⟩
    exact Nat.lt_irrefl _ (Nat.lt_of_le_of_lt hle hlt)
  · intro j hj blk hblk
    rw [List.mem_singleton.mp hj] at hblk
    exact htargets blk hblk _

end Rules

end Jit

end Yggdrasil
