import Yggdrasil.Bytecode.Encode
import Yggdrasil.Lib.Backpatch

/-!
# The code builder

Code is emitted front to back; a jump offset is left blank until all labels are bound.
-/

namespace Yggdrasil

open Backpatch (Item)

/-- `CodeBuilder`. The map of labels is a list in which a later binding comes first. -/
structure CodeBuilder where
  /-- The code so far. -/
  code : List UInt8
  /-- Positions of offsets that are still blank, with their labels. -/
  fixups : List (ℕ × UInt32)
  /-- Where labels are bound. -/
  labels : List (UInt32 × ℕ)
  deriving DecidableEq, Repr

namespace CodeBuilder

/-- `CodeBuilder::new`: no bytes and no labels. -/
def new : CodeBuilder := ⟨[], [], []⟩

/-- Append bytes. -/
def extend (b : CodeBuilder) (bs : List UInt8) : CodeBuilder := { b with code := b.code ++ bs }

/-- `u8`: append a byte. -/
def u8 (b : CodeBuilder) (v : UInt8) : CodeBuilder := b.extend [v]

/-- `u32`: append four bytes, little-endian. -/
def u32 (b : CodeBuilder) (v : UInt32) : CodeBuilder := b.extend (leBytes 4 v.toNat)

/-- `i64`: append eight bytes, little-endian. -/
def i64 (b : CodeBuilder) (v : Word) : CodeBuilder := b.extend (leBytes 8 v.toNat)

/-- `label_ref`: leave an offset to `label` blank. -/
def labelRef (b : CodeBuilder) (label : UInt32) : CodeBuilder :=
  { b.extend (Insn.encodeOffset 0) with fixups := b.fixups ++ [(b.code.length, label)] }

/-- `bind`: a label stands here. -/
def bindLabel (b : CodeBuilder) (label : UInt32) : CodeBuilder :=
  { b with labels := (label, b.code.length) :: b.labels }

/-- Fill in one offset, which is relative to the byte behind it. -/
def fixup (labels : List (UInt32 × ℕ)) (code : List UInt8) (hole : ℕ × UInt32) :
    Except UInt32 (List UInt8) :=
  match labels.lookup hole.2 with
  | none => .error hole.2
  | some target =>
    .ok (Backpatch.write code hole.1 (Insn.encodeOffset ((target : ℤ) - ((hole.1 + 4 : ℕ) : ℤ))))

/-- `finish`: fill in all offsets, or name a label that is not bound. -/
def finish (b : CodeBuilder) : Except UInt32 (List UInt8) := b.fixups.foldlM (fixup b.labels) b.code

/-- The code of the builder is `items` with blank offsets. -/
structure Builds (b : CodeBuilder) (items : List (Item UInt8 UInt32)) : Prop where
  /-- The code with blank offsets. -/
  code_eq : b.code = Backpatch.place (fun _ _ => Insn.encodeOffset 0) 0 items
  /-- All blank offsets are noted. -/
  fixups_eq : b.fixups = Backpatch.holes 4 0 items

/-- The offset at `pos` to a label. -/
def offsetTo (labels : List (UInt32 × ℕ)) (pos : ℕ) (label : UInt32) : List UInt8 :=
  Insn.encodeOffset ((((labels.lookup label).getD 0 : ℕ) : ℤ) - ((pos + 4 : ℕ) : ℤ))

/-- Offsets take four bytes. -/
theorem length_encodeOffset (off : ℤ) : (Insn.encodeOffset off).length = 4 := length_leBytes ..

variable {b : CodeBuilder} {items : List (Item UInt8 UInt32)}

/-- Nothing is built at first. -/
theorem builds_new : new.Builds [] := ⟨rfl, rfl⟩

/-- The code takes the width of the items. -/
theorem Builds.length_code (h : b.Builds items) :
    b.code.length = Backpatch.width 4 items := by
  rw [h.code_eq, Backpatch.length_place fun _ _ => length_encodeOffset _]

/-- Bytes that are appended are one more chunk of the layout. -/
theorem Builds.extend (h : b.Builds items) (bs : List UInt8) :
    (b.extend bs).Builds (items ++ [.chunk bs]) := by
  constructor
  · rw [Backpatch.place_append fun _ _ => length_encodeOffset _, ← h.code_eq]
    exact congrArg (b.code ++ ·) (List.append_nil bs).symm
  · rw [Backpatch.holes_append, ← h.fixups_eq]
    exact (List.append_nil b.fixups).symm

/-- A reference to a label is a hole. -/
theorem Builds.labelRef (h : b.Builds items) (label : UInt32) :
    (b.labelRef label).Builds (items ++ [.hole label]) := by
  constructor
  · rw [Backpatch.place_append fun _ _ => length_encodeOffset _, ← h.code_eq]
    exact congrArg (b.code ++ ·) (List.append_nil _).symm
  · rw [Backpatch.holes_append, ← h.fixups_eq, Nat.zero_add, ← h.length_code]
    rfl

/-- Binding a label builds nothing. -/
theorem Builds.bindLabel (h : b.Builds items) (label : UInt32) :
    (b.bindLabel label).Builds items :=
  ⟨h.code_eq, h.fixups_eq⟩

private theorem foldlM_fixup {labels : List (UInt32 × ℕ)} {holes : List (ℕ × UInt32)}
    {code out : List UInt8} (h : holes.foldlM (fixup labels) code = .ok out) :
    (∀ hole ∈ holes, ∃ target, labels.lookup hole.2 = some target) ∧
      out = holes.foldl (fun out hole => Backpatch.write out hole.1
        (offsetTo labels hole.1 hole.2)) code := by
  induction holes generalizing code with
  | nil => exact ⟨List.forall_mem_nil _, (Except.ok.inj h).symm⟩
  | cons hole holes ih =>
    rw [List.foldlM_cons] at h
    cases htarget : labels.lookup hole.2 with
    | none =>
      rw [fixup, htarget] at h
      cases h
    | some target =>
      rw [fixup, htarget] at h
      obtain ⟨hbound, hout⟩ := ih h
      refine ⟨List.forall_mem_cons.mpr ⟨⟨target, htarget⟩, hbound⟩, ?_⟩
      rw [hout, List.foldl_cons, offsetTo, htarget]
      rfl

/-- What is finished is the items with their offsets, and all labels are bound. -/
theorem Builds.finish (h : b.Builds items) {code : List UInt8} (hcode : b.finish = .ok code) :
    (∀ hole ∈ Backpatch.holes 4 0 items, ∃ target, b.labels.lookup hole.2 = some target) ∧
      code = Backpatch.place (offsetTo b.labels) 0 items := by
  rw [CodeBuilder.finish, h.fixups_eq, h.code_eq] at hcode
  obtain ⟨hbound, hout⟩ := foldlM_fixup hcode
  have hoffset : ∀ p l, (offsetTo b.labels p l).length = 4 := fun _ _ => length_encodeOffset _
  have hblank : ∀ (_ : ℕ) (_ : UInt32), (Insn.encodeOffset 0).length = 4 :=
    fun _ _ => length_encodeOffset _
  rw [hout, Backpatch.patches_eq hblank hoffset]
  exact ⟨hbound, rfl⟩

end CodeBuilder

end Yggdrasil
