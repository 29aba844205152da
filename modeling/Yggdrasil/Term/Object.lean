import Yggdrasil.Term.Heap
import Mathlib.Logic.Relation

/-!
# Objects in memory

The layout of a boxed object is determined by its header: how many words it takes,
which of them hold references to other terms and which hold map keys. A space is a
set of addresses at which disjoint, complete objects stand that refer only to
objects of the space.
-/

namespace Yggdrasil

/-- The kinds of boxed objects. -/
inductive Box where
  | tuple | cons | binary | map
  deriving DecidableEq, Repr

/-- The box kind in the low bits of a header. -/
def boxKind (header : Word) : Option Box :=
  if header &&& tagMask = kindTuple then some .tuple
  else if header &&& tagMask = kindCons then some .cons
  else if header &&& tagMask = kindBinary then some .binary
  else if header &&& tagMask = kindMap then some .map
  else none

/-- The arity or byte length in the high bits of a header. -/
def headerArity (header : Word) : ℕ := (header >>> 3).toNat

/-- The number of words of an object, if its header has a box kind. -/
def objWords (header : Word) : Option ℕ :=
  (boxKind header).map fun
    | .tuple => 1 + headerArity header
    | .cons => 3
    | .binary => 1 + (headerArity header + 7) / 8
    | .map => 1 + 2 * headerArity header

/-- First offset of the words that hold references. -/
def refStart (header : Word) : ℕ :=
  match boxKind header with
  | some .map => 1 + headerArity header
  | _ => 1

/-- Number of words that hold references. -/
def refCount (header : Word) : ℕ :=
  match boxKind header with
  | some .tuple | some .map => headerArity header
  | some .cons => 2
  | _ => 0

/-- Offset `j` of an object holds a reference. -/
def IsRef (header : Word) (j : ℕ) : Prop :=
  refStart header ≤ j ∧ j < refStart header + refCount header

instance (header : Word) (j : ℕ) : Decidable (IsRef header j) :=
  inferInstanceAs (Decidable (_ ∧ _))

/-- Offset `j` of an object holds a map key. -/
def IsKey (header : Word) (j : ℕ) : Prop :=
  boxKind header = some .map ∧ 1 ≤ j ∧ j < refStart header

/-- The size of the object at `a`. -/
def sizeAt (mem : Mem) (a : ℕ) : ℕ := (objWords (mem a)).getD 0

/-- A term that is no pointer, or points into `space`. -/
def Term.RefersTo (space : Set ℕ) (t : Term) : Prop := t.isBoxed = true → t.addr ∈ space

/-- The object at `a` is complete and refers only to objects of `space`. -/
structure ObjectOk (mem : Mem) (space : Set ℕ) (a : ℕ) : Prop where
  /-- The header has a box kind. -/
  kind : (objWords (mem a)).isSome = true
  /-- References stay in the space. -/
  refs : ∀ j, IsRef (mem a) j → Term.RefersTo space ⟨mem (a + j)⟩
  /-- Map keys are immediate. -/
  keys : ∀ j, IsKey (mem a) j → Term.isBoxed ⟨mem (a + j)⟩ = false
  /-- The object lies in the address space. -/
  bound : a + sizeAt mem a ≤ 2 ^ 61

/-- Disjoint, complete objects stand at the addresses of `space`. -/
structure Space (mem : Mem) (space : Set ℕ) : Prop where
  /-- Every object is complete. -/
  ok : ∀ a ∈ space, ObjectOk mem space a
  /-- Distinct objects do not overlap. -/
  disjoint : ∀ a ∈ space, ∀ b ∈ space, a ≠ b →
    a + sizeAt mem a ≤ b ∨ b + sizeAt mem b ≤ a

/-- The object at `a` refers to the object at `b`. -/
def RefersTo (mem : Mem) (a b : ℕ) : Prop :=
  ∃ j, IsRef (mem a) j ∧ Term.isBoxed ⟨mem (a + j)⟩ = true ∧ Term.addr ⟨mem (a + j)⟩ = b

/-- The object at `a` can be reached from one of the terms. -/
def Reachable (mem : Mem) (roots : List Term) (a : ℕ) : Prop :=
  ∃ t ∈ roots, t.isBoxed = true ∧ Relation.ReflTransGen (RefersTo mem) t.addr a

/-- A complete object has at least its header. -/
theorem sizeAt_pos {mem : Mem} {a : ℕ} (h : (objWords (mem a)).isSome = true) :
    0 < sizeAt mem a := by
  unfold sizeAt objWords at *
  rcases hbox : boxKind (mem a) with _ | box
  · simp [hbox] at h
  · cases box <;> simp only [Option.map_some, Option.getD_some] <;> omega

/-- References lie behind the header and inside the object. -/
theorem IsRef.bounds {mem : Mem} {a j : ℕ} (h : IsRef (mem a) j) :
    0 < j ∧ j < sizeAt mem a := by
  unfold IsRef refStart refCount at h
  unfold sizeAt objWords
  rcases hbox : boxKind (mem a) with _ | box
  · simp only [hbox] at h
    omega
  · cases box <;> simp only [hbox] at h <;>
      simp only [Option.map_some, Option.getD_some] <;> omega

/-- The references of a complete object lie inside it. -/
theorem refs_le_sizeAt {mem : Mem} {a : ℕ} (h : (objWords (mem a)).isSome = true) :
    refStart (mem a) + refCount (mem a) ≤ sizeAt mem a := by
  unfold sizeAt objWords refStart refCount at *
  rcases hbox : boxKind (mem a) with _ | box
  · simp [hbox] at h
  · cases box <;> simp only [Option.map_some, Option.getD_some] <;> omega

/-- The objects reachable from terms of a space belong to the space. -/
theorem Reachable.mem_space {mem : Mem} {space : Set ℕ} (hspace : Space mem space)
    {roots : List Term} (hroots : ∀ t ∈ roots, t.RefersTo space) {a : ℕ}
    (h : Reachable mem roots a) : a ∈ space := by
  obtain ⟨t, ht, hboxed, hpath⟩ := h
  induction hpath with
  | refl => exact hroots t ht hboxed
  | tail _ hstep ih =>
    obtain ⟨j, hj, hboxed', rfl⟩ := hstep
    exact (hspace.ok _ ih).refs j hj hboxed'

/-- The tag is the word modulo eight. -/
theorem Term.toNat_tag (t : Term) : t.tag.toNat = t.word.toNat % 8 := by
  rw [Term.tag, tagMask, BitVec.toNat_and]
  exact Nat.and_two_pow_sub_one_eq_mod t.word.toNat 3

/-- A term is boxed when its word is a multiple of eight. -/
theorem Term.isBoxed_iff {t : Term} : t.isBoxed = true ↔ t.word.toNat % 8 = 0 := by
  rw [Term.isBoxed, decide_eq_true_eq, ← Term.toNat_tag]
  exact ⟨fun h => h ▸ rfl, fun h => BitVec.eq_of_toNat_eq h⟩

/-- The term for an address is boxed. -/
theorem Term.isBoxed_ofAddr (p : ℕ) : (Term.ofAddr p).isBoxed = true := by
  rw [Term.isBoxed_iff, Term.ofAddr, BitVec.toNat_ofNat]
  omega

/-- The address of the term for an address. -/
theorem Term.addr_ofAddr {p : ℕ} (h : p < 2 ^ 61) : (Term.ofAddr p).addr = p := by
  rw [Term.addr, Term.ofAddr, BitVec.toNat_ofNat, Nat.mod_eq_of_lt (by omega)]
  omega

end Yggdrasil
