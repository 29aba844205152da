import Mathlib.Data.BitVec
import Mathlib.Logic.Function.Basic

/-!
# Tagged terms

A term is one 64-bit word whose low three bits are its tag. Boxed terms are
8-aligned addresses of objects whose first word is a header: the low three bits
give the box kind, the rest the arity or byte length. Memory is read and written
in whole words, so an address is represented by its word index.
-/

namespace Yggdrasil

/-- A machine word: `u64`, or `i64` when read in two's complement. -/
abbrev Word := BitVec 64

/-- Memory in units of eight bytes, indexed by address divided by eight. -/
abbrev Mem := ℕ → Word

/-- One tagged word. -/
structure Term where
  /-- The raw word. -/
  word : Word
  deriving DecidableEq, Repr

/-- Mask of the three tag bits. -/
def tagMask : Word := 7

/-- Tag of a boxed pointer. -/
def tagBoxed : Word := 0

/-- Tag of a small integer. -/
def tagInt : Word := 1

/-- Tag of an atom. -/
def tagAtom : Word := 2

/-- Tag of a process identifier. -/
def tagPid : Word := 3

/-- Tag of a unique reference. -/
def tagRef : Word := 4

/-- Tag of the special constants, of which only nil exists. -/
def tagSpecial : Word := 5

/-- Tag of a port. -/
def tagPort : Word := 6

/-- Box kind of a tuple. -/
def kindTuple : Word := 0

/-- Box kind of a list cell. -/
def kindCons : Word := 1

/-- Box kind of a binary. -/
def kindBinary : Word := 2

/-- Box kind of a flat map. -/
def kindMap : Word := 3

/-- Box kind of a forwarded object: the header holds the new address. -/
def kindFwd : Word := 7

/-- The kinds that `Term.kind` distinguishes. -/
inductive Kind where
  | int | atom | pid | ref | nil | port | tuple | cons | binary | map
  deriving DecidableEq, Repr

/-- A bump allocation did not fit its span. -/
inductive HeapFull where
  | heapFull
  deriving DecidableEq, Repr

/-- A map could not be built. -/
inductive MapError where
  | heap (e : HeapFull)
  | nonImmediateKey
  deriving DecidableEq, Repr

/-- A memory walk that does not come back: `limit` bounds the number of
iterations followed, `panic` is a reached `unreachable!`. -/
inductive Halt where
  | limit
  | panic
  deriving DecidableEq, Repr

namespace Term

/-- The empty list. -/
def nil : Term := ⟨tagSpecial⟩

/-- The small integer `v`; bits above the sixty-first are shifted out. -/
def int (v : Word) : Term := ⟨(v <<< 3) ||| tagInt⟩

/-- The atom with table index `idx`. -/
def atom (idx : UInt32) : Term := ⟨(idx.toBitVec.setWidth 64 <<< 3) ||| tagAtom⟩

/-- The process identifier `p`. -/
def pid (p : Word) : Term := ⟨(p <<< 3) ||| tagPid⟩

/-- The tag bits. -/
def tag (t : Term) : Word := t.word &&& tagMask

/-- The integer value, sign-extended from 61 bits. -/
def asInt (t : Term) : Option Word :=
  if t.tag = tagInt then some (t.word.sshiftRight 3) else none

/-- The atom index. -/
def asAtom (t : Term) : Option UInt32 :=
  if t.tag = tagAtom then some (UInt32.ofBitVec ((t.word >>> 3).setWidth 32)) else none

/-- The process identifier. -/
def asPid (t : Term) : Option Word :=
  if t.tag = tagPid then some (t.word >>> 3) else none

/-- The port identifier. -/
def asPort (t : Term) : Option Word :=
  if t.tag = tagPort then some (t.word >>> 3) else none

/-- Whether the term is the empty list. -/
def isNil (t : Term) : Bool := t = nil

/-- Whether the term is a pointer. -/
def isBoxed (t : Term) : Bool := t.tag = tagBoxed

/-- The word index a boxed term points at. -/
def addr (t : Term) : ℕ := t.word.toNat / 8

/-- The boxed term for the object at word index `p`. -/
def ofAddr (p : ℕ) : Term := ⟨BitVec.ofNat 64 (8 * p)⟩

/-- The header word of a boxed term. -/
def header (mem : Mem) (t : Term) : Word := mem t.addr

/-- The kind of a term; `none` is one of the two `unreachable!` arms. -/
def kind (mem : Mem) (t : Term) : Option Kind :=
  if t.tag = tagInt then some .int
  else if t.tag = tagAtom then some .atom
  else if t.tag = tagPid then some .pid
  else if t.tag = tagRef then some .ref
  else if t.tag = tagSpecial then some .nil
  else if t.tag = tagPort then some .port
  else if t.tag = tagBoxed then
    if t.header mem &&& tagMask = kindTuple then some .tuple
    else if t.header mem &&& tagMask = kindCons then some .cons
    else if t.header mem &&& tagMask = kindBinary then some .binary
    else if t.header mem &&& tagMask = kindMap then some .map
    else none
  else none

/-- The arity or length held by the header of a boxed term. -/
def headerLen (mem : Mem) (t : Term) : ℕ := (t.header mem >>> 3).toNat

/-- Number of elements of a tuple. -/
def tupleArity (mem : Mem) (t : Term) : ℕ := t.headerLen mem

/-- Element `i` of a tuple. -/
def tupleElem (mem : Mem) (t : Term) (i : ℕ) : Term := ⟨mem (t.addr + 1 + i)⟩

/-- Head of a list cell. -/
def head (mem : Mem) (t : Term) : Term := ⟨mem (t.addr + 1)⟩

/-- Tail of a list cell. -/
def tail (mem : Mem) (t : Term) : Term := ⟨mem (t.addr + 2)⟩

/-- Number of pairs of a map. -/
def mapArity (mem : Mem) (t : Term) : ℕ := t.headerLen mem

/-- Key `i` of a map. -/
def mapKey (mem : Mem) (t : Term) (i : ℕ) : Term := ⟨mem (t.addr + 1 + i)⟩

/-- Value `i` of a map. -/
def mapVal (mem : Mem) (t : Term) (i : ℕ) : Term := ⟨mem (t.addr + 1 + t.mapArity mem + i)⟩

end Term

/-- Byte `j` of a word, counted from the least significant. -/
def byteOf (w : Word) (j : ℕ) : UInt8 := UInt8.ofBitVec ((w >>> (8 * j)).setWidth 8)

/-- Overwrite the low bytes of a word, keeping the bytes past the data. -/
def packWord (old : Word) : List UInt8 → Word
  | [] => old
  | b :: bs => (packWord (old >>> 8) bs <<< 8) ||| b.toBitVec.setWidth 64

/-- The first `len` bytes stored from word index `p` on. -/
def readBytes (mem : Mem) (p len : ℕ) : List UInt8 :=
  (List.range len).map fun j => byteOf (mem (p + j / 8)) (j % 8)

/-- Copy `data` byte by byte to word index `p`. -/
def writeBytes (mem : Mem) (p : ℕ) (data : List UInt8) : Mem := fun c =>
  if p ≤ c ∧ c < p + (data.length + 7) / 8 then
    packWord (mem c) ((data.drop (8 * (c - p))).take 8)
  else mem c

/-- Store consecutive words from word index `p` on. -/
def writeWords (mem : Mem) (p : ℕ) : List Word → Mem
  | [] => mem
  | w :: ws => writeWords (Function.update mem p w) (p + 1) ws

/-- The bytes of a binary term. -/
def Term.binBytes (mem : Mem) (t : Term) : List UInt8 :=
  readBytes mem (t.addr + 1) (t.headerLen mem)

/-- The binary search of `map_get` between `lo` and `hi`; each round halves the
interval, so `n` rounds suffice when `n` bounds its length. -/
def Term.mapSearch (mem : Mem) (t key : Term) : ℕ → ℕ → ℕ → Option Term
  | 0, _, _ => none
  | n + 1, lo, hi =>
    if lo < hi then
      let mid := (lo + hi) / 2
      let k := (t.mapKey mem mid).word
      if k = key.word then some (t.mapVal mem mid)
      else if k < key.word then mapSearch mem t key n (mid + 1) hi
      else mapSearch mem t key n lo mid
    else none

/-- Binary search by raw key word. -/
def Term.mapGet (mem : Mem) (t key : Term) : Option Term :=
  t.mapSearch mem key (t.mapArity mem + 1) 0 (t.mapArity mem)

/-- Reading back a block of words: inside it the stored word, outside the old one. -/
theorem writeWords_apply (mem : Mem) (p c : ℕ) (ws : List Word) :
    writeWords mem p ws c = if p ≤ c then (ws[c - p]?).getD (mem c) else mem c := by
  induction ws generalizing mem p with
  | nil => simp [writeWords]
  | cons w ws ih =>
    rw [writeWords, ih]
    by_cases hlt : p + 1 ≤ c
    · have hsub : c - p = (c - (p + 1)) + 1 := by omega
      rw [if_pos hlt, if_pos (by omega), hsub, List.getElem?_cons_succ,
        Function.update_of_ne (by omega)]
    · rw [if_neg hlt]
      by_cases heq : c = p
      · subst heq
        simp
      · rw [if_neg (by omega), Function.update_of_ne heq]

end Yggdrasil
