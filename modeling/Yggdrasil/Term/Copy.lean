import Yggdrasil.Term.Evacuate
import Yggdrasil.Term.Valid

/-!
# Deep copies

`copy_term` rebuilds a term in another heap, object by object. Unlike `evacuate` it copies
an object once for every path to it. The spine of a list is walked first; the cells are then
built from the last to the first.
-/

namespace Yggdrasil

namespace Copy

/-- A heap operation as part of a copy. -/
def ofHeap {α : Type} (x : HeapM α) : EvacM α := fun s =>
  match x s with
  | .ok a s' => .ok a s'
  | .error .heapFull s' => .error .heapFull s'

/-- Copy the terms in `k` words from `src` on, one by one, to the words from `dst` on. -/
def fields (copy : Term → EvacM Term) (src dst : ℕ) : ℕ → EvacM Unit
  | 0 => return ()
  | k + 1 => do
    let c ← copy ⟨← Evac.load src⟩
    Evac.store dst c.word
    fields copy (src + 1) (dst + 1) k

/-- The cells of a list, and the term that ends it. -/
def spine (mem : Mem) : ℕ → Term → Except EvacError (List Term × Term)
  | 0, _ => .error .fuel
  | n + 1, cur =>
    match cur.kind mem with
    | none => .error .panic
    | some .cons => (spine mem n (cur.tail mem)).map fun r => (cur :: r.1, r.2)
    | some _ => .ok ([], cur)

/-- Copy the end of a list, and then its cells from the last to the first. -/
def cells (copy : Term → EvacM Term) (rest : Term) : List Term → EvacM Term
  | [] => copy rest
  | cell :: more => do
    let tail ← cells copy rest more
    let h ← copy (cell.head (← get).mem)
    ofHeap (Heap.cons h tail)

end Copy

/-- Copy a term. The fuel bounds the length of paths in it. -/
def copyTerm : ℕ → Term → EvacM Term
  | 0, _ => throw .fuel
  | n + 1, src => do
    let mem := (← get).mem
    match src.kind mem with
    | none => throw .panic
    | some .tuple =>
      let k := src.tupleArity mem
      let p ← Evac.alloc (1 + k)
      Evac.store p (Heap.headerWord k kindTuple)
      Copy.fields (copyTerm n) (src.addr + 1) (p + 1) k
      return Term.ofAddr p
    | some .binary => Copy.ofHeap (Heap.binary (src.binBytes mem))
    | some .map =>
      let k := src.mapArity mem
      let p ← Evac.alloc (1 + 2 * k)
      Evac.store p (Heap.headerWord k kindMap)
      Copy.fields pure (src.addr + 1) (p + 1) k
      Copy.fields (copyTerm n) (src.addr + 1 + k) (p + 1 + k) k
      return Term.ofAddr p
    | some .cons =>
      match Copy.spine mem (n + 1) src with
      | .error e => throw e
      | .ok (cells, rest) => Copy.cells (copyTerm n) rest cells
    | some _ => return src

/-- What a term says, wherever it stands. -/
inductive Value where
  /-- An immediate, by its word. -/
  | immediate (w : Word)
  /-- A tuple. -/
  | tuple (elems : List Value)
  /-- A list cell; the tail of an improper list is no list. -/
  | cons (head tail : Value)
  /-- A binary. -/
  | binary (bytes : List UInt8)
  /-- A map: its keys in order, and its values. -/
  | map (keys : List Word) (vals : List Value)

/-- The value of a term with paths shorter than `n`. -/
def Term.value (mem : Mem) : ℕ → Term → Value
  | 0, t => .immediate t.word
  | n + 1, t =>
    match t.kind mem with
    | some .tuple => .tuple ((List.range (t.tupleArity mem)).map fun i =>
        Term.value mem n (t.tupleElem mem i))
    | some .cons => .cons (Term.value mem n (t.head mem)) (Term.value mem n (t.tail mem))
    | some .binary => .binary (t.binBytes mem)
    | some .map => .map ((List.range (t.mapArity mem)).map fun i => (t.mapKey mem i).word)
        ((List.range (t.mapArity mem)).map fun i => Term.value mem n (t.mapVal mem i))
    | _ => .immediate t.word

end Yggdrasil
