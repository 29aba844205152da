import Yggdrasil.Interp.Api

/-!
# The runtime helpers

The functions on terms that generated code calls. A helper that fails exits the process, as
a trap of the interpreter does.
-/

namespace Yggdrasil

namespace Rt

variable {σ : Type}

/-- `badarg`: the process exits with that reason. -/
def badarg {α : Type} : Sys σ α := throw (.trap .badarg)

section

variable (api : SystemApi σ) (limit : ℕ)

/-- `alloc_retry`: allocate, growing the heap when it is full. -/
def alloc (f : HeapM Term) : Sys σ Term := Sys.allocTerm api f limit

/-- Exit unless the term is boxed and of the given kind. -/
def expect (k : Kind) (t : Term) : Sys σ Unit := do
  if !(← Sys.isBoxedKind api k t) then badarg

/-- The bytes of a binary. -/
def bytes (t : Term) : Sys σ (List UInt8) := do
  expect api .binary t
  return t.binBytes (← Sys.mem api)

/-- `rt_eq`: 1 for equal terms, else 0. -/
def eq (a b : Term) : Sys σ Word := do
  let e ← Sys.ofHalt (eqTerm (← Sys.mem api) limit a b)
  return if e then 1 else 0

/-- `rt_make_tuple`: a tuple of terms. -/
def makeTuple (elems : List Term) : Sys σ Term := alloc api limit (Heap.tuple elems)

/-- `rt_get_elem`: an element within the arity. -/
def getElem (t : Term) (idx : ℕ) : Sys σ Term := do
  expect api .tuple t
  let mem ← Sys.mem api
  if t.tupleArity mem ≤ idx then badarg
  return t.tupleElem mem idx

/-- `rt_cons`: a list cell. -/
def cons (h t : Term) : Sys σ Term := alloc api limit (Heap.cons h t)

/-- `rt_head`: of a list cell. -/
def head (t : Term) : Sys σ Term := do
  expect api .cons t
  return t.head (← Sys.mem api)

/-- `rt_tail`: of a list cell. -/
def tail (t : Term) : Sys σ Term := do
  expect api .cons t
  return t.tail (← Sys.mem api)

/-- `rt_exit_atom`: exit with an atom as the reason. -/
def exitAtom (a : Term) : Sys σ Unit := do
  let reason ← Sys.orTrap .badarg a.asAtom
  throw (.trap (.exit reason))

/-- `rt_bin_const`: a binary from the code. -/
def binConst (data : List UInt8) : Sys σ Term := alloc api limit (Heap.binary data)

/-- The loop of `rt_bin_from_list`. -/
def listBytes : ℕ → Term → Sys σ (List UInt8)
  | 0, _ => throw .limit
  | n + 1, cur => do
    if ← Sys.isBoxedKind api .cons cur then
      let v ← Sys.int (cur.head (← Sys.mem api))
      if v.toInt < 0 ∨ 255 < v.toInt then badarg
      let rest ← listBytes n (cur.tail (← Sys.mem api))
      return UInt8.ofBitVec (v.setWidth 8) :: rest
    else if cur.isNil then return []
    else badarg

/-- `rt_bin_from_list`: a list of bytes as a binary. -/
def binFromList (list : Term) : Sys σ Term := do
  let data ← listBytes api limit list
  alloc api limit (Heap.binary data)

/-- `rt_bin_to_list`: the bytes as a list. -/
def binToList (bin : Term) : Sys σ Term := do
  let data ← bytes api bin
  alloc api limit (Heap.list (data.map fun x => Term.int (x.toBitVec.setWidth 64)))

/-- `rt_bin_size`: the number of bytes. -/
def binSize (bin : Term) : Sys σ Term := do
  let data ← bytes api bin
  return Term.int (BitVec.ofNat 64 data.length)

/-- `rt_map_new`: `map_retry` makes the pairs anew for every attempt. -/
def mapNew (pairs : List (Term × Term)) : ℕ → Sys σ Term
  | 0 => throw .limit
  | n + 1 => fun s =>
    match (Heap.mapFromPairs pairs (api.store s)).1 with
    | .ok t st => .ok t (api.setStore st s)
    | .error .nonImmediateKey st => .error (.trap .badarg) (api.setStore st s)
    | .error (.heap _) st =>
      (do
        if ← Sys.effect api.heapGrow then mapNew pairs n
        else throw (.trap .heapFull) : Sys σ Term) (api.setStore st s)

/-- `rt_map_get`: a key that is missing is a `badarg`. -/
def mapGet (map key : Term) : Sys σ Term := do
  expect api .map map
  let mem ← Sys.mem api
  Sys.orTrap .badarg (map.mapGet mem key)

/-- `rt_map_put`: with `map_retry`. -/
def mapPut (map key val : Term) : Sys σ Term := do
  expect api .map map
  Sys.mapPutLoop api map key val limit

/-- `rt_is_binary`: 1 for a binary, else 0. -/
def isBinary (t : Term) : Sys σ Word := do
  return if ← Sys.isBoxedKind api .binary t then 1 else 0

/-- `rt_bin_cat`: one binary after the other. -/
def binCat (a b : Term) : Sys σ Term := do
  expect api .binary a
  expect api .binary b
  let mem ← Sys.mem api
  alloc api limit (Heap.binary (a.binBytes mem ++ b.binBytes mem))

/-- `rt_list_cat`: a list onto a term. -/
def listCat (a b : Term) : Sys σ Term := do
  let elems ← Sys.listElems api limit a
  alloc api limit (Heap.listOnto b elems)

/-- `rt_bin_at`: the byte at an index. -/
def binAt (bin idx : Term) : Sys σ Term := do
  let idx ← Sys.int idx
  expect api .binary bin
  if idx.toInt < 0 then badarg
  let mem ← Sys.mem api
  let x ← Sys.orTrap .badarg (bin.binBytes mem)[idx.toNat]?
  return Term.int (x.toBitVec.setWidth 64)

/-- `rt_bin_part`: a range of bytes as a binary. -/
def binPart (bin off len : Term) : Sys σ Term := do
  let off ← Sys.int off
  let len ← Sys.int len
  expect api .binary bin
  if off.toInt < 0 ∨ len.toInt < 0 then badarg
  let mem ← Sys.mem api
  if (bin.binBytes mem).length < off.toNat + len.toNat then badarg
  alloc api limit (Heap.binary (((bin.binBytes mem).drop off.toNat).take len.toNat))

end

end Rt

end Yggdrasil
