import Yggdrasil.Term.Word
import Mathlib.Data.List.Sort

/-!
# Bump heaps and term builders

A heap is a bump arena over a span of words. The builders allocate an object,
write its header and then its fields. A failed allocation changes nothing, but a
builder made of several allocations may leave the earlier ones behind.
-/

namespace Yggdrasil

/-- A bump arena: `cap` words from word index `base`, of which `top` are used. -/
structure Heap where
  /-- Word index of the first word. -/
  base : ℕ
  /-- Capacity in words. -/
  cap : ℕ
  /-- Number of words handed out. -/
  top : ℕ
  deriving DecidableEq, Repr

/-- Memory together with the heap the running process allocates from. -/
structure Store where
  /-- All of memory. -/
  mem : Mem
  /-- The current bump arena. -/
  heap : Heap

/-- Computations that allocate; the store survives a failure. -/
abbrev HeapM := EStateM HeapFull Store

/-- Map construction, which also fails on boxed keys. -/
abbrev MapM := EStateM MapError Store

namespace Heap

/-- A fresh arena over `bytes` bytes at word index `base`. -/
def new (base bytes : ℕ) : Heap := ⟨base, bytes / 8, 0⟩

/-- Bytes handed out so far. -/
def usedBytes (h : Heap) : ℕ := h.top * 8

/-- Bytes of capacity. -/
def capacityBytes (h : Heap) : ℕ := h.cap * 8

/-- Roll the bump pointer back to an earlier watermark. -/
def truncateTo (h : Heap) (bytes : ℕ) : Heap := { h with top := bytes / 8 }

/-- Reserve `words` words and return the index of the first. -/
def alloc (words : ℕ) : HeapM ℕ := fun s =>
  if s.heap.top + words > s.heap.cap then .error .heapFull s
  else .ok (s.heap.base + s.heap.top) { s with heap.top := s.heap.top + words }

/-- Store words at `p`. -/
def write (p : ℕ) (ws : List Word) : HeapM Unit := fun s =>
  .ok () { s with mem := writeWords s.mem p ws }

/-- Store bytes at `p`. -/
def writeData (p : ℕ) (data : List UInt8) : HeapM Unit := fun s =>
  .ok () { s with mem := writeBytes s.mem p data }

/-- A header word: arity or length above the box kind. -/
def headerWord (n : ℕ) (kind : Word) : Word := (BitVec.ofNat 64 n <<< 3) ||| kind

/-- Build a tuple. -/
def tuple (elems : List Term) : HeapM Term := do
  let p ← alloc (1 + elems.length)
  write p (headerWord elems.length kindTuple :: elems.map Term.word)
  return Term.ofAddr p

/-- Build a list cell. -/
def cons (head tail : Term) : HeapM Term := do
  let p ← alloc 3
  write p [kindCons, head.word, tail.word]
  return Term.ofAddr p

/-- Build a binary. The bytes past the data in its last word keep what memory held. -/
def binary (data : List UInt8) : HeapM Term := do
  let p ← alloc (1 + (data.length + 7) / 8)
  write p [headerWord data.length kindBinary]
  writeData (p + 1) data
  return Term.ofAddr p

/-- Cons a list of elements onto `rest`, last element first. -/
def listOnto (rest : Term) : List Term → HeapM Term
  | [] => return rest
  | e :: es => do
    let t ← listOnto rest es
    cons e t

/-- Build a proper list, right to left. -/
def list (elems : List Term) : HeapM Term := listOnto Term.nil elems

/-- The compaction pass of `map_from_pairs`: scan index `i`, write index `n`. An
entry whose key equals the last kept one replaces it, so the last duplicate wins. -/
def dedup : ℕ → ℕ → ℕ → List (Term × Term) → List (Term × Term) × ℕ
  | 0, _, n, ps => (ps, n)
  | rounds + 1, i, n, ps =>
    match ps[i]?, ps[n - 1]? with
    | some cur, some last =>
      if 0 < n ∧ last.1.word = cur.1.word then dedup rounds (i + 1) n (ps.set (n - 1) cur)
      else dedup rounds (i + 1) (n + 1) (ps.set n cur)
    | _, _ => (ps, n)

/-- Sort the pairs by raw key word, keeping the order of equal keys, and compact
duplicates. The second component is the number of pairs kept; the entries past it
are stale. -/
def sortPairs (pairs : List (Term × Term)) : List (Term × Term) × ℕ :=
  let sorted := pairs.insertionSort fun a b => a.1.word ≤ b.1.word
  dedup sorted.length 0 0 sorted

/-- Build a map. Besides the result it returns the slice as `sort` and the
compaction pass leave it, which a retry after growth starts from. -/
def mapFromPairs (pairs : List (Term × Term)) (s : Store) :
    EStateM.Result MapError Store Term × List (Term × Term) :=
  if pairs.any fun kv => kv.1.isBoxed then (.error .nonImmediateKey s, pairs)
  else
    let sorted := sortPairs pairs
    let kept := sorted.1.take sorted.2
    match alloc (1 + 2 * sorted.2) s with
    | .error e s' => (.error (.heap e) s', sorted.1)
    | .ok p s' =>
      let ws := headerWord sorted.2 kindMap ::
        (kept.map fun kv => kv.1.word) ++ kept.map fun kv => kv.2.word
      (.ok (Term.ofAddr p) { s' with mem := writeWords s'.mem p ws }, sorted.1)

/-- The pairs of an existing map, in key order. -/
def mapPairs (mem : Mem) (t : Term) : List (Term × Term) :=
  (List.range (t.mapArity mem)).map fun i => (t.mapKey mem i, t.mapVal mem i)

/-- A new map: `base` with `key` set to `val`. -/
def mapPut (base key val : Term) : MapM Term := fun s =>
  if key.isBoxed then .error .nonImmediateKey s
  else (mapFromPairs (mapPairs s.mem base ++ [(key, val)]) s).1

end Heap

/-- Conjunction over `0..n`, stopping at the first failure. -/
def allBelow (f : ℕ → Except Halt Bool) : ℕ → ℕ → Except Halt Bool
  | _, 0 => .ok true
  | i, n + 1 => do
    if ← f i then allBelow f (i + 1) n else return false

mutual

/-- Structural equality. The fuel bounds recursion depth plus list length. -/
def eqTerm (mem : Mem) : ℕ → Term → Term → Except Halt Bool
  | 0, _, _ => .error .limit
  | n + 1, a, b =>
    if a.word = b.word then .ok true
    else if !(a.isBoxed && b.isBoxed) then .ok false
    else
      match a.kind mem, b.kind mem with
      | some .tuple, some .tuple =>
        if a.tupleArity mem = b.tupleArity mem then
          allBelow (fun i => eqTerm mem n (a.tupleElem mem i) (b.tupleElem mem i)) 0
            (a.tupleArity mem)
        else .ok false
      | some .binary, some .binary => .ok (a.binBytes mem = b.binBytes mem)
      | some .map, some .map =>
        if a.mapArity mem = b.mapArity mem then
          allBelow (fun i =>
            if a.mapKey mem i = b.mapKey mem i then eqTerm mem n (a.mapVal mem i) (b.mapVal mem i)
            else .ok false) 0 (a.mapArity mem)
        else .ok false
      | some .cons, some .cons => eqSpine mem n a b
      | none, _ => .error .panic
      | some _, none => .error .panic
      | _, _ => .ok false

/-- The loop of `eq` over two list spines. -/
def eqSpine (mem : Mem) : ℕ → Term → Term → Except Halt Bool
  | 0, _, _ => .error .limit
  | n + 1, x, y => do
    if ← eqTerm mem n (x.head mem) (y.head mem) then
      match (x.tail mem).kind mem, (y.tail mem).kind mem with
      | none, _ => .error .panic
      | some _, none => .error .panic
      | some .cons, some .cons => eqSpine mem n (x.tail mem) (y.tail mem)
      | some .cons, some _ => return false
      | some _, some .cons => return false
      | some _, some _ => eqTerm mem n (x.tail mem) (y.tail mem)
    else return false

end

end Yggdrasil
