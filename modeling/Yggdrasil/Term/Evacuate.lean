import Yggdrasil.Term.Object

/-!
# Cheney evacuation

`evacuate` copies everything reachable from the roots into another heap. An object
is copied once; its old header becomes a forwarding word. The copies are then
scanned in address order, and every reference in them is evacuated in turn.
-/

namespace Yggdrasil

/-- How an evacuation fails: out of room, at an `unreachable!`, or after more
scanned objects than followed. -/
inductive EvacError where
  | heapFull
  | panic
  | fuel
  deriving DecidableEq, Repr

/-- Computations of the collector; the heap of the store is the to-space. -/
abbrev EvacM := EStateM EvacError Store

/-- Copy `n` words from `src` to `dst`. -/
def copyWords (mem : Mem) (src dst n : ℕ) : Mem := fun c =>
  if dst ≤ c ∧ c < dst + n then mem (src + (c - dst)) else mem c

namespace Evac

/-- Reserve words in to-space. -/
def alloc (words : ℕ) : EvacM ℕ := fun s =>
  match Heap.alloc words s with
  | .ok p s' => .ok p s'
  | .error .heapFull s' => .error .heapFull s'

/-- The word at `p`. -/
def load (p : ℕ) : EvacM Word := do return (← get).mem p

/-- Overwrite the word at `p`. -/
def store (p : ℕ) (w : Word) : EvacM Unit :=
  modify fun s => { s with mem := Function.update s.mem p w }

/-- Copy words. -/
def copy (src dst n : ℕ) : EvacM Unit :=
  modify fun s => { s with mem := copyWords s.mem src dst n }

/-- Copy one object into to-space, or follow its forwarding word. -/
def evacOne (t : Term) : EvacM Term := do
  if !t.isBoxed then return t
  let old := t.addr
  let header ← load old
  if header &&& tagMask = kindFwd then return ⟨header &&& ~~~tagMask⟩
  match objWords header with
  | none => throw .panic
  | some words =>
    let dst ← alloc words
    copy old dst words
    let new := Term.ofAddr dst
    store old (new.word ||| kindFwd)
    return new

/-- Evacuate the roots in place. -/
def roots : List Term → EvacM (List Term)
  | [] => return []
  | t :: ts => do
    let t' ← evacOne t
    return t' :: (← roots ts)

/-- Evacuate the references in `n` words from `p` on. -/
def fields (p : ℕ) : ℕ → EvacM Unit
  | 0 => return ()
  | n + 1 => do
    let t ← evacOne ⟨← load p⟩
    store p t.word
    fields (p + 1) n

/-- Scan the copied objects from offset `scan` of to-space on. -/
def scanLoop : ℕ → ℕ → EvacM Unit
  | 0, _ => throw .fuel
  | n + 1, scan => do
    let s ← get
    if scan < s.heap.top then
      let p := s.heap.base + scan
      let header ← load p
      match boxKind header with
      | some .tuple =>
        fields (p + 1) (headerArity header)
        scanLoop n (scan + (1 + headerArity header))
      | some .cons =>
        fields (p + 1) 2
        scanLoop n (scan + 3)
      | some .binary => scanLoop n (scan + (1 + (headerArity header + 7) / 8))
      | some .map =>
        fields (p + 1 + headerArity header) (headerArity header)
        scanLoop n (scan + (1 + 2 * headerArity header))
      | none => throw .panic

/-- The scan ends where the copies end. -/
theorem scanLoop_done {s : Store} {n scan : ℕ} (h : s.heap.top ≤ scan) :
    scanLoop (n + 1) scan s = .ok () s := by
  change (if scan < s.heap.top then _ else (pure () : EvacM Unit)) s = _
  rw [if_neg (by omega)]
  rfl

/-- One round of the scan updates the references of one copy, of any kind. -/
theorem scanLoop_succ {s : Store} {n scan words : ℕ} (hscan : scan < s.heap.top)
    (hwords : objWords (s.mem (s.heap.base + scan)) = some words) :
    scanLoop (n + 1) scan s = (do
      fields (s.heap.base + scan + refStart (s.mem (s.heap.base + scan)))
        (refCount (s.mem (s.heap.base + scan)))
      scanLoop n (scan + words) : EvacM Unit) s := by
  change (if scan < s.heap.top then _ else (pure () : EvacM Unit)) s = _
  rw [if_pos hscan]
  generalize hheader : s.mem (s.heap.base + scan) = header at *
  change (match boxKind (s.mem (s.heap.base + scan)) with
    | some .tuple => _
    | some .cons => _
    | some .binary => _
    | some .map => _
    | none => _ : EvacM Unit) s = _
  rw [hheader]
  unfold refStart refCount objWords at *
  rcases hbox : boxKind header with _ | box
  · simp [hbox] at hwords
  · simp only [hbox, Option.map_some, Option.some.injEq] at hwords
    cases box <;> dsimp only at hwords ⊢ <;> subst hwords
    · rfl
    · rfl
    · rfl
    · rw [Nat.add_assoc (s.heap.base + scan)]

end Evac

/-- Move everything reachable from the roots to to-space; `fuel` bounds the number
of scanned objects. -/
def evacuate (fuel : ℕ) (ts : List Term) : EvacM (List Term) := do
  let scanStart := (← get).heap.top
  let ts' ← Evac.roots ts
  Evac.scanLoop fuel scanStart
  return ts'

end Yggdrasil
