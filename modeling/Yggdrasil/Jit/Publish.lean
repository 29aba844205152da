import Yggdrasil.Bytecode.Module
import Yggdrasil.Lib.Stores

/-!
# Publication of compiled code

The compiler leaves machine code with relocations. Publication lays the functions of a
module out in pages of their own, maps these pages executable at the next free place of
the code zone, and patches the relocations through the writable alias of the same frames.
-/

namespace Yggdrasil

namespace Jit

/-- `RelocKind`. -/
inductive RelocKind where
  | abs8
  | pcRel4
  deriving DecidableEq, Repr

/-- `RelocTarget`. -/
inductive RelocTarget where
  | helper (index : UInt32)
  | function (index : UInt32)
  /-- A resolved code address, of a direct-bound external call. -/
  | address (addr : Word)
  deriving DecidableEq, Repr

/-- `RelocEntry`. -/
structure RelocEntry where
  /-- Where the site starts, from the start of the function's code. -/
  offset : UInt32
  /-- How the site refers to its target. -/
  kind : RelocKind
  /-- What it refers to. -/
  target : RelocTarget
  /-- An `i64` to be added. -/
  addend : Word
  deriving DecidableEq, Repr

/-- `CompiledFn`. -/
structure CompiledFn where
  /-- The machine code. -/
  code : List UInt8
  /-- Its relocations. -/
  relocs : List RelocEntry
  deriving DecidableEq, Repr

/-- `JitModule`. -/
structure JitModule where
  /-- The addresses of the functions. -/
  fnAddrs : List Word
  /-- The first frame of the span the code is in. -/
  frame : ℕ
  /-- How many frames the span has. -/
  pages : ℕ
  deriving DecidableEq, Repr

/-- The size of a page. -/
def pageSize : ℕ := 4096

/-- `CODE_ZONE_BASE`. -/
def codeZoneBase : ℕ := 0xffffffff70000000

/-- Where the kernel image is linked to. -/
def imageBase : ℕ := 0xffffffff80000000

/-- What publication works on. -/
structure CodeZone where
  /-- `CODE_ZONE_NEXT`. -/
  next : Word
  /-- The page tables: the frame each page is mapped to. -/
  table : ℕ → Option ℕ
  /-- Physical memory. -/
  phys : ℕ → UInt8

namespace CodeZone

/-- The byte at an address, as code is fetched. -/
def fetch (s : CodeZone) (addr : Word) : Option UInt8 :=
  (s.table (addr.toNat / pageSize)).map fun frame =>
    s.phys (frame * pageSize + addr.toNat % pageSize)

/-- The little-endian number in `n` bytes. -/
def fetchLe (s : CodeZone) (addr : Word) (n : ℕ) : Option ℕ :=
  ((List.range n).mapM fun i => s.fetch (addr + BitVec.ofNat 64 i)).map leNat

end CodeZone

/-- The layout loop: every function starts at the next multiple of 16. Returns the offsets
and the space they take. -/
def layout : ℕ → List CompiledFn → List ℕ × ℕ
  | total, [] => ([], total)
  | total, f :: fns =>
    let off := (total + 15) / 16 * 16
    let rest := layout (off + f.code.length) fns
    (off :: rest.1, rest.2)

/-- The pages that much code takes. -/
def pagesFor (total : ℕ) : ℕ := max ((total + (pageSize - 1)) / pageSize) 1

/-- `map_to`: a page is mapped once. -/
def mapTo (page frame : ℕ) (table : ℕ → Option ℕ) : Option (ℕ → Option ℕ) :=
  if table page = none then some (Function.update table page (some frame)) else none

/-- The loop of `map_code` over pages; a page that is mapped already is a panic. -/
def mapPages (va : Word) (frame : ℕ) : ℕ → (ℕ → Option ℕ) → Option (ℕ → Option ℕ)
  | 0, table => some table
  | n + 1, table => do
    let table ← mapPages va frame n table
    mapTo ((va + BitVec.ofNat 64 (n * pageSize)).toNat / pageSize) (frame + n) table

/-- `map_code`: take the next part of the code zone, with a guard page behind it. -/
def mapCode (frame pages : ℕ) (s : CodeZone) : Option (Word × CodeZone) := do
  let table ← mapPages s.next frame pages s.table
  return (s.next, { s with
    next := s.next + BitVec.ofNat 64 ((pages + 1) * pageSize)
    table := table })

/-- The address a relocation refers to; an index without a table entry is a panic. -/
def resolveTarget (helpers fnAddrs : List Word) : RelocTarget → Option Word
  | .helper h => helpers[h.toNat]?
  | .function i => fnAddrs[i.toNat]?
  | .address a => some a

/-- What a relocation puts in its site, which executes at `execAt`. -/
def RelocEntry.bytes (r : RelocEntry) (target execAt : Word) : List UInt8 :=
  match r.kind with
  | .abs8 => leBytes 8 (target + r.addend).toNat
  | .pcRel4 => leBytes 4 ((target + r.addend - execAt).setWidth 32).toNat

section

variable (helpers fnAddrs : List Word) (baseWrite : ℕ) (baseExec : Word)

/-- Patch one relocation of the function at `off`. -/
def patch (off : ℕ) (phys : ℕ → UInt8) (r : RelocEntry) : Option (ℕ → UInt8) := do
  let target ← resolveTarget helpers fnAddrs r.target
  let execAt := baseExec + BitVec.ofNat 64 off + r.offset.toBitVec.setWidth 64
  return Stores.write (baseWrite + (off + r.offset.toNat)) (r.bytes target execAt) phys

/-- Patch all relocations of functions at their offsets. -/
def patchAll : List (CompiledFn × ℕ) → (ℕ → UInt8) → Option (ℕ → UInt8)
  | [], phys => some phys
  | p :: ps, phys => do
    let phys ← p.1.relocs.foldlM (patch helpers fnAddrs baseWrite baseExec p.2) phys
    patchAll ps phys

/-- Copy functions to their offsets. -/
def copyAll : List (CompiledFn × ℕ) → (ℕ → UInt8) → ℕ → UInt8
  | [], phys => phys
  | p :: ps, phys => copyAll ps (Stores.write (baseWrite + p.2) p.1.code phys)

end

/-- `publish`, where `alloc_contig` answers with the frames from `frame` on. `none` is a
panic. -/
def publish (helpers : List Word) (fns : List CompiledFn) (frame : ℕ) (s : CodeZone) :
    Option (JitModule × CodeZone) := do
  let offsets := (layout 0 fns).1
  let pages := pagesFor (layout 0 fns).2
  let baseWrite := frame * pageSize
  let (baseExec, s) ← mapCode frame pages s
  let filled := Stores.write baseWrite (List.replicate (pages * pageSize) 0xCC) s.phys
  let copied := copyAll baseWrite (fns.zip offsets) filled
  let fnAddrs := offsets.map fun off => baseExec + BitVec.ofNat 64 off
  let patched ← patchAll helpers fnAddrs baseWrite baseExec (fns.zip offsets) copied
  return (⟨fnAddrs, frame, pages⟩, { s with phys := patched })

end Jit

end Yggdrasil
