import Yggdrasil.Bytecode.Module

/-!
# The module table

Loaded modules live in slots with a current version, which serves new external
calls, and perhaps the version it replaced. A registry records for each process
which version it is executing.
-/

namespace Yggdrasil

/-- A loaded instance of a module. -/
structure LoadedModule where
  /-- The name it was loaded under. -/
  name : String
  /-- The version, counted per name from one. -/
  version : ℕ
  /-- The verified code. -/
  module : Module
  /-- Module-local atom index to global atom index. -/
  atomMap : List UInt32
  /-- Whether native code was published. -/
  jit : Bool
  /-- Content-addressed: the instance is never replaced. -/
  sealed : Bool
  /-- For each function, whether it can return the tail sentinel. -/
  tailers : List Bool
  deriving DecidableEq, Repr

/-- The two versions of a name. -/
structure Slot where
  /-- The version that serves new external calls. -/
  current : LoadedModule
  /-- The version replaced last, for processes still in it. -/
  old : Option LoadedModule
  deriving DecidableEq, Repr

/-- `MODULES`: the slots by name. -/
abbrev ModuleTable := String → Option Slot

/-- `RUNNING`: the module and version each process is recorded to execute. -/
abbrev Running := Word → Option (String × ℕ)

/-- The current version of a name. -/
def ModuleTable.current (t : ModuleTable) (name : String) : Option LoadedModule :=
  (t name).map Slot.current

/-- A stashed tail-call target. -/
inductive TailTarget where
  /-- Another module, by the global atoms of module and function. -/
  | ext (mg fg : UInt32) (args : List Term)
  /-- A function of the instance already running. -/
  | loc (callee : UInt32) (args : List Term)
  deriving DecidableEq, Repr

/-- The global atom table, by index. -/
abbrev AtomTable := List String

namespace AtomTable

/-- The name of an atom. -/
def name (t : AtomTable) (idx : UInt32) : String := (t[idx.toNat]?).getD "?badatom"

/-- The atom with a name, added if it is new. -/
def intern (t : AtomTable) (name : String) : AtomTable × UInt32 :=
  match t.findIdx? (· = name) with
  | some i => (t, UInt32.ofNat i)
  | none => (t ++ [name], UInt32.ofNat t.length)

end AtomTable

end Yggdrasil
