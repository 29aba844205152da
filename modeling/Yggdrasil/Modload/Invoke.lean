import Yggdrasil.Modload.KernelApi

/-!
# Invoking functions through the trampoline

`invoke` runs a function on the interpreter. A function that ends in a tail call
returns the sentinel after stashing its target, and the trampoline goes on there. An
external call starts an invocation of its own.
-/

namespace Yggdrasil

namespace Modload

variable {σ : Type} (svc : Services σ) (limit : ℕ)

/-- The function an external call with `nargs` arguments reaches in the module table. -/
def resolve (k : Kernel σ) (mg fg : UInt32) (nargs : ℕ) : Option (LoadedModule × ℕ) := do
  let target ← k.modules.current (k.atoms.name mg)
  let idx ← target.module.functionNamed (k.atoms.name fg)
  let f ← target.module.functions[idx]?
  if f.arity.toNat = nargs then some (target, idx) else none

/-- A way to run a function of an instance. -/
abbrev Invoker (σ : Type) := LoadedModule → ℕ → List Term → Sys (Core σ) Term

/-- `call_ext_dynamic`. -/
def callExtDynamic (inv : Invoker σ) (mg fg : UInt32) (args : List Term) : Sys (Core σ) Term :=
  fun c =>
    match resolve c.kernel mg fg args.length with
    | none => .error (.trap .badarg) c
    | some (target, idx) => inv target idx args (c.noteRunning svc target)

/-- `KernelApi::call_ext`: afterwards the process is back in the caller's instance. -/
def callExt (inv : Invoker σ) (m : LoadedModule) (mg fg : UInt32) (args : List Term) :
    Sys (Core σ) Term := fun c =>
  match callExtDynamic svc inv mg fg args c with
  | .ok v c' => .ok v (c'.noteRunning svc m)
  | .error e c' => .error e (if e.trap?.isSome then c'.noteRunning svc m else c')

section

variable {svc} {inv : Invoker σ} {m target : LoadedModule} {mg fg : UInt32} {args : List Term}
  {idx : ℕ} {c c' : Core σ}

/-- An external call to nowhere. -/
theorem callExt_none (hres : resolve c.kernel mg fg args.length = none) :
    callExt svc inv m mg fg args c = .error (.trap .badarg) (c.noteRunning svc m) := by
  simp only [callExt, callExtDynamic, hres]
  rfl

/-- An external call whose target returns. -/
theorem callExt_ok (hres : resolve c.kernel mg fg args.length = some (target, idx)) {v : Term}
    (hrun : inv target idx args (c.noteRunning svc target) = .ok v c') :
    callExt svc inv m mg fg args c = .ok v (c'.noteRunning svc m) := by
  simp only [callExt, callExtDynamic, hres, hrun]

/-- An external call whose target stops. -/
theorem callExt_error (hres : resolve c.kernel mg fg args.length = some (target, idx)) {e : Stop}
    (hrun : inv target idx args (c.noteRunning svc target) = .error e c') :
    callExt svc inv m mg fg args c =
      .error e (if e.trap?.isSome then c'.noteRunning svc m else c') := by
  simp only [callExt, callExtDynamic, hres, hrun]

end

/-- A run as a callback: only values and traps are returned. -/
def returned {α : Type} (x : Sys (Core σ) α) : Attempt (Core σ) α := fun c =>
  match x c with
  | .ok a c' => .ok a c'
  | .error e c' =>
    match e.trap? with
    | some t => .error (.trap t) c'
    | none => .error (if e = .panic then .panic else .gone) c'

/-- The interface for the code of instance `m`. -/
def kernelApi (inv : Invoker σ) (m : LoadedModule) : SystemApi (Core σ) :=
  { KernelApi.base svc limit m with
    callExt := fun mg fg args => returned (callExt svc inv m mg fg args)
    tailCall := fun mg fg args c => .ok () { c with tailTarget := some (.ext mg fg args) }
    tailCallLocal := fun callee args c => .ok () { c with tailTarget := some (.loc callee args) } }

/-- `next_tail_target`: consume the stashed target. -/
def nextTailTarget (m : LoadedModule) : Sys (Core σ) (LoadedModule × ℕ × List Term) := fun c =>
  let c' := { c with tailTarget := none }
  match c.tailTarget with
  | none => .error (.trap .badCode) c'
  | some (.ext mg fg args) =>
    match resolve c'.kernel mg fg args.length with
    | none => .error (.trap .badarg) c'
    | some (target, idx) => .ok (target, idx, args) (c'.noteRunning svc target)
  | some (.loc callee args) => .ok (m, callee.toNat, args) c'

/-- `invoke`, which never collects at the hops. -/
def invoke : ℕ → Invoker σ
  | 0, _, _, _ => throw .fuel
  | n + 1, m, fnIdx, args => do
    let r ← Interp.runFunction m.module (kernelApi svc limit (invoke n) m) limit n fnIdx args
    if r ≠ tailSentinel then return r
    let (target, idx, targs) ← nextTailTarget svc m
    invoke n target idx targs

end Modload

end Yggdrasil
