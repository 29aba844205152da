import Yggdrasil.Lib.Yields
import Yggdrasil.Modload.Invoke

/-!
# Tail calls as calls

Reference semantics without a sentinel, a stash or a trampoline: a tail call is a
call whose value is returned. What becomes of that value when the function was itself
reached by a call of the same module is left open as a policy.
-/

namespace Yggdrasil

namespace Reference

open Modload

/-- How a function ends: by a return, or by returning the value of a tail call. -/
inductive Completion where
  | ret (v : Term)
  | tail (v : Term)
  deriving DecidableEq, Repr

/-- The value a function ends with. -/
def Completion.value : Completion → Term
  | .ret v | .tail v => v

/-- What a call does when its callee ends in a tail call: go on with the value, end
with it as well, or give up. -/
inductive Policy where
  | resume
  | unwind
  | strict
  deriving DecidableEq, Repr

variable {σ : Type} (svc : Services σ) (limit : ℕ)

section

variable (p : Policy) (m : LoadedModule) (go : Frame → Sys (Core σ) Completion)
  (call : UInt32 → List Term → Sys (Core σ) Completion)
  (tail : UInt32 → List Term → Sys (Core σ) Term)
  (ext : UInt32 → UInt32 → List Term → Sys (Core σ) Term)

/-- Store a value and go on. -/
def resumeWith (rd : UInt8) (v : Term) (fr : Frame) : Sys (Core σ) Completion := do
  let ((), fr) ← Exec.set rd v fr
  go fr

/-- What follows an instruction: `go` runs on in a frame, `call` and `tail` run a
function of the instance, `ext` one of another module. -/
def next (flow : Flow) (fr : Frame) : Sys (Core σ) Completion :=
  match flow with
  | .next => go fr
  | .ret v => return .ret v
  | .call rd callee args => do
    match ← call callee args with
    | .ret v => resumeWith go rd v fr
    | .tail v =>
      match p with
      | .resume => resumeWith go rd v fr
      | .unwind => return .tail v
      | .strict => throw .gone
  | .callExt rd mg fg args => do
    let v ← ext mg fg args
    resumeWith go rd v fr
  | .tailCall callee args => do return .tail (← tail callee args)
  | .tailCallExt mg fg args => do return .tail (← ext mg fg args)
  | .recv rd => do
    let v ← Sys.effect (KernelApi.base svc limit m).recv
    resumeWith go rd v fr
  | .sleep ms => do
    Sys.effect ((KernelApi.base svc limit m).sleepMs ms)
    go fr

/-- One instruction and what follows it. -/
def step (fr : Frame) : Sys (Core σ) Completion := do
  let (flow, fr) ← Exec.body (KernelApi.base svc limit m) limit fr
  next svc limit p m go call tail ext flow fr

end

/-- Run a frame of instance `m`. A tail call runs its target like a call does. -/
def run (p : Policy) : ℕ → LoadedModule → Frame → Sys (Core σ) Completion
  | 0, _, _ => throw .fuel
  | n + 1, m, fr =>
    let call (callee : UInt32) (args : List Term) : Sys (Core σ) Completion := do
      run p n m (← Interp.start m.module callee.toNat args)
    let inv : Invoker σ := fun target idx args => do
      return (← run p n target (← Interp.start target.module idx args)).value
    step svc limit p m (run p n m) call (fun callee args => do return (← call callee args).value)
      (callExt svc inv m) fr

/-- Invoke a function. -/
def invoke (p : Policy) (n : ℕ) : Invoker σ := fun m fnIdx args => do
  return (← run svc limit p n m (← Interp.start m.module fnIdx args)).value

end Reference

end Yggdrasil
