import Yggdrasil.Interp.Exec

/-!
# Running a function

The interpreter loop and the frames it passes through. Calls within the module
recurse on the native stack; every other effect is a callback.
-/

namespace Yggdrasil

namespace Interp

variable {σ : Type} (m : Module) (api : SystemApi σ) (limit : ℕ)

/-- The frame a call starts in, or the trap it returns at once. -/
def enter (fnIdx : ℕ) (args : List Term) : Except Fault Frame :=
  match m.functions[fnIdx]? with
  | none => .error .callee
  | some f =>
    if args.length ≠ f.arity.toNat ∨ f.nregs.toNat < args.length then .error .arity
    else .ok ⟨f.code, 0, args ++ List.replicate (f.nregs.toNat - args.length) Term.nil⟩

/-- Start a call. -/
def start (fnIdx : ℕ) (args : List Term) : Sys σ Frame :=
  match enter m fnIdx args with
  | .ok fr => pure fr
  | .error e => throw (.fault e)

/-- The loop of `run_function`. -/
def runLoop : ℕ → Frame → Sys σ Term
  | 0, _ => throw .fuel
  | n + 1, fr => do
    let (flow, fr) ← Exec.body api limit fr
    match flow with
    | .next => runLoop n fr
    | .ret v => return v
    | .call rd callee args =>
      let v ← runLoop n (← start m callee.toNat args)
      if v = tailSentinel then return tailSentinel
      let ((), fr) ← Exec.set rd v fr
      runLoop n fr
    | .callExt rd mg fg args =>
      let v ← Sys.attempt (api.callExt mg fg args)
      let ((), fr) ← Exec.set rd v fr
      runLoop n fr
    | .tailCall callee args =>
      Sys.effect (api.tailCallLocal callee args)
      return tailSentinel
    | .tailCallExt mg fg args =>
      Sys.effect (api.tailCall mg fg args)
      return tailSentinel
    | .recv rd =>
      let v ← Sys.effect api.recv
      let ((), fr) ← Exec.set rd v fr
      runLoop n fr
    | .sleep ms =>
      Sys.effect (api.sleepMs ms)
      runLoop n fr

/-- Run function `fnIdx` on `args`. -/
def runFunction (fuel fnIdx : ℕ) (args : List Term) : Sys σ Term := do
  runLoop m api limit fuel (← start m fnIdx args)

/-- The loop comes to fetch an instruction of function `idx` in frame `fr` and
system state `s'` during the run of function `fnIdx` on `args` from state `s`. -/
inductive Visits (fnIdx : ℕ) (args : List Term) (s : σ) : ℕ → Frame → σ → Prop
  | start {fr : Frame} : enter m fnIdx args = .ok fr → Visits fnIdx args s fnIdx fr s
  | next {idx : ℕ} {fr fr' : Frame} {s₁ s₂ : σ} : Visits fnIdx args s idx fr s₁ →
      Exec.body api limit fr s₁ = .ok (.next, fr') s₂ → Visits fnIdx args s idx fr' s₂
  | enter {idx : ℕ} {fr fr' frc : Frame} {s₁ s₂ : σ} {rd : UInt8} {callee : UInt32}
      {vs : List Term} : Visits fnIdx args s idx fr s₁ →
      Exec.body api limit fr s₁ = .ok (.call rd callee vs, fr') s₂ →
      Interp.enter m callee.toNat vs = .ok frc → Visits fnIdx args s callee.toNat frc s₂
  | returned {idx : ℕ} {fr fr' fr'' : Frame} {s₁ s₂ s₃ s₄ : σ} {rd : UInt8} {callee : UInt32}
      {vs : List Term} {n : ℕ} {v : Term} : Visits fnIdx args s idx fr s₁ →
      Exec.body api limit fr s₁ = .ok (.call rd callee vs, fr') s₂ →
      runFunction m api limit n callee.toNat vs s₂ = .ok v s₃ → v ≠ tailSentinel →
      Exec.set rd v fr' s₃ = .ok ((), fr'') s₄ → Visits fnIdx args s idx fr'' s₄
  | external {idx : ℕ} {fr fr' fr'' : Frame} {s₁ s₂ s₃ s₄ : σ} {rd : UInt8} {mg fg : UInt32}
      {vs : List Term} {v : Term} : Visits fnIdx args s idx fr s₁ →
      Exec.body api limit fr s₁ = .ok (.callExt rd mg fg vs, fr') s₂ →
      Sys.attempt (api.callExt mg fg vs) s₂ = .ok v s₃ →
      Exec.set rd v fr' s₃ = .ok ((), fr'') s₄ → Visits fnIdx args s idx fr'' s₄
  | received {idx : ℕ} {fr fr' fr'' : Frame} {s₁ s₂ s₃ s₄ : σ} {rd : UInt8} {v : Term} :
      Visits fnIdx args s idx fr s₁ → Exec.body api limit fr s₁ = .ok (.recv rd, fr') s₂ →
      Sys.effect api.recv s₂ = .ok v s₃ →
      Exec.set rd v fr' s₃ = .ok ((), fr'') s₄ → Visits fnIdx args s idx fr'' s₄
  | slept {idx : ℕ} {fr fr' : Frame} {s₁ s₂ s₃ : σ} {ms : Word} :
      Visits fnIdx args s idx fr s₁ → Exec.body api limit fr s₁ = .ok (.sleep ms, fr') s₂ →
      Sys.effect (api.sleepMs ms) s₂ = .ok () s₃ → Visits fnIdx args s idx fr' s₃

end Interp

end Yggdrasil
