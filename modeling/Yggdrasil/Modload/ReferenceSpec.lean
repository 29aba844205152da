import Yggdrasil.Modload.Contract
import Yggdrasil.Modload.Reference

/-!
# Properties of the reference semantics

More fuel never changes a result, and a result the strict policy finds is found by
every policy. A second form of the unwinding reference spends its fuel the way the
trampoline does; it has the same results.
-/

namespace Yggdrasil

namespace Reference

open Modload
open EStateM (Approx Yields)

variable {σ : Type} {svc : Services σ} {limit : ℕ}

section Approximation

/-- An external call approximates when the invocation of its target does. -/
theorem callExt_approx {inv inv' : Invoker σ}
    (h : ∀ m idx args, Approx Stop.trap? (inv m idx args) (inv' m idx args))
    (m : LoadedModule) (mg fg : UInt32) (args : List Term) :
    Approx Stop.trap? (callExt svc inv m mg fg args) (callExt svc inv' m mg fg args) := by
  intro c r c' hy
  cases hres : resolve c.kernel mg fg args.length with
  | none =>
    unfold Yields at hy ⊢
    rw [callExt_none hres] at hy ⊢
    exact hy
  | some found =>
    obtain ⟨target, idx⟩ := found
    have hinv := h target idx args (c.noteRunning svc target)
    cases hrun : inv target idx args (c.noteRunning svc target) with
    | ok v c₁ =>
      have hrun' := hinv (.ok v) c₁ hrun
      unfold Yields at hy ⊢
      rw [callExt_ok hres hrun] at hy
      rw [callExt_ok hres hrun']
      exact hy
    | error e c₁ =>
      unfold Yields at hy ⊢
      rw [callExt_error hres hrun] at hy
      cases r with
      | ok v => cases hy
      | error t =>
        obtain ⟨e', he', ht⟩ := hy
        cases he'
        obtain ⟨e'', hrun', ht'⟩ := hinv (.error t) c₁ ⟨e, hrun, ht⟩
        refine ⟨e'', ?_, ht'⟩
        rw [callExt_error hres hrun', ht, ht']

variable {p p' : Policy} {m : LoadedModule} {go go' : Frame → Sys (Core σ) Completion}
  {call call' : UInt32 → List Term → Sys (Core σ) Completion}
  {tail tail' : UInt32 → List Term → Sys (Core σ) Term}
  {ext ext' : UInt32 → UInt32 → List Term → Sys (Core σ) Term}

private theorem resumeWith_approx (hgo : ∀ fr, Approx Stop.trap? (go fr) (go' fr)) (rd : UInt8)
    (v : Term) (fr : Frame) : Approx Stop.trap? (resumeWith go rd v fr) (resumeWith go' rd v fr) :=
  (Approx.refl _).bind fun _ => hgo _

/-- One instruction approximates when what follows it does; the strict policy
approximates every policy. -/
theorem step_approx (hp : p = p' ∨ p = .strict)
    (hgo : ∀ fr, Approx Stop.trap? (go fr) (go' fr))
    (hcall : ∀ callee args, Approx Stop.trap? (call callee args) (call' callee args))
    (htail : ∀ callee args, Approx Stop.trap? (tail callee args) (tail' callee args))
    (hext : ∀ mg fg args, Approx Stop.trap? (ext mg fg args) (ext' mg fg args)) (fr : Frame) :
    Approx Stop.trap? (step svc limit p m go call tail ext fr)
      (step svc limit p' m go' call' tail' ext' fr) := by
  refine (Approx.refl _).bind fun after => ?_
  obtain ⟨flow, fr'⟩ := after
  cases flow with
  | next => exact hgo fr'
  | ret v => exact .refl _
  | call rd callee args =>
    refine (hcall callee args).bind fun c => ?_
    cases c with
    | ret v => exact resumeWith_approx hgo rd v fr'
    | tail v =>
      rcases hp with rfl | rfl
      · cases p with
        | resume => exact resumeWith_approx hgo rd v fr'
        | unwind => exact .refl _
        | strict => exact .refl _
      · exact .of_throw rfl _
  | callExt rd mg fg args => exact (hext mg fg args).bind fun v => resumeWith_approx hgo rd v fr'
  | tailCall callee args => exact (htail callee args).bind fun _ => .refl _
  | tailCallExt mg fg args => exact (hext mg fg args).bind fun _ => .refl _
  | recv rd => exact (Approx.refl _).bind fun v => resumeWith_approx hgo rd v fr'
  | sleep ms => exact (Approx.refl _).bind fun _ => hgo fr'

/-- More fuel keeps results, and so does a policy other than the strict one. -/
theorem run_approx (hp : p = p' ∨ p = .strict) {n k : ℕ} (hle : n ≤ k) (m : LoadedModule)
    (fr : Frame) : Approx Stop.trap? (run svc limit p n m fr) (run svc limit p' k m fr) := by
  induction n generalizing k m fr with
  | zero => exact .of_throw rfl _
  | succ n ih =>
    obtain ⟨k, rfl⟩ : ∃ j, k = j + 1 := ⟨k - 1, by omega⟩
    have hn : n ≤ k := by omega
    refine step_approx hp (fun fr => ih hn m fr) (fun callee args => ?_) (fun callee args => ?_)
      (callExt_approx (fun target idx args => ?_) m) fr
    · exact (Approx.refl _).bind fun fr => ih hn m fr
    · exact ((Approx.refl _).bind fun fr => ih hn m fr).bind fun _ => .refl _
    · exact (Approx.refl _).bind fun fr => (ih hn target fr).bind fun _ => .refl _

/-- More fuel keeps results of an invocation, and so does a policy other than the
strict one. -/
theorem invoke_approx (hp : p = p' ∨ p = .strict) {n k : ℕ} (hle : n ≤ k) (m : LoadedModule)
    (idx : ℕ) (args : List Term) :
    Approx Stop.trap? (invoke svc limit p n m idx args) (invoke svc limit p' k m idx args) :=
  (Approx.refl _).bind fun fr => (run_approx hp hle m fr).bind fun _ => .refl _

end Approximation

section Levels

variable (svc limit)

/-- The unwinding reference with a given way to invoke the targets of external and
tail calls. -/
def runAt (inv : Invoker σ) : ℕ → LoadedModule → Frame → Sys (Core σ) Completion
  | 0, _, _ => throw .fuel
  | n + 1, m, fr =>
    step svc limit .unwind m (runAt inv n m)
      (fun callee args => do runAt inv n m (← Interp.start m.module callee.toNat args))
      (fun callee args => inv m callee.toNat args) (callExt svc inv m) fr

/-- The unwinding reference with fuel for the nesting of invocations and, afresh in
each of them, for its instructions. -/
def invokeAt : ℕ → Invoker σ
  | 0, _, _, _ => throw .fuel
  | n + 1, m, idx, args => do
    return (← runAt svc limit (invokeAt n) n m (← Interp.start m.module idx args)).value

variable {svc limit}

private theorem runAt_approx {inv inv' : Invoker σ}
    (hinv : ∀ m idx args, Approx Stop.trap? (inv m idx args) (inv' m idx args)) {n k : ℕ}
    (hle : n ≤ k) (m : LoadedModule) (fr : Frame) :
    Approx Stop.trap? (runAt svc limit inv n m fr) (runAt svc limit inv' k m fr) := by
  induction n generalizing k fr with
  | zero => exact .of_throw rfl _
  | succ n ih =>
    obtain ⟨k, rfl⟩ : ∃ j, k = j + 1 := ⟨k - 1, by omega⟩
    have hn : n ≤ k := by omega
    refine step_approx (.inl rfl) (fun fr => ih hn fr) (fun callee args => ?_)
      (fun callee args => hinv m _ args) (callExt_approx hinv m) fr
    exact (Approx.refl _).bind fun fr => ih hn fr

private theorem invokeAt_approx (n : ℕ) (m : LoadedModule) (idx : ℕ) (args : List Term) :
    Approx Stop.trap? (invokeAt svc limit n m idx args)
      (invokeAt svc limit (n + 1) m idx args) := by
  induction n generalizing m idx args with
  | zero => exact .of_throw rfl _
  | succ n ih =>
    refine (Approx.refl _).bind fun fr => ?_
    exact (runAt_approx ih (by omega) m fr).bind fun _ => .refl _

private theorem run_approx_runAt (n : ℕ) (m : LoadedModule) (fr : Frame) :
    Approx Stop.trap? (run svc limit .unwind n m fr)
      (runAt svc limit (invokeAt svc limit n) n m fr) := by
  induction n generalizing m fr with
  | zero => exact .of_throw rfl _
  | succ n ih =>
    have hgo : ∀ m fr, Approx Stop.trap? (run svc limit .unwind n m fr)
        (runAt svc limit (invokeAt svc limit (n + 1)) n m fr) := fun m fr =>
      (ih m fr).trans (runAt_approx (invokeAt_approx n) (Nat.le_refl n) m fr)
    have hinv : ∀ m idx args, Approx Stop.trap?
        (do return (← run svc limit .unwind n m (← Interp.start m.module idx args)).value)
        (invokeAt svc limit (n + 1) m idx args) := fun m idx args =>
      (Approx.refl _).bind fun fr => (ih m fr).bind fun _ => .refl _
    refine step_approx (.inl rfl) (hgo m) (fun callee args => ?_) (fun callee args => ?_)
      (callExt_approx hinv m) fr
    · exact (Approx.refl _).bind fun fr => hgo m fr
    · simp only [bind_assoc]
      exact hinv m callee.toNat args

private theorem runAt_approx_run (inv : Invoker σ) {k : ℕ}
    (hinv : ∀ m idx args, Approx Stop.trap? (inv m idx args)
      (do return (← run svc limit .unwind k m (← Interp.start m.module idx args)).value))
    (n : ℕ) (m : LoadedModule) (fr : Frame) :
    Approx Stop.trap? (runAt svc limit inv n m fr) (run svc limit .unwind (n + k) m fr) := by
  induction n generalizing fr with
  | zero => exact .of_throw rfl _
  | succ n ih =>
    rw [Nat.add_right_comm]
    have hmore : ∀ m idx args, Approx Stop.trap? (inv m idx args)
        (do return (← run svc limit .unwind (n + k) m
          (← Interp.start m.module idx args)).value) := fun m idx args =>
      (hinv m idx args).trans ((Approx.refl _).bind fun fr =>
        (run_approx (.inl rfl) (by omega) m fr).bind fun _ => .refl _)
    refine step_approx (.inl rfl) ih (fun callee args => ?_) (fun callee args => ?_)
      (callExt_approx hmore m) fr
    · exact (Approx.refl _).bind fun fr => ih fr
    · simp only [bind_assoc]
      exact hmore m callee.toNat args

private theorem invokeAt_approx_invoke (n : ℕ) :
    ∃ k, ∀ m idx args, Approx Stop.trap? (invokeAt svc limit n m idx args)
      (invoke svc limit .unwind k m idx args) := by
  induction n with
  | zero => exact ⟨0, fun _ _ _ => .of_throw rfl _⟩
  | succ n ih =>
    obtain ⟨k, hk⟩ := ih
    refine ⟨n + k, fun m idx args => (Approx.refl _).bind fun fr => ?_⟩
    exact (runAt_approx_run _ hk n m fr).bind fun _ => .refl _

/-- Both ways to spend fuel have the same results. -/
theorem yields_invokeAt_iff {m : LoadedModule} {idx : ℕ} {args : List Term} {c c' : Core σ}
    {r : Except Trap Term} :
    (∃ n, Yields Stop.trap? (invokeAt svc limit n m idx args) c r c') ↔
      ∃ n, Yields Stop.trap? (invoke svc limit .unwind n m idx args) c r c' := by
  constructor
  · rintro ⟨n, h⟩
    obtain ⟨k, hk⟩ := @invokeAt_approx_invoke σ svc limit n
    exact ⟨k, hk m idx args _ _ _ h⟩
  · rintro ⟨n, h⟩
    refine ⟨n + 1, ?_⟩
    have happrox : Approx Stop.trap? (invoke svc limit .unwind n m idx args)
        (invokeAt svc limit (n + 1) m idx args) :=
      (Approx.refl _).bind fun fr => (run_approx_runAt n m fr).bind fun _ => .refl _
    exact happrox _ _ _ h

end Levels

end Reference

end Yggdrasil
