import Yggdrasil.Modload.TailCall

/-!
# The trampoline and the stash

A run of the engine returns a valid term and leaves no stashed target, or it returns the
sentinel and leaves a target with valid arguments. So the trampoline finds the target it
needs, and an invocation keeps to valid terms whatever code it runs.
-/

namespace Yggdrasil

namespace Modload

open EStateM (Ends)
open Reference (Sound sound_callExt targetArgs siblingTail idleCore)

variable {σ α : Type} {svc : Services σ} {J : Objects → Kernel σ → Prop} {limit : ℕ} {w : Objects}

/-- The invariant on a core with a stashed target. -/
def Stashed (J : Objects → Kernel σ → Prop) (w : Objects) (c : Core σ) : Prop :=
  J w c.kernel ∧ ∃ target, c.tailTarget = some target ∧ ∀ t ∈ targetArgs target, t.Valid w.space

/-- The run stops, and not at an `unreachable!`. -/
def Stops (J : Objects → Kernel σ → Prop) (w : Objects) (e : Stop) (c : Core σ) : Prop :=
  e ≠ .panic ∧ ∃ w', w ≤ w' ∧ OnCore J w' c

/-- From an empty stash, a run of the engine returns a valid term or leaves a target. -/
def Unwinds (J : Objects → Kernel σ → Prop) (w : Objects) (x : Sys (Core σ) Term) : Prop :=
  ∀ c, OnCore J w c → Ends (Stops J w) (fun v c' => ∃ w', w ≤ w' ∧
    (v.Valid w'.space ∧ OnCore J w' c' ∨ v = tailSentinel ∧ Stashed J w' c')) x c

private theorem ne_sentinel {v : Term} (hv : v.Valid w.space) : v ≠ tailSentinel :=
  fun heq => hv.ne_tailSentinel_word (by rw [heq]; rfl)

private theorem ends_later {P : Objects → α → Core σ → Prop} {w' : Objects} (hle : w ≤ w')
    {x : Sys (Core σ) α} {c : Core σ}
    (h : Ends (Stops J w') (fun a c' => ∃ v, w' ≤ v ∧ P v a c') x c) :
    Ends (Stops J w) (fun a c' => ∃ v, w ≤ v ∧ P v a c') x c := by
  refine h.mono ?_ ?_
  · rintro e c' ⟨he, v, hv, hc'⟩
    exact ⟨he, v, hle.trans hv, hc'⟩
  · rintro a c' ⟨v, hv, ha⟩
    exact ⟨v, hle.trans hv, ha⟩

private theorem Unwinds.after {Q : Objects → α → Prop} {x : Sys (Core σ) α}
    {f : α → Sys (Core σ) Term} (hx : Sys.Sound (OnCore J) w Q x)
    (hf : ∀ a w', w ≤ w' → Q w' a → Unwinds J w' (f a)) : Unwinds J w (x >>= f) := by
  intro c hc
  refine (hx c hc).bind ?_
  rintro a c₁ ⟨w₁, hle, hc₁, ha⟩
  exact ends_later hle (hf a w₁ hle ha c₁ hc₁)

private theorem honours_returned {Q : Objects → α → Prop} {x : Sys (Core σ) α}
    (hx : Sys.Sound (OnCore J) w Q x) : Attempt.Honours (OnCore J) w Q (returned x) := by
  intro c hc
  unfold Ends returned
  cases hrun : x c with
  | ok a c' => exact (hx c hc).ok hrun
  | error e c' =>
    obtain ⟨he, hc'⟩ := (hx c hc).error hrun
    dsimp only
    cases e.trap? with
    | some t => exact ⟨by simp, hc'⟩
    | none => exact ⟨by simp [show e ≠ .panic from he], hc'⟩

section

variable (hsvc : svc.Contract J)

include hsvc

private theorem runLoop_unwinds {inv : Invoker σ} (hinv : Sound J inv) (n : ℕ) (m : LoadedModule)
    {fr : Frame} (hfr : fr.Valid w) :
    Unwinds J w (Interp.runLoop m.module (kernelApi svc limit inv m) limit n fr) := by
  induction n generalizing w fr with
  | zero => exact fun c hc => ⟨by simp, w, le_refl w, hc⟩
  | succ n ih =>
    have hapi : (KernelApi.base svc limit m).Contract (OnCore J) := KernelApi.base_contract hsvc m
    have hbody : Exec.body (kernelApi svc limit inv m) limit =
        Exec.body (KernelApi.base svc limit m) limit := Exec.body_withCalls _ _ _ _ _
    -- a value is stored and the run goes on
    have hresume : ∀ {w' : Objects} {fr' : Frame} (rd : UInt8) {v : Term}, fr'.Valid w' →
        v.Valid w'.space → Unwinds J w' (do
          let after ← Exec.set rd v fr'
          Interp.runLoop m.module (kernelApi svc limit inv m) limit n after.2) :=
      fun rd _ hfr' hv => .after (Exec.sound_set rd hv _ hfr') fun _ _ _ hp => ih hp.1
    rw [Interp.runLoop, hbody]
    refine .after (Exec.sound_body hapi fr hfr) ?_
    rintro ⟨flow, fr'⟩ w₁ - ⟨hfr', hflow⟩
    have hlater : ∀ {w₂ : Objects}, w₁ ≤ w₂ → fr'.Valid w₂ := fun hle t ht => (hfr' t ht).later hle
    cases flow with
    | next => exact ih hfr'
    | ret v => exact fun c hc => ⟨w₁, le_refl w₁, .inl ⟨hflow, hc⟩⟩
    | call rd callee args =>
      refine .after (Interp.sound_start m.module callee.toNat hflow) fun frc w₂ hle₂ hfrc c hc => ?_
      refine (ih hfrc c hc).bind ?_
      rintro v c₁ ⟨w₃, hle₃, ⟨hv, hc₁⟩ | ⟨rfl, hstash⟩⟩
      · rw [if_neg (ne_sentinel hv)]
        exact ends_later hle₃ (hresume rd (hlater (hle₂.trans hle₃)) hv c₁ hc₁)
      · exact ⟨w₃, hle₃, .inr ⟨rfl, hstash⟩⟩
    | callExt rd mg fg args =>
      exact .after (Sys.sound_attempt (honours_returned (sound_callExt hsvc hinv m mg fg hflow)))
        fun v w₂ hle₂ hv => hresume rd (hlater hle₂) hv
    | tailCall callee args =>
      exact fun c hc => ⟨w₁, le_refl w₁, .inr ⟨rfl, hc.1, .loc callee args, rfl, hflow⟩⟩
    | tailCallExt mg fg args =>
      exact fun c hc => ⟨w₁, le_refl w₁, .inr ⟨rfl, hc.1, .ext mg fg args, rfl, hflow⟩⟩
    | recv rd =>
      exact .after (Sys.sound_effect (hapi.recv w₁)) fun v w₂ hle₂ hv => hresume rd (hlater hle₂) hv
    | sleep ms =>
      exact .after (Sys.sound_effect (hapi.sleepMs w₁ ms)) fun _ w₂ hle₂ _ => ih (hlater hle₂)

private theorem runFunction_unwinds {inv : Invoker σ} (hinv : Sound J inv) (n idx : ℕ)
    (m : LoadedModule) {args : List Term} (hargs : ∀ t ∈ args, t.Valid w.space) :
    Unwinds J w (Interp.runFunction m.module (kernelApi svc limit inv m) limit n idx args) :=
  .after (Interp.sound_start m.module idx hargs) fun _ _ _ hfr => runLoop_unwinds hsvc hinv n m hfr

private theorem invoke_sound (n : ℕ) : Sound J (invoke svc limit n) := by
  induction n with
  | zero => exact fun _ _ _ _ _ => .throw (by simp [Sys.NoPanic])
  | succ n ih =>
    intro m idx args w hargs c hc
    refine (runFunction_unwinds hsvc ih n idx m hargs c hc).bind ?_
    rintro v c₁ ⟨w₁, hle, ⟨hv, hc₁⟩ | ⟨rfl, hk, target, htarget, htargs⟩⟩
    · rw [if_pos (ne_sentinel hv)]
      exact ⟨w₁, hle, hc₁, hv⟩
    · have hclear : OnCore J w₁ { c₁ with tailTarget := none } := ⟨hk, rfl⟩
      have hnext : Ends (Stops J w₁) (fun p c' => OnCore J w₁ c' ∧ ∀ t ∈ p.2.2, t.Valid w₁.space)
          (nextTailTarget svc m) c₁ := by
        unfold Ends nextTailTarget
        rw [htarget]
        cases target with
        | loc callee targs => exact ⟨hclear, htargs⟩
        | ext mg fg targs =>
          dsimp only
          cases resolve c₁.kernel mg fg targs.length with
          | none => exact ⟨by simp, w₁, le_refl w₁, hclear⟩
          | some found => exact ⟨hclear.noteRunning hsvc found.1, htargs⟩
      rw [if_neg (not_not.mpr rfl)]
      refine ends_later hle (hnext.bind ?_)
      exact fun p c₂ hp => ih p.1 p.2.1 p.2.2 w₁ hp.2 c₂ hp.1

/-- Whatever code the instances have: when the engine returns the sentinel to the trampoline,
the stash has a target with valid arguments. An invocation begun with an empty stash ends with
an empty stash, returns a valid term, and never reaches an `unreachable!`. -/
theorem invoke_keeps_stash {args : List Term} (hargs : ∀ t ∈ args, t.Valid w.space)
    (m : LoadedModule) (limit n idx : ℕ) :
    Unwinds J w (Interp.runFunction m.module (kernelApi svc limit (invoke svc limit n) m) limit n
      idx args) ∧ ∀ c, OnCore J w c → Ends (Stops J w)
        (fun v c' => ∃ w', w ≤ w' ∧ OnCore J w' c' ∧ v.Valid w'.space)
        (invoke svc limit n m idx args) c :=
  ⟨runFunction_unwinds hsvc (invoke_sound hsvc n) n idx m hargs,
    invoke_sound hsvc n m idx args w hargs⟩

end

set_option maxRecDepth 4000 in
/-- After a tail call the stash is empty again. -/
theorem siblingTail_keeps_stash : ∃ v c', c'.tailTarget = none ∧
    invoke Services.isolated 0 8 siblingTail 1 [] idleCore = .ok v c' := by
  have hinvoke := (invoke_keeps_stash Services.isolated_contract (List.forall_mem_nil _) siblingTail
    0 8 1).2 idleCore ⟨Objects.empty_holds, rfl⟩
  obtain ⟨_, -, hcore, -⟩ := hinvoke.ok rfl
  exact ⟨_, _, hcore.2, rfl⟩

end Modload

end Yggdrasil
