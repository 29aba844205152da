import Yggdrasil.Bytecode.Verify
import Yggdrasil.Interp.Calls
import Yggdrasil.Modload.ReferenceSpec

/-!
# The trampoline implements tail calls

The engine ends a function that tail-calls by unwinding to the trampoline, through
all calls of the same module it is in. So an invocation agrees with the reference in
which the value of a tail call is the value of the whole invocation, and with the
plain reference when no call is left that way. The two sides run in lockstep; only
the registry entry of the running process may differ at the end, since the trampoline
never returns to the module that tail-called.
-/

namespace Yggdrasil

namespace Reference

open Modload
open EStateM (Match Yields)

variable {σ : Type} {svc : Services σ} {J : Objects → Kernel σ → Prop} {limit : ℕ} {w : Objects}

section Soundness

variable (hsvc : svc.Contract J)

/-- An invocation from valid arguments ends in a valid value. -/
def Sound (J : Objects → Kernel σ → Prop) (inv : Invoker σ) : Prop :=
  ∀ m idx args w, (∀ t ∈ args, t.Valid w.space) →
    Sys.Sound (OnCore J) w (fun w' t => t.Valid w'.space) (inv m idx args)

include hsvc

/-- An external call keeps the invariant if the invoker does. -/
theorem sound_callExt {inv : Invoker σ} (hinv : Sound J inv) (m : LoadedModule)
    (mg fg : UInt32) {args : List Term} (hargs : ∀ t ∈ args, t.Valid w.space) :
    Sys.Sound (OnCore J) w (fun w' t => t.Valid w'.space) (callExt svc inv m mg fg args) := by
  intro c hc
  unfold EStateM.Ends
  cases hres : resolve c.kernel mg fg args.length with
  | none =>
    rw [callExt_none hres]
    exact ⟨by simp [Sys.NoPanic], w, le_refl w, hc.noteRunning hsvc m⟩
  | some found =>
    obtain ⟨target, idx⟩ := found
    have hends := hinv target idx args w hargs _ (hc.noteRunning hsvc target)
    cases hrun : inv target idx args (c.noteRunning svc target) with
    | ok v c₁ =>
      obtain ⟨w', hle, hc₁, hv⟩ := hends.ok hrun
      rw [callExt_ok hres hrun]
      exact ⟨w', hle, hc₁.noteRunning hsvc m, hv⟩
    | error e c₁ =>
      obtain ⟨he, w', hle, hc₁⟩ := hends.error hrun
      rw [callExt_error hres hrun]
      refine ⟨he, w', hle, ?_⟩
      split
      · exact hc₁.noteRunning hsvc m
      · exact hc₁

private theorem sound_runAt {inv : Invoker σ} (hinv : Sound J inv) (n : ℕ) (m : LoadedModule)
    {fr : Frame} (hfr : fr.Valid w) :
    Sys.Sound (OnCore J) w (fun w' c => c.value.Valid w'.space) (runAt svc limit inv n m fr) := by
  induction n generalizing w fr with
  | zero => exact .throw (by simp [Sys.NoPanic])
  | succ n ih =>
    have hapi : (KernelApi.base svc limit m).Contract (OnCore J) := KernelApi.base_contract hsvc m
    have hresume : ∀ (w' : Objects) (rd : UInt8) (v : Term) (fr' : Frame), v.Valid w'.space →
        fr'.Valid w' → Sys.Sound (OnCore J) w' (fun w'' c => c.value.Valid w''.space)
          (resumeWith (runAt svc limit inv n m) rd v fr') := fun w' rd v fr' hv hfr' =>
      (Exec.sound_set rd hv fr' hfr').bind fun p w'' _ hp => ih hp.1
    refine (Exec.sound_body hapi fr hfr).bind ?_
    rintro ⟨flow, fr'⟩ w₁ hle ⟨hfr', hflow⟩
    cases flow with
    | next => exact ih hfr'
    | ret v => exact .pure hflow
    | call rd callee args =>
      refine ((Interp.sound_start m.module _ hflow).bind fun frc w₂ _ hfrc => ih hfrc).bind ?_
      intro c w₂ hle₂ hc
      have hlater : fr'.Valid w₂ := fun t ht => (hfr' t ht).later hle₂
      cases c with
      | ret v => exact hresume w₂ rd v fr' hc hlater
      | tail v => exact .pure hc
    | callExt rd mg fg args =>
      refine (sound_callExt hsvc hinv m mg fg hflow).bind fun v w₂ hle₂ hv => ?_
      exact hresume w₂ rd v fr' hv fun t ht => (hfr' t ht).later hle₂
    | tailCall callee args =>
      exact (hinv m callee.toNat args w₁ hflow).bind fun v w₂ _ hv => .pure hv
    | tailCallExt mg fg args =>
      exact (sound_callExt hsvc hinv m mg fg hflow).bind fun v w₂ _ hv => .pure hv
    | recv rd =>
      refine (Sys.sound_effect (hapi.recv w₁)).bind fun v w₂ hle₂ hv => ?_
      exact hresume w₂ rd v fr' hv fun t ht => (hfr' t ht).later hle₂
    | sleep ms =>
      refine (Sys.sound_effect (hapi.sleepMs w₁ ms)).bind fun _ w₂ hle₂ _ => ?_
      exact ih fun t ht => (hfr' t ht).later hle₂

private theorem sound_invokeAt (n : ℕ) : Sound J (invokeAt svc limit n) := by
  induction n with
  | zero => exact fun _ _ _ _ _ => .throw (by simp [Sys.NoPanic])
  | succ n ih =>
    intro m idx args w hargs
    refine (Interp.sound_start m.module idx hargs).bind fun fr w₁ _ hfr => ?_
    exact (sound_runAt hsvc ih n m hfr).bind fun c w₂ _ hc => .pure hc

end Soundness

/-- Two states that differ at most in the registry entry of the running process. -/
def Agree (svc : Services σ) (c c' : Core σ) : Prop :=
  ∀ m, c.noteRunning svc m = c'.noteRunning svc m

/-- A state agrees with itself. -/
theorem Agree.refl (c : Core σ) : Agree svc c c := fun _ => rfl

/-- Agreement is symmetric. -/
theorem Agree.symm {c c' : Core σ} (h : Agree svc c c') : Agree svc c' c := fun m => (h m).symm

/-- The registry entry of the running process does not matter. -/
theorem Agree.noteRunning {c c' : Core σ} (h : Agree svc c c') (m : LoadedModule) :
    Agree svc c (c'.noteRunning svc m) := by
  intro m'
  have hidem : (c'.noteRunning svc m).noteRunning svc m' = c'.noteRunning svc m' := by
    simp [Core.noteRunning, Kernel.noteRunning]
  rw [hidem, h m']

section Lockstep

/-- The reference goes on where the stash says. -/
private def resumeAt (svc : Services σ) (inv : Invoker σ) (m : LoadedModule) :
    TailTarget → Sys (Core σ) Term
  | .ext mg fg args => callExt svc inv m mg fg args
  | .loc callee args => inv m callee.toNat args

/-- The arguments of a stashed target. -/
def targetArgs : TailTarget → List Term
  | .ext _ _ args | .loc _ args => args

/-- The interpreter's end and the reference's end from the same frame: a return on
both sides, an error on both sides, or a stashed target whose run by the reference
gives its end. -/
private inductive Paired (svc : Services σ) (J : Objects → Kernel σ → Prop) (inv : Invoker σ)
    (m : LoadedModule) (w : Objects) : EStateM.Result Stop (Core σ) Term →
      EStateM.Result Stop (Core σ) Completion → Prop
  | ret {v : Term} {c : Core σ} : v ≠ tailSentinel → Paired svc J inv m w (.ok v c) (.ok (.ret v) c)
  | tail {tgt : TailTarget} {c : Core σ} {w' : Objects} : w ≤ w' → OnCore J w' c →
      (∀ t ∈ targetArgs tgt, t.Valid w'.space) →
      Paired svc J inv m w (.ok tailSentinel { c with tailTarget := some tgt })
        ((do return Completion.tail (← resumeAt svc inv m tgt) : Sys (Core σ) Completion) c)
  | fail {e e' : Stop} {t : Trap} {c : Core σ} : e.trap? = some t → e'.trap? = some t →
      Paired svc J inv m w (.error e c) (.error e' c)
  | stop {e e' : Stop} {c c' : Core σ} : e.trap? = none → e'.trap? = none →
      Paired svc J inv m w (.error e c) (.error e' c')

private theorem Paired.same {inv : Invoker σ} {m : LoadedModule} (e : Stop) (c : Core σ) :
    Paired svc J inv m w (.error e c) (.error e c) := by
  cases he : e.trap? with
  | none => exact .stop he he
  | some t => exact .fail he he

private theorem Paired.weaken {inv : Invoker σ} {m : LoadedModule} {w' : Objects}
    {r : EStateM.Result Stop (Core σ) Term} {r' : EStateM.Result Stop (Core σ) Completion}
    (hle : w ≤ w') (h : Paired svc J inv m w' r r') : Paired svc J inv m w r r' := by
  cases h with
  | ret hv => exact .ret hv
  | tail hle' hc hargs => exact .tail (hle.trans hle') hc hargs
  | fail h₁ h₂ => exact .fail h₁ h₂
  | stop h₁ h₂ => exact .stop h₁ h₂

variable {inv inv' : Invoker σ}

/-- The invocations of external calls match. -/
private def Matches (svc : Services σ) (J : Objects → Kernel σ → Prop) (inv inv' : Invoker σ) :
    Prop :=
  ∀ m idx args w c, OnCore J w c → (∀ t ∈ args, t.Valid w.space) →
    Match Stop.trap? (Agree svc) (inv m idx args c) (inv' m idx args c)

private theorem attempt_returned {α : Type} {x : Sys (Core σ) α} {c : Core σ} :
    Match Stop.trap? Eq (Sys.attempt (returned x) c) (x c) := by
  unfold Sys.attempt returned
  cases hx : x c with
  | ok a c' => exact .ok rfl
  | error e c' =>
    cases he : e.trap? with
    | some t =>
      simp only [he]
      exact .fail rfl he rfl
    | none =>
      simp only [he]
      by_cases hpanic : e = .panic
      · rw [if_pos hpanic]
        exact .stop rfl he
      · rw [if_neg hpanic]
        exact .stop rfl he

private theorem match_callExt (hsvc : svc.Contract J) (hinv : Matches svc J inv inv')
    (m : LoadedModule) (mg fg : UInt32) {args : List Term} {c : Core σ} (hc : OnCore J w c)
    (hargs : ∀ t ∈ args, t.Valid w.space) :
    Match Stop.trap? Eq (Sys.attempt (returned (callExt svc inv m mg fg args)) c)
      (callExt svc inv' m mg fg args c) := by
  have hinner : Match Stop.trap? Eq (callExt svc inv m mg fg args c)
      (callExt svc inv' m mg fg args c) := by
    cases hres : resolve c.kernel mg fg args.length with
    | none =>
      rw [callExt_none hres, callExt_none hres]
      exact .fail rfl rfl rfl
    | some found =>
      obtain ⟨target, idx⟩ := found
      have hm := hinv target idx args w _ (hc.noteRunning hsvc target) hargs
      generalize hrun : inv target idx args (c.noteRunning svc target) = r at hm
      generalize hrun' : inv' target idx args (c.noteRunning svc target) = r' at hm
      cases hm with
      | ok hagree =>
        rw [callExt_ok hres hrun, callExt_ok hres hrun', hagree m]
        exact .ok rfl
      | fail he he' hagree =>
        rw [callExt_error hres hrun, callExt_error hres hrun', he, he']
        exact .fail he he' (hagree m)
      | stop he he' =>
        rw [callExt_error hres hrun, callExt_error hres hrun', he, he']
        exact .stop he he'
  have houter := attempt_returned (x := callExt svc inv m mg fg args) (c := c)
  generalize Sys.attempt (returned (callExt svc inv m mg fg args)) c = r₁ at houter ⊢
  generalize callExt svc inv m mg fg args c = r₂ at houter hinner
  generalize callExt svc inv' m mg fg args c = r₃ at hinner ⊢
  cases houter with
  | ok heq =>
    subst heq
    exact hinner
  | fail he he' heq =>
    subst heq
    cases hinner with
    | fail h₁ h₂ heq' =>
      cases he'.symm.trans h₁
      exact .fail he h₂ heq'
    | stop h₁ _ =>
      rw [he'] at h₁
      cases h₁
  | stop he he' =>
    cases hinner with
    | fail h₁ _ _ =>
      rw [he'] at h₁
      cases h₁
    | stop _ h₂ => exact .stop he h₂

/-- Run a frame on the interpreter and by the reference. -/
private theorem loop_paired (hsvc : svc.Contract J) (hinv : Matches svc J inv inv')
    (hsound : Sound J inv') (n : ℕ) (m : LoadedModule) {fr : Frame} {c : Core σ}
    (hc : OnCore J w c) (hfr : fr.Valid w) :
    Paired svc J inv' m w
      (Interp.runLoop m.module (kernelApi svc limit inv m) limit n fr c)
      (runAt svc limit inv' n m fr c) := by
  induction n generalizing w fr c with
  | zero => exact .stop rfl rfl
  | succ n ih =>
    have hapi : (KernelApi.base svc limit m).Contract (OnCore J) := KernelApi.base_contract hsvc m
    have hbody : Exec.body (kernelApi svc limit inv m) limit =
        Exec.body (KernelApi.base svc limit m) limit := Exec.body_withCalls _ _ _ _ _
    have hends := @Exec.sound_body _ _ _ _ hapi limit fr hfr c hc
    -- a value is stored and both sides run on
    have hresume : ∀ (w' : Objects) (rd : UInt8) (v : Term) (fr' : Frame) (c' : Core σ),
        OnCore J w' c' → v.Valid w'.space → fr'.Valid w' →
        Paired svc J inv' m w'
          ((do
            let after ← Exec.set rd v fr'
            Interp.runLoop m.module (kernelApi svc limit inv m) limit n after.2 :
              Sys (Core σ) Term) c')
          (resumeWith (runAt svc limit inv' n m) rd v fr' c') := by
      intro w' rd v fr' c' hc' hv hfr'
      have hset := Exec.sound_set rd hv fr' hfr' c' hc'
      unfold resumeWith
      simp only [bind, EStateM.bind]
      cases hrun : Exec.set rd v fr' c' with
      | ok p c'' =>
        obtain ⟨w'', hle, hc'', hfr'', -⟩ := hset.ok hrun
        exact (ih hc'' hfr'').weaken hle
      | error e c'' => exact .same e c''
    unfold Interp.runLoop runAt step
    simp only [bind, EStateM.bind, hbody]
    cases hrun : Exec.body (KernelApi.base svc limit m) limit fr c with
    | error e c₁ => exact .same e c₁
    | ok after c₁ =>
      obtain ⟨flow, fr'⟩ := after
      obtain ⟨w₁, hle, hc₁, hfr', hflow⟩ := hends.ok hrun
      refine Paired.weaken hle ?_
      dsimp only
      cases flow with
      | next => exact ih hc₁ hfr'
      | ret v =>
        refine .ret fun hv => ?_
        have hword := (show v.Valid w₁.space from hflow).ne_tailSentinel_word
        exact hword (by rw [hv]; rfl)
      | call rd callee args =>
        have hstart := Interp.sound_start m.module callee.toNat hflow c₁ hc₁
        have hargs : ∀ t ∈ args, t.Valid w₁.space := hflow
        simp only [next, bind, EStateM.bind]
        cases henter : Interp.start (σ := Core σ) m.module callee.toNat args c₁ with
        | error e c₂ => exact .same e c₂
        | ok frc c₂ =>
          obtain ⟨w₂, hle₂, hc₂, hfrc⟩ := hstart.ok henter
          have hinner := ih hc₂ hfrc
          have hvalue := @sound_runAt _ svc J limit _ hsvc _ hsound n m _ hfrc c₂ hc₂
          dsimp only
          generalize hleft : Interp.runLoop m.module (kernelApi svc limit inv m) limit n frc c₂ = r
            at hinner ⊢
          generalize hright : runAt svc limit inv' n m frc c₂ = r' at hinner ⊢
          cases hinner with
          | @ret v c₃ hne =>
            obtain ⟨w₃, hle₃, hc₃, hv⟩ := hvalue.ok hright
            dsimp only
            rw [if_neg hne]
            refine (hresume w₃ rd v fr' c₃ hc₃ hv ?_).weaken (hle₂.trans hle₃)
            exact fun t ht => (hfr' t ht).later (hle₂.trans hle₃)
          | @tail tgt c₃ w₃ hle₃ hc₃ htgt =>
            dsimp only
            rw [if_pos rfl]
            have htail : Paired svc J inv' m w₂ _ _ := .tail hle₃ hc₃ htgt
            refine Paired.weaken hle₂ ?_
            simp only [bind, EStateM.bind, pure, EStateM.pure] at htail ⊢
            cases hres : resumeAt svc inv' m tgt c₃ with
            | ok v c₄ =>
              rw [hres] at htail
              exact htail
            | error e c₄ =>
              rw [hres] at htail
              exact htail
          | fail h₁ h₂ => exact .fail h₁ h₂
          | stop h₁ h₂ => exact .stop h₁ h₂
      | callExt rd mg fg args =>
        have hmatch := match_callExt hsvc hinv m mg fg hc₁ hflow
        have hvalue := sound_callExt hsvc hsound m mg fg hflow c₁ hc₁
        simp only [next, bind, EStateM.bind]
        have hcall : (kernelApi svc limit inv m).callExt mg fg args =
            returned (callExt svc inv m mg fg args) := rfl
        rw [hcall]
        generalize Sys.attempt (returned (callExt svc inv m mg fg args)) c₁ = r at hmatch ⊢
        generalize hright : callExt svc inv' m mg fg args c₁ = r' at hmatch ⊢
        cases hmatch with
        | @ok v c₂ c₃ heq =>
          subst heq
          obtain ⟨w₂, hle₂, hc₂, hv⟩ := hvalue.ok hright
          refine (hresume w₂ rd v fr' c₂ hc₂ hv ?_).weaken hle₂
          exact fun t ht => (hfr' t ht).later hle₂
        | fail h₁ h₂ heq =>
          subst heq
          exact .fail h₁ h₂
        | stop h₁ h₂ => exact .stop h₁ h₂
      | tailCall callee args =>
        exact @Paired.tail _ _ _ _ _ _ (.loc callee args) _ _ (le_refl w₁) hc₁ hflow
      | tailCallExt mg fg args =>
        exact @Paired.tail _ _ _ _ _ _ (.ext mg fg args) _ _ (le_refl w₁) hc₁ hflow
      | recv rd =>
        have hvalue := Sys.sound_effect (hapi.recv w₁) c₁ hc₁
        simp only [next, bind, EStateM.bind]
        have hbase : (kernelApi svc limit inv m).recv = (KernelApi.base svc limit m).recv := rfl
        rw [hbase]
        cases hrecv : Sys.effect (KernelApi.base svc limit m).recv c₁ with
        | error e c₂ => exact .same e c₂
        | ok v c₂ =>
          obtain ⟨w₂, hle₂, hc₂, hv⟩ := hvalue.ok hrecv
          refine (hresume w₂ rd v fr' c₂ hc₂ hv ?_).weaken hle₂
          exact fun t ht => (hfr' t ht).later hle₂
      | sleep ms =>
        have hvalue := Sys.sound_effect (hapi.sleepMs w₁ ms) c₁ hc₁
        simp only [next, bind, EStateM.bind]
        have hbase : (kernelApi svc limit inv m).sleepMs = (KernelApi.base svc limit m).sleepMs :=
          rfl
        rw [hbase]
        cases hsleep : Sys.effect ((KernelApi.base svc limit m).sleepMs ms) c₁ with
        | error e c₂ => exact .same e c₂
        | ok v c₂ =>
          obtain ⟨w₂, hle₂, hc₂, -⟩ := hvalue.ok hsleep
          exact (ih hc₂ fun t ht => (hfr' t ht).later hle₂).weaken hle₂

private theorem invoke_matches (hsvc : svc.Contract J) (n : ℕ) :
    Matches svc J (Modload.invoke svc limit n) (invokeAt svc limit n) := by
  induction n with
  | zero => exact fun _ _ _ _ _ _ _ => .stop rfl rfl
  | succ n ih =>
    intro m idx args w c hc hargs
    have hstart := Interp.sound_start m.module idx hargs c hc
    unfold Modload.invoke invokeAt Interp.runFunction
    simp only [bind, EStateM.bind]
    cases henter : Interp.start (σ := Core σ) m.module idx args c with
    | error e c₁ => exact .refl Agree.refl _
    | ok fr c₁ =>
      obtain ⟨w₁, hle, hc₁, hfr⟩ := hstart.ok henter
      have hpair := @loop_paired _ svc J limit _ _ _ hsvc ih (sound_invokeAt hsvc n) n m _ _ hc₁ hfr
      dsimp only
      generalize Interp.runLoop m.module (kernelApi svc limit (Modload.invoke svc limit n) m)
        limit n fr c₁ = r at hpair ⊢
      generalize runAt svc limit (invokeAt svc limit n) n m fr c₁ = r' at hpair ⊢
      cases hpair with
      | ret hne =>
        dsimp only
        rw [if_pos hne]
        exact .ok (.refl _)
      | fail h₁ h₂ => exact .fail h₁ h₂ (.refl _)
      | stop h₁ h₂ => exact .stop h₁ h₂
      | @tail tgt c₂ w₂ hle₂ hc₂ htgt =>
        have hclear : ({ c₂ with tailTarget := none } : Core σ) = c₂ := by rw [← hc₂.2]
        dsimp only
        rw [if_neg (by simp)]
        simp only [bind, EStateM.bind, nextTailTarget, hclear]
        cases tgt with
        | loc callee targs =>
          have hm := ih m callee.toNat targs w₂ c₂ hc₂ htgt
          dsimp only [resumeAt]
          generalize Modload.invoke svc limit n m callee.toNat targs c₂ = r at hm ⊢
          generalize invokeAt svc limit n m callee.toNat targs c₂ = r' at hm ⊢
          cases hm with
          | ok h => exact .ok h
          | fail h₁ h₂ h => exact .fail h₁ h₂ h
          | stop h₁ h₂ => exact .stop h₁ h₂
        | ext mg fg targs =>
          dsimp only [resumeAt]
          cases hres : resolve c₂.kernel mg fg targs.length with
          | none =>
            rw [callExt_none hres]
            exact .fail rfl rfl ((Agree.refl c₂).noteRunning m)
          | some found =>
            obtain ⟨target, tidx⟩ := found
            have hm := ih target tidx targs w₂ _ (hc₂.noteRunning hsvc target) htgt
            dsimp only
            generalize Modload.invoke svc limit n target tidx targs (c₂.noteRunning svc target) = r
              at hm ⊢
            generalize hrun :
              invokeAt svc limit n target tidx targs (c₂.noteRunning svc target) = r'
              at hm
            cases hm with
            | ok h =>
              rw [callExt_ok hres hrun]
              exact .ok (h.noteRunning m)
            | fail h₁ h₂ h =>
              rw [callExt_error hres hrun, h₂]
              exact .fail h₁ h₂ (h.noteRunning m)
            | stop h₁ h₂ =>
              rw [callExt_error hres hrun]
              exact .stop h₁ h₂

end Lockstep

/-- A tail call is a call whose value ends the invocation: `invoke` has the results of
the unwinding reference. Where no call of the same module is left by a tail call of its
callee, these are the results of the plain reference, in which a tail call is a call
followed by a return. -/
theorem invoke_tail_calls (hsvc : svc.Contract J) {c : Core σ} (hc : J w c.kernel)
    (hstash : c.tailTarget = none) (m : LoadedModule) (idx : ℕ) {args : List Term}
    (hargs : ∀ t ∈ args, t.Valid w.space) :
    (∀ r c', (∃ n, Yields Stop.trap? (Modload.invoke svc limit n m idx args) c r c') →
      ∃ n c'', Agree svc c' c'' ∧
        Yields Stop.trap? (invoke svc limit .unwind n m idx args) c r c'') ∧
    (∀ r c', (∃ n, Yields Stop.trap? (invoke svc limit .unwind n m idx args) c r c') →
      ∃ n c'', Agree svc c' c'' ∧
        Yields Stop.trap? (Modload.invoke svc limit n m idx args) c r c'') ∧
    ∀ n r c', Yields Stop.trap? (invoke svc limit .strict n m idx args) c r c' →
      Yields Stop.trap? (invoke svc limit .resume n m idx args) c r c' ∧
        ∃ k c'', Agree svc c' c'' ∧
          Yields Stop.trap? (Modload.invoke svc limit k m idx args) c r c'' := by
  have hmatch := fun n => @invoke_matches _ svc J limit hsvc n m idx args w c ⟨hc, hstash⟩ hargs
  have hback : ∀ r c', (∃ n, Yields Stop.trap? (invoke svc limit .unwind n m idx args) c r c') →
      ∃ n c'', Agree svc c' c'' ∧
        Yields Stop.trap? (Modload.invoke svc limit n m idx args) c r c'' := by
    intro r c' h
    obtain ⟨n, hy⟩ := yields_invokeAt_iff.mpr h
    exact ⟨n, ((hmatch n).symm fun _ _ => Agree.symm).yields hy⟩
  refine ⟨?_, hback, ?_⟩
  · rintro r c' ⟨n, hy⟩
    obtain ⟨c'', hagree, hy'⟩ := (hmatch n).yields hy
    obtain ⟨k, hk⟩ := yields_invokeAt_iff.mp ⟨n, hy'⟩
    exact ⟨k, c'', hagree, hk⟩
  · intro n r c' hy
    refine ⟨invoke_approx (.inr rfl) (Nat.le_refl n) m idx args _ _ _ hy, hback r c' ⟨n, ?_⟩⟩
    exact invoke_approx (.inr rfl) (Nat.le_refl n) m idx args _ _ _ hy

/-- A module whose first function calls a sibling and then returns 2; the sibling
tail-calls a function that returns 1. -/
def siblingTail : LoadedModule where
  name := "m"
  version := 1
  module := ⟨["f", "g", "h"],
    [⟨0, 0, 1, [18, 0, 1, 0, 0, 0, 0, 1, 0, 2, 0, 0, 0, 0, 0, 0, 0, 19, 0]⟩,
     ⟨1, 0, 1, [49, 2, 0, 0, 0, 0]⟩,
     ⟨2, 0, 1, [1, 0, 1, 0, 0, 0, 0, 0, 0, 0, 19, 0]⟩]⟩
  atomMap := [0, 1, 2]
  jit := false
  sealed := false
  tailers := [true, true, false]

/-- A core with nothing loaded or stashed. -/
def idleCore : Core Store :=
  ⟨⟨⟨fun _ => 0, Heap.new 0 0⟩, fun _ => none, fun _ => none, []⟩, none⟩

set_option maxRecDepth 4000 in
/-- The caller of a function that tail-calls does not go on after its call: the
engine returns 1, a call followed by a return gives 2. -/
theorem siblingTail_drops_caller :
    verify siblingTail.module = .ok () ∧
      (∃ c, Modload.invoke Services.isolated 0 8 siblingTail 0 [] idleCore = .ok (Term.int 1) c) ∧
        ∃ c, invoke Services.isolated 0 .resume 8 siblingTail 0 [] idleCore = .ok (Term.int 2) c :=
  ⟨by decide, ⟨_, rfl⟩, ⟨_, rfl⟩⟩

set_option maxRecDepth 4000 in
/-- A tail call of the function invoked first is a call followed by a return. -/
theorem siblingTail_tail_call :
    ∃ k c', Yields Stop.trap? (Modload.invoke Services.isolated 0 k siblingTail 1 [])
      idleCore (.ok (Term.int 1)) c' := by
  have hstrict : ∃ c', Yields Stop.trap? (invoke Services.isolated 0 .strict 8 siblingTail 1 [])
      idleCore (.ok (Term.int 1)) c' := ⟨_, rfl⟩
  obtain ⟨c', hy⟩ := hstrict
  obtain ⟨-, k, c'', -, hk⟩ := (invoke_tail_calls Services.isolated_contract
    Objects.empty_holds rfl siblingTail 1 (by simp)).2.2 8 _ c' hy
  exact ⟨k, c'', hk⟩

end Reference

end Yggdrasil
