import Yggdrasil.Interp.ValidExec
import Yggdrasil.Modload.Invoke

/-!
# The kernel's interface keeps the contract

If the services under it hand out valid terms and leave the objects of the running
process alone, then so does the interface the kernel builds on them: its checks of
the arguments never reach an `unreachable!`, and what it allocates is valid.
-/

namespace Yggdrasil

open EStateM (Keeps)

variable {σ α β : Type} {svc : Services σ} {J : Objects → Kernel σ → Prop} {w : Objects}

/-- What the interface relies on: an invariant `J` of the kernel, given the objects
of the running process, that the services keep. -/
structure Services.Contract (svc : Services σ) (J : Objects → Kernel σ → Prop) : Prop where
  /-- The objects stand in memory. -/
  reads : ∀ w k, J w k → w.In (svc.store k).mem
  /-- The objects stand clear of the arena. -/
  holds : ∀ w k, J w k → (svc.store k).Holds w.space
  /-- Allocation by the running process. -/
  grows : ∀ w k st space', J w k → (svc.store k).Grows st w.space space' →
    J (Objects.ofSpace st.mem space') (svc.setStore st k)
  /-- The registry of running versions does not matter. -/
  running : ∀ w k r, J w k → J w { k with running := r }
  /-- The atom table does not matter. -/
  atoms : ∀ w k a, J w k → J w { k with atoms := a }
  send : ∀ w pid msg, msg.Valid w.space →
    Effect.Honours J w (fun _ _ => True) (svc.send pid msg)
  recv : ∀ w, Effect.Honours J w (fun w' t => t.Valid w'.space) svc.recv
  spawnFn : ∀ w m fn arg, arg.isBoxed = false → arg.Valid w.space →
    Effect.Honours J w (fun _ _ => True) (svc.spawnFn m fn arg)
  safepoint : ∀ w, Effect.Honours J w (fun _ _ => True) svc.safepoint
  printTerm : ∀ w t, t.Valid w.space → Effect.Honours J w (fun _ _ => True) (svc.printTerm t)
  portOpen : ∀ w kind,
    Effect.Honours J w (fun w' o => ∀ t ∈ o, t.Valid w'.space) (svc.portOpen kind)
  portSubmit : ∀ w id sqe, Effect.Honours J w (fun _ _ => True) (svc.portSubmit id sqe)
  bufWrite : ∀ w id off data, Effect.Honours J w (fun _ _ => True) (svc.bufWrite id off data)
  bufCreate : ∀ w data, Effect.Honours J w (fun _ _ => True) (svc.bufCreate data)
  bufRead : ∀ w id off len, Effect.Honours J w (fun _ _ => True) (svc.bufRead id off len)
  bufTake : ∀ w id, Effect.Honours J w (fun _ _ => True) (svc.bufTake id)
  growHeap : ∀ w, Effect.Honours J w (fun _ _ => True) svc.growHeap
  recvNever : ∀ w ms, Effect.Honours J w (fun _ _ => True) (svc.recvNever ms)

/-- The isolated services keep the contract. -/
theorem Services.isolated_contract :
    Services.isolated.Contract fun w k => w.In k.host.mem ∧ k.host.Holds w.space where
  reads _ _ h := h.1
  holds _ _ h := h.2
  grows w k st space' _ hgrow := by
    refine ⟨⟨?_, fun a h hmem => hmem.2⟩, ?_⟩
    · rw [Objects.space_ofSpace]
      exact hgrow.holds.objects
    · rw [Objects.space_ofSpace]
      exact hgrow.holds
  running _ _ _ h := h
  atoms _ _ _ h := h
  send _ _ _ _ := .pure trivial
  recv _ := .throw trivial
  spawnFn _ _ _ _ _ _ := .throw trivial
  safepoint _ := .pure trivial
  printTerm _ _ _ := .pure trivial
  portOpen _ _ := .pure (by simp)
  portSubmit _ _ _ := .pure trivial
  bufWrite _ _ _ _ := .pure trivial
  bufCreate _ _ := .throw trivial
  bufRead _ _ _ _ := .pure (by simp)
  bufTake _ _ := .pure (by simp)
  growHeap _ := .pure trivial
  recvNever _ _ := .pure trivial

/-- The invariant on a core with no pending tail call. -/
def OnCore (J : Objects → Kernel σ → Prop) (w : Objects) (c : Core σ) : Prop :=
  J w c.kernel ∧ c.tailTarget = none

/-- A service as a callback. -/
theorem Core.honours_onKernel {Q : Objects → α → Prop} {x : Effect (Kernel σ) α}
    (h : Effect.Honours J w Q x) : Effect.Honours (OnCore J) w Q (Core.onKernel x) := by
  intro c hc
  have hx := h c.kernel hc.1
  unfold EStateM.Ends Core.onKernel
  cases hrun : x c.kernel with
  | ok a k =>
    obtain ⟨w', hle, hk, ha⟩ := hx.ok hrun
    exact ⟨w', hle, ⟨hk, hc.2⟩, ha⟩
  | error e k =>
    obtain ⟨-, w', hle, hk⟩ := hx.error hrun
    exact ⟨trivial, w', hle, hk, hc.2⟩

private theorem Core.honours_attempt {Q : Objects → α → Prop} {x : Effect (Kernel σ) α}
    (h : Effect.Honours J w Q x) : Attempt.Honours (OnCore J) w Q (Core.attempt x) := by
  intro c hc
  have hx := h c.kernel hc.1
  unfold EStateM.Ends Core.attempt
  rcases hrun : x c.kernel with ⟨a, k⟩ | ⟨⟨⟩, k⟩
  · obtain ⟨w', hle, hk, ha⟩ := hx.ok hrun
    exact ⟨w', hle, ⟨hk, hc.2⟩, ha⟩
  · obtain ⟨-, w', hle, hk⟩ := hx.error hrun
    exact ⟨by simp, w', hle, hk, hc.2⟩

private theorem Core.honours_okOr (t : Trap) (o : Option α) :
    Attempt.Honours (OnCore J) w (fun _ a => o = some a) (Core.okOr t o) := by
  cases o with
  | none => exact .throw (by simp)
  | some a => exact .pure rfl

private theorem Core.honours_trap (t : Trap) {Q : Objects → α → Prop} :
    Attempt.Honours (OnCore J) w Q (throw (.trap t)) :=
  .throw (by simp)

private theorem Core.honours_unless {b : Prop} [Decidable b] (t : Trap)
    {x : Attempt (Core σ) α} {Q : Objects → α → Prop}
    (hx : Attempt.Honours (OnCore J) w Q x) :
    Attempt.Honours (OnCore J) w Q (if b then throw (.trap t) >>= fun _ : Unit => x else x) := by
  split
  · exact (Core.honours_trap t : Attempt.Honours (OnCore J) w (fun _ _ => False) _).bind
      fun _ _ _ hfalse => hfalse.elim
  · exact hx

/-- Recording the running version keeps the invariant. -/
theorem OnCore.noteRunning (hsvc : svc.Contract J) {c : Core σ} (h : OnCore J w c)
    (m : LoadedModule) : OnCore J w (c.noteRunning svc m) :=
  ⟨hsvc.running w c.kernel _ h.1, h.2⟩

namespace KernelApi

variable (hsvc : svc.Contract J) {limit : ℕ}

include hsvc

private theorem after_built {c : Core σ} (hc : OnCore J w c) {o : Option Term} {st : Store}
    (h : Built (svc.store c.kernel) w.space o st) :
    ∃ w', w ≤ w' ∧ OnCore J w' { c with kernel := svc.setStore st c.kernel } ∧
      ∀ t ∈ o, t.Valid w'.space := by
  obtain ⟨space', hgrow, hvalid⟩ := h
  refine ⟨.ofSpace st.mem space', ?_, ⟨hsvc.grows w _ st space' hc.1 hgrow, hc.2⟩, ?_⟩
  · exact Objects.le_ofSpace (hsvc.holds w _ hc.1) (hsvc.reads w _ hc.1) hgrow
  · rw [Objects.space_ofSpace]
    exact hvalid

private theorem honours_allocRetry (data : List UInt8) (n : ℕ) :
    Attempt.Honours (OnCore J) w (fun w' t => t.Valid w'.space)
      (allocRetry svc (Heap.binary data) n) := by
  induction n generalizing w with
  | zero => exact .throw (by simp)
  | succ n ih =>
    intro c hc
    have hbuilt := builds_binary data (svc.store c.kernel) (hsvc.holds w _ hc.1)
    unfold EStateM.Ends allocRetry
    cases hrun : Heap.binary data (svc.store c.kernel) with
    | ok t st =>
      obtain ⟨w', hle, hc', ht⟩ := after_built hsvc hc (hbuilt.ok hrun)
      exact ⟨w', hle, hc', ht t rfl⟩
    | error e st =>
      obtain ⟨w', hle, hc', -⟩ := after_built hsvc hc (hbuilt.error hrun)
      have hrest : Attempt.Honours (OnCore J) w' (fun w'' t => t.Valid w''.space)
          (do if ← Core.attempt svc.growHeap then allocRetry svc (Heap.binary data) n
              else throw .gone : Attempt (Core σ) Term) := by
        refine (Core.honours_attempt (hsvc.growHeap w')).bind fun grown w'' _ _ => ?_
        cases grown with
        | true => exact ih
        | false => exact .throw (by simp)
      refine (hrest _ hc').mono ?_ ?_
      · rintro e' c'' ⟨he, w'', hle', hc''⟩
        exact ⟨he, w'', hle.trans hle', hc''⟩
      · rintro t c'' ⟨w'', hle', hc'', ht⟩
        exact ⟨w'', hle.trans hle', hc'', ht⟩

private theorem honours_binary {bin : Term} (hbin : bin.Valid w.space) (ok : Bool) :
    Attempt.Honours (OnCore J) w (fun _ _ => True) (binary svc bin ok) := by
  intro c hc
  have hkind := (hsvc.reads w _ hc.1).objects.kind_isSome hbin
  have hsame : OnCore J w c := hc
  unfold EStateM.Ends binary
  dsimp only
  split <;> rename_i hrun <;> split at hrun
  · split at hrun
    · cases hrun
    · split at hrun
      · cases hrun
        exact ⟨w, le_refl w, hc, trivial⟩
      · cases hrun
    · cases hrun
  · cases hrun
  · split at hrun
    · rename_i hnone
      rw [hnone] at hkind
      cases hkind
    · split at hrun
      · cases hrun
      · cases hrun
        exact ⟨by simp, w, le_refl w, hc⟩
    · cases hrun
      exact ⟨by simp, w, le_refl w, hc⟩
  · cases hrun
    exact ⟨by simp, w, le_refl w, hc⟩

private theorem honours_submit (id : Word) (sqe : Sqe) :
    Attempt.Honours (OnCore J) w (fun _ _ => True)
      (do if ← Core.attempt (svc.portSubmit id sqe) then return ()
          else throw (.trap .badarg) : Attempt (Core σ) Unit) := by
  refine (Core.honours_attempt (hsvc.portSubmit w id sqe)).bind fun ok _ _ _ => ?_
  cases ok with
  | true => exact .pure trivial
  | false => exact Core.honours_trap _

private theorem honours_portSubmit (port : Term) (op : UInt8) (arg0 tag : Term) :
    Attempt.Honours (OnCore J) w (fun _ _ => True) (portSubmit svc port op arg0 tag) :=
  (Core.honours_okOr _ _).bind fun _ _ _ _ => (Core.honours_okOr _ _).bind fun _ _ _ _ =>
    (Core.honours_okOr _ _).bind fun _ _ _ _ => honours_submit hsvc _ _

private theorem honours_portSubmit2 (port op arg0 arg1 tag : Term) :
    Attempt.Honours (OnCore J) w (fun _ _ => True) (portSubmit2 svc port op arg0 arg1 tag) :=
  (Core.honours_okOr _ _).bind fun _ _ _ _ => (Core.honours_okOr _ _).bind fun _ _ _ _ =>
    (Core.honours_okOr _ _).bind fun _ _ _ _ => (Core.honours_okOr _ _).bind fun _ _ _ _ =>
      (Core.honours_okOr _ _).bind fun _ _ _ _ => honours_submit hsvc _ _

private theorem honours_bufWrite (buf off : Term) {bin : Term} (hbin : bin.Valid w.space) :
    Attempt.Honours (OnCore J) w (fun w' t => t.Valid w'.space) (bufWrite svc buf off bin) := by
  refine (Core.honours_okOr _ _).bind fun id w₁ hle₁ _ => ?_
  refine (Core.honours_okOr _ _).bind fun o w₂ hle₂ _ => ?_
  refine (honours_binary hsvc (hbin.later (hle₁.trans hle₂)) _).bind fun data w₃ _ _ => ?_
  refine (Core.honours_attempt (hsvc.bufWrite w₃ _ _ _)).bind fun ok _ _ _ => ?_
  cases ok with
  | true => exact .pure (Term.valid_int _)
  | false => exact Core.honours_trap _

private theorem honours_bufNew (size : Term) :
    Attempt.Honours (OnCore J) w (fun w' t => t.Valid w'.space) (bufNew svc size) := by
  refine (Core.honours_okOr _ _).bind fun n w₁ _ _ => Core.honours_unless _ ?_
  exact (Core.honours_attempt (hsvc.bufCreate _ _)).bind fun _ _ _ _ => .pure (Term.valid_int _)

private theorem honours_bufRead (buf off len : Term) :
    Attempt.Honours (OnCore J) w (fun w' t => t.Valid w'.space)
      (bufRead svc limit buf off len) := by
  refine (Core.honours_okOr _ _).bind fun id w₁ _ _ => ?_
  refine (Core.honours_okOr _ _).bind fun o w₂ _ _ => ?_
  refine (Core.honours_okOr _ _).bind fun n w₃ _ _ => Core.honours_unless _ ?_
  refine (Core.honours_attempt (hsvc.bufRead _ _ _ _)).bind fun o _ _ _ => ?_
  exact (Core.honours_okOr _ _).bind fun data _ _ _ => honours_allocRetry hsvc data limit

private theorem honours_bufToBin (id : Word) :
    Attempt.Honours (OnCore J) w (fun w' t => t.Valid w'.space) (bufToBin svc limit id) :=
  (Core.honours_attempt (hsvc.bufTake _ _)).bind fun _ _ _ _ =>
    (Core.honours_okOr _ _).bind fun data _ _ _ => honours_allocRetry hsvc data limit

private theorem honours_binToBuf {bin : Term} (hbin : bin.Valid w.space) :
    Attempt.Honours (OnCore J) w (fun w' t => t.Valid w'.space) (binToBuf svc bin) :=
  (honours_binary hsvc hbin true).bind fun _ _ _ _ =>
    (Core.honours_attempt (hsvc.bufCreate _ _)).bind fun _ _ _ _ => .pure (Term.valid_int _)

private theorem honours_atomGlobal (m : LoadedModule) (a : UInt32) :
    Effect.Honours (OnCore J) w (fun _ _ => True) (atomGlobal m a) := by
  intro c hc
  unfold EStateM.Ends atomGlobal
  cases m.atomMap[a.toNat]? with
  | some g => exact ⟨w, le_refl w, hc, trivial⟩
  | none => exact ⟨w, le_refl w, ⟨hsvc.atoms w _ _ hc.1, hc.2⟩, trivial⟩

/-- The interface keeps the contract. -/
theorem base_contract (m : LoadedModule) : (base svc limit m).Contract (OnCore J) where
  reads w c hc := hsvc.reads w c.kernel hc.1
  holds w c hc := hsvc.holds w c.kernel hc.1
  grows w c st space' hc hgrow := ⟨hsvc.grows w c.kernel st space' hc.1 hgrow, hc.2⟩
  send w dst msg _ hmsg :=
    (Core.honours_okOr _ _).bind fun pid w' hle _ =>
      (Core.honours_attempt (hsvc.send w' pid msg (hmsg.later hle))).bind
        fun _ _ _ _ => .pure trivial
  recv w := Core.honours_onKernel (hsvc.recv w)
  spawn w fn arg himm harg :=
    Core.honours_unless _ (Core.honours_attempt (hsvc.spawnFn w m fn arg himm harg))
  safepoint w := Core.honours_onKernel (hsvc.safepoint w)
  atomGlobal w a := honours_atomGlobal hsvc m a
  print w t ht := Core.honours_onKernel (hsvc.printTerm w t ht)
  portOpen w kind :=
    (Core.honours_attempt (hsvc.portOpen w kind)).bind fun o w' _ ho =>
      (Core.honours_okOr _ _).mono fun w'' t hle ht => (ho t ht).later hle
  portSubmit w p o a t _ _ _ := honours_portSubmit hsvc p o a t
  callExt _ _ _ _ _ := .throw (by simp)
  bufToBin w id := honours_bufToBin hsvc id
  binToBuf w b hb := honours_binToBuf hsvc hb
  heapGrow w := Core.honours_onKernel (hsvc.growHeap w)
  tailCall _ _ _ _ _ := .throw trivial
  tailCallLocal _ _ _ _ := .throw trivial
  bufWrite w b o d _ _ hd := honours_bufWrite hsvc b o hd
  bufNew w n _ := honours_bufNew hsvc n
  bufRead w b o n _ _ _ := honours_bufRead hsvc b o n
  sleepMs w ms := Core.honours_onKernel (hsvc.recvNever w ms)
  ticks w c _ := Term.valid_int _
  portSubmit2 w p o a b t _ _ _ _ _ := honours_portSubmit2 hsvc p o a b t

end KernelApi

end Yggdrasil
