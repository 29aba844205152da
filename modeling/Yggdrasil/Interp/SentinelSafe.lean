import Yggdrasil.Interp.Moves
import Yggdrasil.Interp.ValidExec
import Yggdrasil.Bytecode.SentinelSpec

/-!
# Functions that never return the sentinel

A function whose bit the sentinel analysis leaves clear has no tail call, and neither has any
function its calls lead to. So a run of it on valid terms can only end by a return, with a valid
term; the reserved word is none. A word that is no term is passed through, though.
-/

namespace Yggdrasil

namespace Interp

variable {σ : Type} {m : Module} {api : SystemApi σ} {I : Objects → σ → Prop} {limit idx : ℕ}
  {f : Function} {st : ScanState} {fr : Frame} {w : Objects}

/-- The instruction about to be fetched occurs in the code. -/
theorem AtStart.contains (h : AtStart m idx f st fr) {i : Insn} {next : ℕ}
    (hi : decodeAt f.code fr.pc = some (i, next)) : f.Contains i := by
  obtain ⟨insns, hcode, hall, rfl⟩ :=
    (scanLoop_eq_ok_iff (Nat.zero_le _) (by omega)).mp h.scanned
  rw [List.drop_zero] at hcode
  have hinsns : ∀ i ∈ insns, i.Encodable := fun i hi => (hall i hi).1
  obtain hmem | ⟨k, hk, hpc⟩ := ScanState.mem_boundaries_collect.mp h.pc_mem
  · cases hmem
  · rw [Nat.zero_add] at hpc
    have hthere := Insn.decodeAt_startOf hinsns (List.getElem?_eq_getElem hk)
    rw [← hcode, ← hpc, hi] at hthere
    cases hthere
    exact ⟨insns, hcode, hinsns, List.getElem_mem hk⟩

private theorem AtStart.resume (h : AtStart m idx f st fr) (rd : UInt8) (v : Term) (s : σ) :
    EStateM.Ends (fun _ _ => True) (fun p _ => AtStart m idx f st p.2) (Exec.set rd v fr) s := by
  refine (Exec.stays_set rd v fr s).mono (fun _ _ => id) ?_
  rintro p _ ⟨-, hcode, hpc, hregs⟩
  exact ⟨h.function, h.scanned, hcode.trans h.code, hregs.trans h.regs, hpc ▸ h.pc_mem⟩

/-- A run of a function whose calls lead to no tail call ends with a valid term. -/
theorem sound_runLoop (hm : verify m = .ok ()) (hapi : api.Contract I)
    (hidx : ¬m.ReachesTailCall idx) (h : AtStart m idx f st fr) (hfr : fr.Valid w) (n : ℕ) :
    Sys.Sound I w (fun w' v => v.Valid w'.space) (runLoop m api limit n fr) := by
  induction n generalizing idx f st fr w with
  | zero => exact .throw (by simp [Sys.NoPanic])
  | succ n ih =>
    -- a value is stored and the run goes on
    have hresume : ∀ {w' : Objects} {fr' : Frame} (rd : UInt8) {v : Term},
        AtStart m idx f st fr' → fr'.Valid w' → v.Valid w'.space →
        Sys.Sound I w' (fun w' v => v.Valid w'.space)
          (do
            let p ← Exec.set rd v fr'
            runLoop m api limit n p.2) := by
      intro w' fr' rd v hstart hfr' hv
      refine ((Exec.sound_set rd hv fr' hfr').also (hstart.resume rd v)).bind ?_
      exact fun p w'' _ hp => ih hidx hp.2 hp.1.1
    refine ((Exec.sound_body hapi fr hfr).also (h.moves hm)).bind ?_
    rintro ⟨flow, fr'⟩ w₁ hle ⟨⟨hfr', hflow⟩, hok, i, next, hi, hleaves⟩
    have hin := h.contains hi
    have hnotail : i.isTailCall = false := by
      by_contra htail
      exact hidx ⟨idx, .refl, f, i, h.function, hin, by simpa using htail⟩
    cases flow with
    | next => exact ih hidx hok hfr'
    | ret v => exact .pure hflow
    | call rd callee args =>
      obtain ⟨hstart, -, g, hg, harity⟩ := hok
      obtain ⟨rs, rfl, -⟩ := hleaves.resolve_right (by simp)
      have hcallee : ¬m.ReachesTailCall callee.toNat := by
        rintro ⟨j, hpath, htail⟩
        exact hidx ⟨j, .head ⟨f, _, callee, h.function, hin, rfl, rfl⟩ hpath, htail⟩
      obtain ⟨frc, stc, henter, hatc⟩ := enter_atStart hm hg harity
      simp only [start, henter]
      refine (ih hcallee hatc (enter_valid hflow henter)).bind fun v w₂ hle₂ hv => ?_
      have hne : v ≠ tailSentinel := fun hv' => hv.ne_tailSentinel_word (by rw [hv']; rfl)
      rw [if_neg hne]
      exact hresume rd hstart (fun t ht => (hfr' t ht).later hle₂) hv
    | callExt rd mg fg args =>
      refine (Sys.sound_attempt (hapi.callExt w₁ mg fg args hflow)).bind fun v w₂ hle₂ hv => ?_
      exact hresume rd hok.1 (fun t ht => (hfr' t ht).later hle₂) hv
    | tailCall callee args =>
      obtain ⟨rs, rfl, -⟩ := hleaves.resolve_right (by simp)
      cases hnotail
    | tailCallExt mg fg args =>
      obtain ⟨mod, fname, rs, rfl, -⟩ := hleaves.resolve_right (by simp)
      cases hnotail
    | recv rd =>
      refine (Sys.sound_effect (hapi.recv w₁)).bind fun v w₂ hle₂ hv => ?_
      exact hresume rd hok.1 (fun t ht => (hfr' t ht).later hle₂) hv
    | sleep ms =>
      refine (Sys.sound_effect (hapi.sleepMs w₁ ms)).bind fun _ w₂ hle₂ _ => ?_
      exact ih hidx hok fun t ht => (hfr' t ht).later hle₂

/-- The sentinel analysis is exact and sound. On a verified module it comes to its end and sets
the bit of a function exactly when calls that occur in the code lead from it to a function with a
tail call. No run of a function whose bit is clear returns the sentinel, on any valid terms and
any system whose callbacks keep the contract of the engines. -/
theorem sentinel_analysis_exact {m : Module} (hm : verify m = .ok ()) :
    SentinelReturnersEnds m (sentinelReturners m) ∧
      (sentinelReturners m).length = m.functions.length ∧
      (∀ i, (sentinelReturners m)[i]? = some true ↔ m.ReachesTailCall i) ∧
      ∀ i, (sentinelReturners m)[i]? = some false →
        ∀ {σ : Type} (api : SystemApi σ) (I : Objects → σ → Prop), api.Contract I →
        ∀ w s, I w s → ∀ args : List Term, (∀ t ∈ args, t.Valid w.space) →
        ∀ limit fuel v s', runFunction m api limit fuel i args s = .ok v s' →
          v ≠ tailSentinel := by
  refine ⟨sentinelReturners_ends m, length_sentinelReturners m,
    fun i => sentinelReturners_iff hm, ?_⟩
  intro i hbit σ api I hapi w s hs args hargs limit fuel v s' hrun
  have hidx : ¬m.ReachesTailCall i := by
    rw [← sentinelReturners_iff hm, hbit]
    simp
  have hlt : i < m.functions.length := by
    rw [← length_sentinelReturners m]
    exact (List.getElem?_eq_some_iff.mp hbit).1
  have hf := List.getElem?_eq_getElem hlt
  have hsound : Sys.Sound I w (fun w' v => v.Valid w'.space)
      (runFunction m api limit fuel i args) := by
    by_cases harity : m.functions[i].arity.toNat = args.length
    · obtain ⟨fr, st, henter, hstart⟩ := enter_atStart hm hf harity
      simp only [runFunction, start, henter]
      exact sound_runLoop hm hapi hidx hstart (enter_valid hargs henter) fuel
    · have hfault : start (σ := σ) m i args = throw (.fault .arity) := by
        simp only [start, enter, hf]
        rw [if_pos (.inl fun hlen => harity hlen.symm)]
      simp only [runFunction, hfault]
      exact .throw (by simp [Sys.NoPanic])
  obtain ⟨w', -, -, hv⟩ := (hsound s hs).ok hrun
  intro heq
  exact hv.ne_tailSentinel_word (by rw [heq]; rfl)

/-- A function that calls another one, which returns its argument, and one that tail-calls it. -/
def callsAndTails : Module :=
  ⟨["f"], [⟨0, 1, 1, [18, 0, 1, 0, 0, 0, 1, 0, 19, 0]⟩, ⟨0, 1, 1, [19, 0]⟩,
    ⟨0, 1, 1, [49, 1, 0, 0, 0, 1, 0]⟩]⟩

set_option maxRecDepth 4000 in
/-- Only the bit of the tail-calling function is set, and a run of the first function, which
does return, does not return the sentinel. -/
theorem callsAndTails_bits : verify callsAndTails = .ok () ∧
    sentinelReturners callsAndTails = [false, false, true] ∧
    (∀ limit fuel v s', runFunction callsAndTails SystemApi.isolated limit fuel 0 [Term.nil]
      ⟨fun _ => 0, Heap.new 0 0⟩ = .ok v s' → v ≠ tailSentinel) ∧
    ∃ s', runFunction callsAndTails SystemApi.isolated 0 4 0 [Term.nil]
      ⟨fun _ => 0, Heap.new 0 0⟩ = .ok Term.nil s' := by
  have hm : verify callsAndTails = .ok () := by decide
  refine ⟨hm, by decide, fun limit fuel v s' hrun => ?_, ⟨_, rfl⟩⟩
  refine (sentinel_analysis_exact hm).2.2.2 0 (by decide) SystemApi.isolated _
    SystemApi.isolated_contract ∅ _ Objects.empty_holds [Term.nil] ?_ limit fuel v s' hrun
  intro t ht
  rw [List.mem_singleton.mp ht]
  exact Term.valid_nil

/-- No callback returns the sentinel. -/
structure NeverSentinel (api : SystemApi σ) : Prop where
  recv : ∀ s s', api.recv s ≠ .ok tailSentinel s'
  portOpen : ∀ kind s s', api.portOpen kind s ≠ .ok tailSentinel s'
  callExt : ∀ mg fg args s s', api.callExt mg fg args s ≠ .ok tailSentinel s'
  bufToBin : ∀ id s s', api.bufToBin id s ≠ .ok tailSentinel s'
  binToBuf : ∀ b s s', api.binToBuf b s ≠ .ok tailSentinel s'
  bufWrite : ∀ b o d s s', api.bufWrite b o d s ≠ .ok tailSentinel s'
  bufNew : ∀ n s s', api.bufNew n s ≠ .ok tailSentinel s'
  bufRead : ∀ b o n s s', api.bufRead b o n s ≠ .ok tailSentinel s'
  ticks : ∀ s, api.ticks s ≠ tailSentinel

/-- A function that returns its argument, as a module. -/
def returnsArg : Module := ⟨["f"], [⟨0, 1, 1, [19, 0]⟩]⟩

/-- A word that is no term is returned as it was passed: on a system none of whose callbacks
returns the sentinel, a function whose bit is clear returns it when it is given it. -/
theorem returnsArg_sentinel : verify returnsArg = .ok () ∧
    sentinelReturners returnsArg = [false] ∧ NeverSentinel SystemApi.isolated ∧
    ∃ s', runFunction returnsArg SystemApi.isolated 0 1 0 [tailSentinel]
      ⟨fun _ => 0, Heap.new 0 0⟩ = .ok tailSentinel s' := by
  refine ⟨by decide, by decide, ?_, ⟨_, rfl⟩⟩
  constructor
  case ticks =>
    intro s
    change Term.int 0 ≠ tailSentinel
    decide
  all_goals
    intros
    intro h
    cases h

end Interp

end Yggdrasil
