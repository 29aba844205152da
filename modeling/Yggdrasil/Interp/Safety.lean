import Yggdrasil.Interp.Run
import Yggdrasil.Interp.SafeExec
import Yggdrasil.Bytecode.Boundaries

/-!
# Verified code is safe to interpret

On a verified module the interpreter only ever fetches at instruction starts, and
none of its checks of the code can fail. The argument is a preservation proof: one
instruction moves the frame from an instruction start to a successor, and a run
repeats this.
-/

namespace Yggdrasil

namespace Interp

/-- The frame is about to fetch at an instruction start of function `f`, which has
index `idx` in the module and was scanned with result `st`. -/
structure AtStart (m : Module) (idx : ℕ) (f : Function) (st : ScanState) (fr : Frame) :
    Prop where
  /-- The function is in the module. -/
  function : m.functions[idx]? = some f
  /-- The verifier scanned it. -/
  scanned : scanFn m idx f = .ok st
  /-- The frame runs its code. -/
  code : fr.code = f.code
  /-- The frame has its registers. -/
  regs : fr.regs.length = f.nregs.toNat
  /-- The program counter is an instruction start. -/
  pc_mem : fr.pc ∈ st.boundaries

variable {σ : Type} {m : Module} {api : SystemApi σ} {limit idx : ℕ} {f : Function}
  {st : ScanState} {fr : Frame} {s : σ}

/-- What is left to do after an instruction keeps to the verified code. -/
def FlowOk (m : Module) (idx : ℕ) (f : Function) (st : ScanState) : Flow → Frame → Prop
  | .next, fr | .sleep _, fr => AtStart m idx f st fr
  | .ret _, _ | .tailCallExt _ _ _, _ => True
  | .call rd callee args, fr => AtStart m idx f st fr ∧ rd.toNat < f.nregs.toNat ∧
      ∃ g, m.functions[callee.toNat]? = some g ∧ g.arity.toNat = args.length
  | .callExt rd _ _ _, fr | .recv rd, fr => AtStart m idx f st fr ∧ rd.toNat < f.nregs.toNat
  | .tailCall callee args, _ =>
      ∃ g, m.functions[callee.toNat]? = some g ∧ g.arity.toNat = args.length

/-- The function a frame runs is verified. -/
theorem AtStart.verified (hm : verify m = .ok ()) (h : AtStart m idx f st fr) :
    f.Verified m st.boundaries := by
  obtain ⟨st', hst', hv⟩ := verifyFn_verified (verify_function hm h.function)
  cases h.scanned.symm.trans hst'
  exact hv

/-- What fits an instruction start keeps to the verified code. -/
theorem flowOk_of_fits {i : Insn} {next : ℕ} (h : AtStart m idx f st fr)
    (hstart : f.StartOk m st.boundaries fr.pc i next) {flow : Flow} {fr' : Frame}
    (hfits : Exec.Fits i flow) (hcode : fr'.code = fr.code) (hpc : fr'.pc = next)
    (hregs : fr'.regs.length = f.nregs.toNat) : FlowOk m idx f st flow fr' := by
  have hnext : i.fallsThrough = true → AtStart m idx f st fr' := fun hft =>
    ⟨h.function, h.scanned, hcode.trans h.code, hregs, hpc ▸ hstart.next_mem hft⟩
  have hreg : ∀ r ∈ i.regs, r.toNat < f.nregs.toNat := fun r hr =>
    UInt8.lt_iff_toNat_lt.mp (hstart.wellFormed.regs_lt r hr)
  cases flow with
  | next => exact hnext hfits
  | ret v => trivial
  | call rd callee args =>
    exact ⟨hnext hfits.2.2, hreg rd hfits.1, hstart.wellFormed.callees_ok _ hfits.2.1⟩
  | callExt rd mg fg args => exact ⟨hnext hfits.2, hreg rd hfits.1⟩
  | tailCall callee args => exact hstart.wellFormed.callees_ok _ hfits
  | tailCallExt mg fg args => trivial
  | recv rd => exact ⟨hnext hfits.2, hreg rd hfits.1⟩
  | sleep ms => exact hnext hfits

/-- A jump of verified code passes every check and leads to an instruction start. -/
theorem AtStart.exec_jump (hm : verify m = .ok ()) (h : AtStart m idx f st fr) {i : Insn}
    {next : ℕ} (hstart : f.StartOk m st.boundaries fr.pc i next) {off : ℤ}
    (hoff : i.offset = some off) (s : σ) :
    EStateM.Ends (fun e _ => e.Benign) (fun p _ => p.1 = .next ∧ AtStart m idx f st p.2)
      (Exec.exec api limit i { fr with pc := next }) s := by
  obtain ⟨t, ht, hteq⟩ := hstart.jump_mem off hoff
  obtain ⟨_, _, hthere⟩ := (h.verified hm).start_ok t ht
  have hle : t ≤ fr.code.length := by
    have := decodeAt_bounds hthere.decodes
    rw [h.code]
    omega
  have hregs : ({ fr with pc := next } : Frame).regs.length = f.nregs.toNat := h.regs
  refine (Exec.jump_exec hstart.wellFormed hoff hregs hteq hle s).mono (fun _ _ => id) ?_
  rintro ⟨flow, fr'⟩ _ ⟨hflow, hcode, hregs, hpc⟩
  refine ⟨hflow, h.function, h.scanned, hcode.trans h.code, hregs, ?_⟩
  rcases hpc with hpc | ⟨hft, hpc⟩
  · exact hpc ▸ ht
  · exact hpc ▸ hstart.next_mem hft

/-- One instruction of verified code passes every check and keeps to the code. -/
theorem AtStart.body (hm : verify m = .ok ()) (hapi : api.NeverBadCode)
    (h : AtStart m idx f st fr) (s : σ) :
    EStateM.Ends (fun e _ => e.Benign) (fun p _ => FlowOk m idx f st p.1 p.2)
      (Exec.body api limit fr) s := by
  obtain ⟨i, next, hstart⟩ := (h.verified hm).start_ok fr.pc h.pc_mem
  rw [Exec.body_eq_exec api limit (h.code ▸ hstart.decodes)]
  have hregs : ({ fr with pc := next } : Frame).regs.length = f.nregs.toNat := h.regs
  cases hoff : i.offset with
  | none =>
    refine (Exec.safe_exec hapi hstart.wellFormed hoff _ s hregs).mono (fun _ _ => id) ?_
    rintro ⟨flow, fr'⟩ _ ⟨hfits, hcode, hpc, hregs⟩
    exact flowOk_of_fits h hstart hfits hcode hpc hregs
  | some off =>
    refine (h.exec_jump hm hstart hoff s).mono (fun _ _ => id) ?_
    rintro ⟨flow, fr'⟩ _ ⟨hflow, hnext⟩
    cases hflow
    exact hnext

/-- A call with the right number of arguments starts at an instruction start. -/
theorem enter_atStart (hm : verify m = .ok ()) (hf : m.functions[idx]? = some f)
    {args : List Term} (hargs : f.arity.toNat = args.length) :
    ∃ fr st, enter m idx args = .ok fr ∧ AtStart m idx f st fr := by
  obtain ⟨st, hst, hv⟩ := verifyFn_verified (verify_function hm hf)
  have hle : args.length ≤ f.nregs.toNat := hargs ▸ UInt8.le_iff_toNat_le.mp hv.arity_le
  refine ⟨⟨f.code, 0, args ++ List.replicate (f.nregs.toNat - args.length) Term.nil⟩, st, ?_,
    hf, hst, rfl, ?_, hv.zero_mem⟩
  · simp only [enter, hf]
    rw [if_neg (by omega)]
  · simp
    omega

private theorem AtStart.set (h : AtStart m idx f st fr) {rd : UInt8}
    (hrd : rd.toNat < f.nregs.toNat) (v : Term) (s : σ) :
    EStateM.Ends (fun e _ => e.Benign) (fun p _ => AtStart m idx f st p.2)
      (Exec.set rd v fr) s := by
  simp only [Exec.set, if_pos (h.regs ▸ hrd : rd.toNat < fr.regs.length)]
  exact .pure ⟨h.function, h.scanned, h.code, by simpa using h.regs, h.pc_mem⟩

/-- A run from an instruction start never blames the code. -/
theorem AtStart.runLoop (hm : verify m = .ok ()) (hapi : api.NeverBadCode) (n : ℕ)
    (h : AtStart m idx f st fr) (s : σ) :
    EStateM.Ends (fun e _ => e.Benign) (fun _ _ => True) (runLoop m api limit n fr) s := by
  induction n generalizing idx f st fr s with
  | zero => exact .throw trivial
  | succ n ih =>
    refine (h.body hm hapi s).bind ?_
    rintro ⟨flow, fr'⟩ s' hflow
    cases flow with
    | next => exact ih hflow s'
    | ret v => exact .pure trivial
    | call rd callee args =>
      obtain ⟨hstart, hrd, g, hg, harity⟩ := hflow
      obtain ⟨frc, stc, henter, hcallee⟩ := enter_atStart hm hg harity
      simp only [start, henter]
      refine (ih hcallee s').bind fun v s'' _ => ?_
      split
      · exact .pure trivial
      · exact (hstart.set hrd v s'').bind fun p s₃ hp => ih hp s₃
    | callExt rd mg fg args =>
      refine (Sys.safe_attempt (hapi.callExt mg fg args) s').bind fun v s'' _ => ?_
      exact (hflow.1.set hflow.2 v s'').bind fun p s₃ hp => ih hp s₃
    | tailCall callee args => exact (Sys.safe_effect _ s').bind fun _ _ _ => .pure trivial
    | tailCallExt mg fg args => exact (Sys.safe_effect _ s').bind fun _ _ _ => .pure trivial
    | recv rd =>
      refine (Sys.safe_effect _ s').bind fun v s'' _ => ?_
      exact (hflow.1.set hflow.2 v s'').bind fun p s₃ hp => ih hp s₃
    | sleep ms => exact (Sys.safe_effect _ s').bind fun _ s'' _ => ih hflow s''

/-- Every frame a run comes through is at an instruction start. -/
theorem Visits.atStart (hm : verify m = .ok ()) (hapi : api.NeverBadCode) {fnIdx : ℕ}
    {args : List Term} (hf : m.functions[fnIdx]? = some f) (hargs : args.length = f.arity.toNat)
    {s' : σ} (h : Visits m api limit fnIdx args s idx fr s') :
    ∃ g st, AtStart m idx g st fr := by
  induction h with
  | start henter =>
    obtain ⟨fr₀, st, henter', hstart⟩ := enter_atStart hm hf hargs.symm
    cases henter.symm.trans henter'
    exact ⟨f, st, hstart⟩
  | next _ hbody ih =>
    obtain ⟨g, st, hg⟩ := ih
    exact ⟨g, st, (hg.body hm hapi _).ok hbody⟩
  | enter _ hbody henter ih =>
    obtain ⟨g, st, hg⟩ := ih
    obtain ⟨-, -, callee, hcallee, harity⟩ := (hg.body hm hapi _).ok hbody
    obtain ⟨frc, stc, henter', hstart⟩ := enter_atStart hm hcallee harity
    cases henter.symm.trans henter'
    exact ⟨callee, stc, hstart⟩
  | returned _ hbody _ _ hset ih =>
    obtain ⟨g, st, hg⟩ := ih
    obtain ⟨hstart, hrd, -⟩ := (hg.body hm hapi _).ok hbody
    exact ⟨g, st, (hstart.set hrd _ _).ok hset⟩
  | external _ hbody _ hset ih =>
    obtain ⟨g, st, hg⟩ := ih
    obtain ⟨hstart, hrd⟩ := (hg.body hm hapi _).ok hbody
    exact ⟨g, st, (hstart.set hrd _ _).ok hset⟩
  | received _ hbody _ hset ih =>
    obtain ⟨g, st, hg⟩ := ih
    obtain ⟨hstart, hrd⟩ := (hg.body hm hapi _).ok hbody
    exact ⟨g, st, (hstart.set hrd _ _).ok hset⟩
  | slept _ hbody _ ih =>
    obtain ⟨g, st, hg⟩ := ih
    exact ⟨g, st, (hg.body hm hapi _).ok hbody⟩

/-- Control safety: during any run of a function of a module that decodes and
passes the verifier, every fetch is at an instruction start of the verifier's scan,
where a well-formed instruction stands and executes without failing a check; so no
run of any length ends in `badCode`, nor in a `badarg` for a register or an arity. -/
theorem runFunction_control_safe {b : List UInt8} {m : Module} (_hb : Module.decode b = .ok m)
    (hm : verify m = .ok ()) {σ : Type} (api : SystemApi σ) (hapi : api.NeverBadCode)
    (limit : ℕ) {fnIdx : ℕ} {f : Function} (hf : m.functions[fnIdx]? = some f)
    (args : List Term) (hargs : args.length = f.arity.toNat) (s : σ) :
    (∀ idx fr s', Visits m api limit fnIdx args s idx fr s' →
      ∃ g st i next, m.functions[idx]? = some g ∧ fr.code = g.code ∧
        fr.regs.length = g.nregs.toNat ∧ scanFn m idx g = .ok st ∧ fr.pc ∈ st.boundaries ∧
        decodeAt g.code fr.pc = some (i, next) ∧ i.WellFormed m g ∧
        ∀ e s'', Exec.body api limit fr s' = .error e s'' →
          (∀ flt, e ≠ .fault flt) ∧ e ≠ .trap .badCode) ∧
    ∀ fuel e s', runFunction m api limit fuel fnIdx args s = .error e s' →
      (∀ flt, e ≠ .fault flt) ∧ e ≠ .trap .badCode := by
  have hbenign : ∀ e : Stop, e.Benign → (∀ flt, e ≠ .fault flt) ∧ e ≠ .trap .badCode := by
    intro e he
    refine ⟨?_, ?_⟩
    · rintro flt rfl
      exact he
    · rintro rfl
      exact he rfl
  constructor
  · intro idx fr s' hvisit
    obtain ⟨g, st, hg⟩ := hvisit.atStart hm hapi hf hargs
    obtain ⟨i, next, hstart⟩ := (hg.verified hm).start_ok fr.pc hg.pc_mem
    exact ⟨g, st, i, next, hg.function, hg.code, hg.regs, hg.scanned, hg.pc_mem,
      hstart.decodes, hstart.wellFormed, fun e s'' he =>
        hbenign e ((hg.body hm hapi s').error he)⟩
  · intro fuel e s' he
    obtain ⟨fr, st, henter, hstart⟩ := enter_atStart hm hf hargs.symm
    simp only [runFunction, start, henter, pure_bind] at he
    exact hbenign e ((hstart.runLoop hm hapi fuel s).error he)

/-- The encoding of a module with one function, which calls itself and returns. -/
def callSelfBytes : List UInt8 :=
  magic ++ [1, 0, 0, 0, 1, 0, 102, 1, 0, 0, 0, 0, 0, 0, 0, 1, 1, 10, 0, 0, 0,
    18, 0, 0, 0, 0, 0, 1, 0, 19, 0]

/-- The module `callSelfBytes` encodes. -/
def callSelf : Module := ⟨["f"], [⟨0, 1, 1, [18, 0, 0, 0, 0, 0, 1, 0, 19, 0]⟩]⟩

set_option maxRecDepth 2000 in
/-- The recursive module is accepted and never runs into a check of its code. -/
theorem callSelf_control_safe :
    Module.decode callSelfBytes = .ok callSelf ∧ verify callSelf = .ok () ∧
      ∀ fuel e s', runFunction callSelf SystemApi.isolated 0 fuel 0 [Term.nil]
        ⟨fun _ => 0, Heap.new 0 0⟩ = .error e s' →
      (∀ flt, e ≠ .fault flt) ∧ e ≠ .trap .badCode := by
  have hb : Module.decode callSelfBytes = .ok callSelf := by decide
  have hm : verify callSelf = .ok () := by decide
  exact ⟨hb, hm, (runFunction_control_safe hb hm SystemApi.isolated
    SystemApi.isolated_neverBadCode 0 rfl [Term.nil] rfl ⟨fun _ => 0, Heap.new 0 0⟩).2⟩

end Interp

end Yggdrasil
