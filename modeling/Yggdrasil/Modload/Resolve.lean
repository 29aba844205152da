import Yggdrasil.Modload.Invoke
import Yggdrasil.Modload.Loader

/-!
# The function an external call reaches

External calls name a module and a function and pass arguments. All paths look the function
up by its name alone and compare the arity of what they found afterwards, so a function
behind another one of the same name is out of reach.
-/

namespace Yggdrasil

namespace Module

variable {m : Module} {name : String} {arity i : ℕ}

/-- Function `i` has the name. -/
def HasName (m : Module) (name : String) (i : ℕ) : Prop :=
  ∃ f, m.functions[i]? = some f ∧ m.atoms[f.nameAtom.toNat]? = some name

/-- Function `i` has the name and the arity. -/
def Defines (m : Module) (name : String) (arity i : ℕ) : Prop :=
  ∃ f, m.functions[i]? = some f ∧ m.atoms[f.nameAtom.toNat]? = some name ∧ f.arity.toNat = arity

/-- Function `i` is the first one with the name. -/
def FirstNamed (m : Module) (name : String) (i : ℕ) : Prop :=
  m.HasName name i ∧ ∀ j < i, ¬ m.HasName name j

private theorem hasName_iff (hi : i < m.functions.length) :
    m.HasName name i ↔ m.atoms[m.functions[i].nameAtom.toNat]? = some name := by
  constructor
  · rintro ⟨f, hf, hname⟩
    rw [List.getElem?_eq_getElem hi] at hf
    cases hf
    exact hname
  · intro hname
    exact ⟨_, List.getElem?_eq_getElem hi, hname⟩

/-- The lookup finds the first function with the name. -/
theorem functionNamed_eq_some : m.functionNamed name = some i ↔ m.FirstNamed name i := by
  unfold functionNamed
  rw [List.findIdx?_eq_some_iff_getElem]
  constructor
  · rintro ⟨hlt, hname, hbefore⟩
    refine ⟨(hasName_iff hlt).mpr (of_decide_eq_true hname), fun j hj hnamed => ?_⟩
    exact hbefore j hj (decide_eq_true ((hasName_iff (by omega)).mp hnamed))
  · rintro ⟨hnamed, hbefore⟩
    obtain ⟨hlt, -⟩ := List.getElem?_eq_some_iff.mp hnamed.choose_spec.1
    refine ⟨hlt, decide_eq_true ((hasName_iff hlt).mp hnamed), fun j hj hname => ?_⟩
    exact hbefore j hj ((hasName_iff (by omega)).mpr (of_decide_eq_true hname))

end Module

namespace Modload

variable {σ : Type} {svc : Services σ} {c : Core σ} {mg fg : UInt32} {args : List Term}
  {target : LoadedModule} {i n : ℕ}

/-- The instance an external call goes to. -/
def callee (c : Core σ) (mg : UInt32) : Option LoadedModule :=
  c.kernel.modules.current (c.kernel.atoms.name mg)

/-- Function `i` of an instance has the name that is called, and takes the arguments. -/
def Takes (c : Core σ) (fg : UInt32) (args : List Term) (target : LoadedModule) (i : ℕ) : Prop :=
  target.module.Defines (c.kernel.atoms.name fg) args.length i

/-- The core with a stashed external target. -/
def stashed (c : Core σ) (mg fg : UInt32) (args : List Term) : Core σ :=
  { c with tailTarget := some (.ext mg fg args) }

/-- The tables a compile looks functions up in. -/
def tables (c : Core σ) : Loader.Tables := ⟨c.kernel.modules, c.kernel.atoms⟩

/-- All paths of an external call lead to function `i` of an instance. A call is bound at
compile time if the instance is sealed and compiled and the arguments fit in registers. -/
structure Selects (svc : Services σ) (c : Core σ) (mg fg : UInt32) (args : List Term)
    (target : LoadedModule) (i : ℕ) : Prop where
  /-- `call_ext_dynamic` runs it. -/
  called : ∀ inv : Invoker σ, callExtDynamic svc inv mg fg args c =
    inv target i args (c.noteRunning svc target)
  /-- `next_tail_target` goes on there. -/
  hopped : ∀ m, nextTailTarget svc m (stashed c mg fg args) =
    .ok (target, i, args) (Core.noteRunning svc target { c with tailTarget := none })
  /-- `resolve_ext_direct` binds it. -/
  bound : (Loader.resolveExtDirect (tables c) mg fg).map (fun b => (b.target, b.idx)) =
    if target.sealed ∧ target.jit ∧ args.length ≤ 16 then some (target, i) else none

/-- An external call traps, and none is bound at compile time. -/
structure Refuses (svc : Services σ) (c : Core σ) (mg fg : UInt32) (args : List Term) : Prop where
  /-- `call_ext_dynamic` traps. -/
  called : ∀ inv : Invoker σ, callExtDynamic svc inv mg fg args c = .error (.trap .badarg) c
  /-- `next_tail_target` traps. -/
  hopped : ∀ m, nextTailTarget svc m (stashed c mg fg args) =
    .error (.trap .badarg) { c with tailTarget := none }
  /-- What `resolve_ext_direct` finds takes another number of arguments. -/
  bound : ∀ b, Loader.resolveExtDirect (tables c) mg fg = some b → b.arity.toNat ≠ args.length

/-- External calls resolve by name and arity: if the instance has a function that takes the
arguments then all paths select one, the same, and otherwise the call traps. -/
def Resolves (svc : Services σ) (c : Core σ) (mg fg : UInt32) (args : List Term) : Prop :=
  (∀ target, callee c mg = some target → (∃ i, Takes c fg args target i) →
    ∃ i, Takes c fg args target i ∧ Selects svc c mg fg args target i) ∧
  ((∀ target, callee c mg = some target → ∀ i, ¬ Takes c fg args target i) →
    Refuses svc c mg fg args)

private theorem resolve_eq_some : resolve c.kernel mg fg args.length = some (target, i) ↔
    callee c mg = some target ∧ target.module.FirstNamed (c.kernel.atoms.name fg) i ∧
      Takes c fg args target i := by
  simp only [resolve, Option.bind_eq_bind, Option.bind_eq_some_iff, Module.functionNamed_eq_some]
  constructor
  · rintro ⟨target', hcur, j, hfirst, f, hf, h⟩
    split at h
    · next harity =>
      cases h
      obtain ⟨f', hf', hname⟩ := hfirst.1
      cases hf.symm.trans hf'
      exact ⟨hcur, hfirst, f, hf, hname, harity⟩
    · cases h
  · rintro ⟨hcur, hfirst, f, hf, hname, harity⟩
    exact ⟨target, hcur, i, hfirst, f, hf, if_pos harity⟩

private theorem bound_some (hcur : callee c mg = some target)
    (hfirst : target.module.FirstNamed (c.kernel.atoms.name fg) i) {f : Function}
    (hf : target.module.functions[i]? = some f) :
    (Loader.resolveExtDirect (tables c) mg fg).map (fun b => (b.target, b.idx, b.arity)) =
      if target.sealed ∧ target.jit ∧ f.arity.toNat ≤ 16 then some (target, i, f.arity)
      else none := by
  have hnamed := Module.functionNamed_eq_some.mpr hfirst
  unfold callee at hcur
  simp only [Loader.resolveExtDirect, tables, hcur, hnamed, hf, Option.bind_eq_bind,
    Option.bind_some]
  cases target.sealed <;> cases target.jit <;> simp
  split <;> split <;> first | rfl | omega

private theorem bound_first {b : Loader.Binding}
    (hb : Loader.resolveExtDirect (tables c) mg fg = some b) :
    ∃ f, callee c mg = some b.target ∧
      b.target.module.FirstNamed (c.kernel.atoms.name fg) b.idx ∧
      b.target.module.functions[b.idx]? = some f ∧ b.arity = f.arity := by
  cases hcur : callee c mg with
  | none =>
    unfold callee at hcur
    simp [Loader.resolveExtDirect, tables, hcur] at hb
  | some target =>
    cases hnamed : target.module.functionNamed (c.kernel.atoms.name fg) with
    | none =>
      unfold callee at hcur
      simp only [Loader.resolveExtDirect, tables, hcur, hnamed, Option.bind_eq_bind,
        Option.bind_some, Option.bind_none] at hb
      cases hs : target.sealed <;> cases hj : target.jit <;> simp [hs, hj] at hb
    | some i =>
      have hfirst := Module.functionNamed_eq_some.mp hnamed
      obtain ⟨f, hf, -⟩ := hfirst.1
      have hmap := bound_some hcur hfirst hf
      rw [hb, Option.map_some] at hmap
      split at hmap
      · obtain ⟨rfl, rfl, harity⟩ : b.target = target ∧ b.idx = i ∧ b.arity = f.arity := by
          simpa using hmap
        exact ⟨f, rfl, hfirst, hf, harity⟩
      · cases hmap

/-- The first function with the name takes the arguments: every path selects it. -/
private theorem selects_of_first (hcur : callee c mg = some target)
    (hfirst : target.module.FirstNamed (c.kernel.atoms.name fg) i)
    (htakes : Takes c fg args target i) : Selects svc c mg fg args target i := by
  have hres := resolve_eq_some.mpr ⟨hcur, hfirst, htakes⟩
  obtain ⟨f, hf, -, harity⟩ := htakes
  refine ⟨fun inv => ?_, fun m => ?_, ?_⟩
  · simp only [callExtDynamic, hres]
  · simp only [nextTailTarget, stashed, hres]
  · have hmap := congrArg (Option.map fun b => (b.1, b.2.1)) (bound_some hcur hfirst hf)
    rw [Option.map_map, harity] at hmap
    refine hmap.trans ?_
    split <;> rfl

private theorem refuses_of_none
    (hnone : ∀ target, callee c mg = some target → ∀ i, ¬ Takes c fg args target i) :
    Refuses svc c mg fg args := by
  have hres : resolve c.kernel mg fg args.length = none := by
    refine Option.eq_none_iff_forall_ne_some.mpr fun found hfound => ?_
    obtain ⟨target, i⟩ := found
    obtain ⟨hcur, -, htakes⟩ := resolve_eq_some.mp hfound
    exact hnone target hcur i htakes
  refine ⟨fun inv => ?_, fun m => ?_, fun b hb harity => ?_⟩
  · simp only [callExtDynamic, hres]
  · simp only [nextTailTarget, stashed, hres]
  · obtain ⟨f, hcur, ⟨⟨f', hf', hname⟩, -⟩, hf, heq⟩ := bound_first hb
    cases hf.symm.trans hf'
    exact hnone b.target hcur b.idx ⟨f, hf, hname, heq ▸ harity⟩

/-- External calls of a name with some arguments resolve by name and arity exactly if the
first function of that name takes them, should any function of that name do so. -/
theorem resolves_iff_first : Resolves svc c mg fg args ↔
    ∀ target, callee c mg = some target → (∃ i, Takes c fg args target i) →
      ∃ i, target.module.FirstNamed (c.kernel.atoms.name fg) i ∧ Takes c fg args target i := by
  constructor
  · intro hresolves target hcur hsome
    obtain ⟨i, htakes, hselects⟩ := hresolves.1 target hcur hsome
    -- Where the hop leads to is the function that was looked up.
    have hhop := hselects.hopped target
    cases hres : resolve c.kernel mg fg args.length with
    | none =>
      simp only [nextTailTarget, stashed, hres] at hhop
      cases hhop
    | some found =>
      obtain ⟨target', j⟩ := found
      simp only [nextTailTarget, stashed, hres] at hhop
      cases hhop
      exact ⟨i, (resolve_eq_some.mp hres).2⟩
  · intro hfirst
    refine ⟨fun target hcur hsome => ?_, refuses_of_none⟩
    obtain ⟨i, hnamed, htakes⟩ := hfirst target hcur hsome
    exact ⟨i, htakes, selects_of_first hcur hnamed htakes⟩

/-- A module with `f/0` before `f/1`. -/
def twoArities : Module := ⟨["f"], [⟨0, 0, 1, [3, 0, 19, 0]⟩, ⟨0, 1, 1, [19, 0]⟩]⟩

/-- A core on which `twoArities` was loaded as module `m`. -/
def twoAritiesCore : Core Store :=
  ⟨⟨⟨fun _ => 0, Heap.new 0 0⟩,
    (Loader.install (fun _ => none) "m" twoArities false false [1]).1, fun _ => none,
    ["m", "f"]⟩, none⟩

/-- The verified module has `f/1`, and a call of `f` with one argument traps. -/
theorem twoArities_unreachable :
    verify twoArities = .ok () ∧ twoArities.Defines "f" 1 1 ∧
      callExtDynamic Services.isolated (fun _ _ _ => throw .panic) 0 1 [Term.int 0]
        twoAritiesCore = .error (.trap .badarg) twoAritiesCore ∧
      ¬ Resolves Services.isolated twoAritiesCore 0 1 [Term.int 0] := by
  have htakes : Takes twoAritiesCore 1 [Term.int 0]
      ⟨"m", 1, twoArities, [1], false, false, [false, false]⟩ 1 := ⟨_, rfl, rfl, rfl⟩
  have hcur : callee twoAritiesCore 0 =
      some ⟨"m", 1, twoArities, [1], false, false, [false, false]⟩ := by decide +kernel
  have hres : resolve twoAritiesCore.kernel 0 1 1 = none := by decide +kernel
  refine ⟨by decide, ⟨_, rfl, rfl, rfl⟩, ?_, fun hresolves => ?_⟩
  · simp only [callExtDynamic, List.length_singleton, hres]
  · obtain ⟨i, -, hselects⟩ := hresolves.1 _ hcur ⟨1, htakes⟩
    have hhop := hselects.hopped ⟨"m", 1, twoArities, [1], false, false, [false, false]⟩
    simp only [nextTailTarget, stashed, List.length_singleton, hres] at hhop
    cases hhop

end Modload

end Yggdrasil
