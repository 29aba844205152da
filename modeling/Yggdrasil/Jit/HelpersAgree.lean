import Yggdrasil.Interp.ValidExec
import Yggdrasil.Jit.Runtime
import Yggdrasil.Lib.Yields

/-!
# The helpers for data and the interpreter

Compiled code builds and takes apart terms by calls of helpers. A helper checks its
operands in its own order, and looks at the kind of boxed terms only. It still does what the
interpreter does for the instruction, on every state of the system.
-/

namespace Yggdrasil

namespace Rt

open EStateM (Approx)

variable {σ α β : Type}

/-- A panic is no result. -/
def ending (e : Stop) : Option Stop := if e = .panic then none else some e

section

variable (api : SystemApi σ) (limit : ℕ)

/-- Store the result of a helper. -/
def store (rd : UInt8) (x : Sys σ Term) : Exec σ Flow := do Exec.setNext rd (← Exec.sys x)

/-- What compiled code does for an instruction that is a call of a helper on data. -/
def exec : Insn → Option (Exec σ Flow)
  | .reg1 .exitAtom r => some do
    Exec.sys (exitAtom (← Exec.get r))
    return .next
  | .reg2 .head rd rs => some do store rd (head api (← Exec.get rs))
  | .reg2 .tail rd rs => some do store rd (tail api (← Exec.get rs))
  | .reg2 .binFromList rd rs => some do store rd (binFromList api limit (← Exec.get rs))
  | .reg2 .binToList rd rs => some do store rd (binToList api limit (← Exec.get rs))
  | .reg2 .binSize rd rs => some do store rd (binSize api (← Exec.get rs))
  | .reg2 .isBinary rd rs => some do
    Exec.setNext rd (Term.int (← Exec.sys (isBinary api (← Exec.get rs))))
  | .reg3 .cons rd ra rb => some do store rd (cons api limit (← Exec.get ra) (← Exec.get rb))
  | .reg3 .cmpEq rd ra rb => some do
    Exec.setNext rd (Term.int (← Exec.sys (eq api limit (← Exec.get ra) (← Exec.get rb))))
  | .reg3 .binCat rd ra rb => some do store rd (binCat api limit (← Exec.get ra) (← Exec.get rb))
  | .reg3 .listCat rd ra rb => some do store rd (listCat api limit (← Exec.get ra) (← Exec.get rb))
  | .reg3 .mapGet rd ra rb => some do store rd (mapGet api (← Exec.get ra) (← Exec.get rb))
  | .reg3 .binAt rd ra rb => some do store rd (binAt api (← Exec.get ra) (← Exec.get rb))
  | .reg4 .mapPut rd ra rb rc => some do
    store rd (mapPut api limit (← Exec.get ra) (← Exec.get rb) (← Exec.get rc))
  | .reg4 .binPart rd ra rb rc => some do
    store rd (binPart api limit (← Exec.get ra) (← Exec.get rb) (← Exec.get rc))
  | .makeTuple rd rs => some do store rd (makeTuple api limit (← Exec.gets rs))
  | .getElem rd rs idx => some do store rd (getElem api (← Exec.get rs) idx.toNat)
  | .binNew rd data => some (store rd (binConst api limit data))
  | _ => none

variable {api limit}

private theorem kind_of_immediate {mem : Mem} {t : Term} (h : t.isBoxed = false) (b : Box) :
    t.kind mem ≠ some b.kind := by
  have htag : t.tag ≠ tagBoxed := by simpa [Term.isBoxed] using h
  unfold Term.kind
  split_ifs <;> cases b <;> simp [Box.kind]

/-- Looking at the kind, where a helper first asks whether the term is boxed. -/
private theorem kind_bind (b : Box) {t : Term} {x y x' y' : Sys σ α} (hx : Approx ending x x')
    (hy : Approx ending y y') :
    Approx ending (Sys.kind api t >>= fun k => if k = b.kind then x else y)
      (Sys.isBoxedKind api b.kind t >>= fun is => if is then x' else y') := by
  cases hbox : t.isBoxed with
  | true =>
    simp only [Sys.isBoxedKind, hbox, if_true, bind_assoc, pure_bind, decide_eq_true_eq]
    refine (Approx.refl _).bind fun k => ?_
    by_cases hk : k = b.kind
    · simpa only [if_pos hk] using hx
    · simpa only [if_neg hk] using hy
  | false =>
    simp only [Sys.isBoxedKind, hbox, Bool.false_eq_true, if_false, pure_bind]
    intro s r s' h
    have hkind : Sys.kind api t s =
      (t.kind (api.store s).mem).elim (.error .panic s) fun k => .ok k s := by
      simp only [Sys.kind, Sys.mem, bind, EStateM.bind]
      cases t.kind (api.store s).mem <;> rfl
    rcases hk : t.kind (api.store s).mem with _ | k
    all_goals
      rw [hk] at hkind
      rcases EStateM.yields_bind.mp h with ⟨_, _, hrun, hrest⟩ | ⟨_, rfl, _, hrun, hend⟩ <;>
        cases hkind.symm.trans hrun
    · cases hend
    · rw [if_neg fun heq : k = b.kind => kind_of_immediate hbox b (heq ▸ hk)] at hrest
      exact hy _ _ _ hrest

private theorem listBytes_approx (n : ℕ) (t : Term) :
    Approx ending (Sys.listBytes api n t) (listBytes api n t) := by
  induction n generalizing t with
  | zero => exact .refl _
  | succ n ih =>
    refine kind_bind .cons ((Approx.refl _).bind fun mem => (Approx.refl _).bind fun v => ?_)
      (.refl _)
    split
    · exact .refl _
    · exact (Approx.refl _).bind fun mem => (ih _).bind fun rest => .refl _

private theorem sys_bind (x : Sys σ α) (f : α → Sys σ β) :
    Exec.sys (x >>= f) = Exec.sys x >>= fun a => Exec.sys (f a) := by
  funext fr
  change (x >>= f) >>= _ = (x >>= fun a => pure (a, fr)) >>= _
  simp only [bind_assoc, pure_bind]
  rfl

private theorem sys_bind_run (x : Sys σ α) (f : α → Exec σ β) (fr : Frame) :
    (Exec.sys x >>= f) fr = x >>= fun a => f a fr := by
  change (x >>= fun a => pure (a, fr)) >>= _ = _
  simp only [bind_assoc, pure_bind]

private theorem sys_ite (c : Prop) [Decidable c] (x y : Sys σ α) :
    Exec.sys (if c then x else y) = if c then Exec.sys x else Exec.sys y := apply_ite _ _ _ _

private theorem ite_bind' (c : Prop) [Decidable c] (x y : Exec σ α) (f : α → Exec σ β) :
    (if c then x else y) >>= f = if c then x >>= f else y >>= f := apply_ite (· >>= f) _ _ _

private theorem get_of_lt {r : UInt8} {fr : Frame} (h : r.toNat < fr.regs.length)
    (f : Term → Exec σ α) : (Exec.get r >>= f) fr = f (fr.regs.get ⟨r.toNat, h⟩) fr := by
  change (Exec.get r fr >>= fun p => f p.1 p.2) = _
  simp [Exec.get, h]

private theorem kind_run (b : Box) {e : Stop} {t : Term} {f g : Exec σ α} {fr : Frame}
    (h : f fr = g fr) :
    Approx ending
      ((Exec.sys (Sys.kind api t) >>= fun k => if k ≠ b.kind then Exec.sys (throw e) else f) fr)
      ((Exec.sys (Sys.isBoxedKind api b.kind t) >>= fun is =>
        if (!is) = true then Exec.sys (throw e) else g) fr) := by
  have hrun : Approx ending (Sys.kind api t >>= fun k => if k = b.kind then f fr else _)
    (Sys.isBoxedKind api b.kind t >>= fun is => if is then f fr else _) :=
    kind_bind b (.refl _) (.refl (Exec.sys (throw e) fr))
  rw [sys_bind_run, sys_bind_run]
  convert hrun using 3 with k is
  · by_cases hk : k = b.kind <;> simp [hk]
  · cases is <;> simp [h]

private theorem exec_approx {i : Insn} {x : Exec σ Flow} (hx : exec api limit i = some x)
    {fr : Frame} (hregs : ∀ r ∈ i.regs, r.toNat < fr.regs.length) :
    Approx ending (Exec.exec api limit i fr) (x fr) := by
  unfold exec at hx
  split at hx
  all_goals cases hx
  all_goals simp only [Insn.regs, List.forall_mem_cons] at hregs
  all_goals simp only [Exec.exec, Exec.reg1, Exec.reg2, Exec.reg3, Exec.reg4, Exec.getElem,
    Exec.expectBoxed, Exec.expectKind, Exec.int, store, exitAtom, head, tail, binFromList,
    binToList, binSize, isBinary, eq, binCat, listCat, mapGet, binAt, mapPut, binPart, getElem,
    bytes, expect, sys_bind, sys_ite, bind_assoc, ite_bind']
  all_goals first | exact .refl _ | simp only [get_of_lt hregs.2.1]
  · exact kind_run .cons rfl
  · exact kind_run .cons rfl
  · rw [sys_bind_run, sys_bind_run]
    exact (listBytes_approx limit _).bind fun data => .refl _
  · exact kind_run .binary rfl
  · exact kind_run .binary rfl
  · simp only [get_of_lt hregs.2.2.1, get_of_lt hregs.2.2.2.1, sys_bind_run]
    exact .refl _
  · refine kind_run .tuple ?_
    funext s
    change (if _ then _ else _ : Exec σ Flow) fr s = (if _ then _ else _ : Exec σ Flow) fr s
    split_ifs <;> rfl

/-- On valid terms, compiled code that calls a helper for data does what the interpreter does
for the instruction: the same registers, the same trap and the same changes to the system. -/
theorem helper_agrees_with_interpreter {I : Objects → σ → Prop} {w : Objects}
    (hapi : api.Contract I) {s : σ} (hs : I w s) {fr : Frame} (hfr : fr.Valid w) {i : Insn}
    {next : ℕ} (hinsn : decodeAt fr.code fr.pc = some (i, next))
    (hregs : ∀ r ∈ i.regs, r.toNat < fr.regs.length) {x : Exec σ Flow}
    (hx : exec api limit i = some x) :
    x { fr with pc := next } s = Exec.body api limit fr s := by
  have happrox : Approx ending (Exec.body api limit fr) (x { fr with pc := next }) := by
    rw [Exec.body_eq_exec api limit hinsn]
    exact exec_approx hx hregs
  cases hrun : Exec.body api limit fr s with
  | ok a s' => exact happrox s (.ok a) s' hrun
  | error e s' =>
    -- the terms are valid, so the interpreter does not panic
    have he : e ≠ .panic := ((Exec.sound_body hapi fr hfr s hs).error hrun).1
    obtain ⟨e', hx', he'⟩ := happrox s (.error e) s' ⟨e, hrun, if_neg he⟩
    unfold ending at he'
    split at he' <;> cases he'
    exact hx'

/-- `HEAD` of a term that is no cell. -/
theorem head_agrees_with_interpreter :
    (do store 0 (head SystemApi.isolated (← Exec.get 0)) : Exec Store Flow)
        ⟨[9, 0, 0], 3, [Term.nil]⟩ ⟨fun _ => 0, Heap.new 0 0⟩ =
      Exec.body SystemApi.isolated 1 ⟨[9, 0, 0], 0, [Term.nil]⟩ ⟨fun _ => 0, Heap.new 0 0⟩ := by
  have hfr : Frame.Valid ∅ ⟨[9, 0, 0], 0, [Term.nil]⟩ :=
    fun t ht => List.mem_singleton.mp ht ▸ Term.valid_nil
  have hinsn : decodeAt [9, 0, 0] 0 = some (.reg2 .head 0 0, 3) := rfl
  exact helper_agrees_with_interpreter SystemApi.isolated_contract Objects.empty_holds hfr hinsn
    (by simp [Insn.regs]) rfl

end

end Rt

end Yggdrasil
