import Yggdrasil.Modload.Table
import Yggdrasil.Bytecode.Sentinel
import Yggdrasil.Bytecode.Verify
import Yggdrasil.Lib.Transition
import Mathlib.Data.Set.Insert

/-!
# Loading, sealing and purging

Loads of any number of modules run at the same time. A load decodes and verifies, interns
its atoms one by one, compiles, and installs the instance; only the sealed check, each
interning, each lookup of a compile and the installation hold a lock.
-/

namespace Yggdrasil

namespace Loader

/-- Why a load failed. -/
inductive LoadError where
  /-- The bytes are no module. -/
  | decode (e : DecodeError)
  /-- The module is not safe. -/
  | verify (e : VerifyError)

/-- The tables that loads share. -/
structure Tables where
  /-- `MODULES`. -/
  mods : ModuleTable
  /-- `ATOMS`. -/
  atoms : AtomTable

/-- Where a load is. -/
inductive Loc where
  /-- It has not begun. -/
  | idle
  /-- `load_sealed`, before its check. -/
  | sealedCheck (name : String) (bytes : List UInt8) (useJit : Bool)
  /-- `load_full`, at its start. -/
  | full (name : String) (bytes : List UInt8) (useJit sealed : Bool)
  /-- The first atoms are interned. -/
  | interning (name : String) (module : Module) (useJit sealed : Bool) (atomMap : List UInt32)
  /-- It compiles. -/
  | compiling (name : String) (module : Module) (useJit sealed : Bool) (atomMap : List UInt32)
  /-- It is about to take the lock to install. -/
  | installing (name : String) (module : Module) (jit sealed : Bool) (atomMap : List UInt32)
  /-- It is over. -/
  | done (result : Except LoadError LoadedModule)

/-- The sealed instance of a name. -/
def sealedCurrent (mods : ModuleTable) (name : String) : Option LoadedModule :=
  (mods.current name).filter (·.sealed)

/-- The locked section at the end of `load_full`. -/
def install (mods : ModuleTable) (name : String) (module : Module) (jit sealed : Bool)
    (atomMap : List UInt32) : ModuleTable × LoadedModule :=
  let version := ((mods name).map (·.current.version + 1)).getD 1
  let loaded : LoadedModule :=
    { name, version, module, atomMap, jit, sealed, tailers := sentinelReturners module }
  match mods name with
  | some slot =>
    if slot.current.sealed then (mods, slot.current)
    else (Function.update mods name (some ⟨loaded, some slot.current⟩), loaded)
  | none => (Function.update mods name (some ⟨loaded, none⟩), loaded)

/-- One step of a load, up to its next lock. Whether a compile publishes code is `published`. -/
def advance (published : Bool) (t : Tables) : Loc → Option (Tables × Loc)
  | .idle | .done _ => none
  | .sealedCheck name bytes useJit =>
    match sealedCurrent t.mods name with
    | some m => some (t, .done (.ok m))
    | none => some (t, .full name bytes useJit true)
  | .full name bytes useJit sealed =>
    match Module.decode bytes with
    | .error e => some (t, .done (.error (.decode e)))
    | .ok module =>
      match verify module with
      | .error e => some (t, .done (.error (.verify e)))
      | .ok () => some (t, .interning name module useJit sealed [])
  | .interning name module useJit sealed atomMap =>
    match module.atoms[atomMap.length]? with
    | some a =>
      let (atoms, i) := t.atoms.intern a
      some ({ t with atoms }, .interning name module useJit sealed (atomMap ++ [i]))
    | none => some (t, .compiling name module useJit sealed atomMap)
  | .compiling name module useJit sealed atomMap =>
    some (t, .installing name module (useJit && published) sealed atomMap)
  | .installing name module jit sealed atomMap =>
    let (mods, m) := install t.mods name module jit sealed atomMap
    some ({ t with mods }, .done (.ok m))

/-- A function that a compile has bound a call to: its code address and its token are those
of the instance. -/
structure Binding where
  /-- The name that was looked up. -/
  callee : String
  /-- The instance that was found. -/
  target : LoadedModule
  /-- The function. -/
  idx : ℕ
  /-- Its arity. -/
  arity : UInt8
  /-- Whether it can return the tail sentinel. -/
  mayTail : Bool

/-- `resolve_ext_direct`. -/
def resolveExtDirect (t : Tables) (moduleAtom fnameAtom : UInt32) : Option Binding := do
  let callee := t.atoms.name moduleAtom
  let m ← t.mods.current callee
  if ¬ m.sealed then none
  if ¬ m.jit then none
  let idx ← m.module.functionNamed (t.atoms.name fnameAtom)
  let f ← m.module.functions[idx]?
  if f.arity.toNat > 16 then none
  return { callee, target := m, idx, arity := f.arity, mayTail := (m.tailers[idx]?).getD true }

/-- The locked section of `purge`. -/
def purge (mods : ModuleTable) (name : String) : ModuleTable :=
  match mods name with
  | some slot => Function.update mods name (some { slot with old := none })
  | none => mods

/-- The tables, the loads, and what happened. -/
structure State (ι : Type) where
  /-- The tables. -/
  tables : Tables
  /-- The loads. -/
  loc : ι → Loc
  /-- History: for each name its current instances, the first one first. -/
  installed : String → List LoadedModule
  /-- History: the loads that have changed a table since they began. -/
  touched : Set ι
  /-- History: what compiles have bound. -/
  bound : List Binding

variable {ι : Type}

/-- Record that the instance current before may have been replaced. -/
def note (before after : Option LoadedModule) (installed : List LoadedModule) :
    List LoadedModule :=
  if after = before then installed else installed ++ after.toList

/-- The state with other tables, and the history that follows from the change. -/
def State.become (s : State ι) (t : Tables) : State ι :=
  { s with
    tables := t
    installed := fun name =>
      note (s.tables.mods.current name) (t.mods.current name) (s.installed name) }

/-- At boot nothing is loaded and no load is under way. -/
structure Init (s : State ι) : Prop where
  /-- The table is empty. -/
  mods : ∀ name, s.tables.mods name = none
  /-- No load has begun. -/
  loc : ∀ i, s.loc i = .idle
  /-- Nothing was installed. -/
  installed : ∀ name, s.installed name = []
  /-- Nothing was changed. -/
  touched : s.touched = ∅
  /-- Nothing was bound. -/
  bound : s.bound = []

/-- Whether no load is under way. -/
def Loc.Over : Loc → Prop
  | .idle | .done _ => True
  | _ => False

/-- Where a load can begin. -/
def Loc.Starts : Loc → Prop
  | .sealedCheck _ _ _ => True
  | .full _ _ _ sealed => sealed = false
  | _ => False

variable [DecidableEq ι]

/-- The steps of any number of loads and purges. -/
inductive Step : State ι → State ι → Prop
  /-- `load`, `load_with_engine` or `load_sealed` is called. -/
  | call {s : State ι} (i : ι) {loc : Loc} : (s.loc i).Over → loc.Starts →
    Step s { s with loc := Function.update s.loc i loc, touched := s.touched \ {i} }
  /-- A load goes on. -/
  | advance {s : State ι} (i : ι) (published : Bool) {t : Tables} {loc : Loc} :
    advance published s.tables (s.loc i) = some (t, loc) →
    Step s { s.become t with
      loc := Function.update s.loc i loc
      touched := s.touched ∪ { j | j = i ∧ t ≠ s.tables } }
  /-- A compile looks a function up. -/
  | resolve {s : State ι} (i : ι) (moduleAtom fnameAtom : UInt32) {name : String}
      {module : Module} {sealed : Bool} {atomMap : List UInt32} :
    s.loc i = .compiling name module true sealed atomMap →
    Step s { s with bound := (resolveExtDirect s.tables moduleAtom fnameAtom).toList ++ s.bound }
  /-- `purge` drops an old instance. -/
  | purge {s : State ι} (name : String) :
    Step s (s.become { s.tables with mods := purge s.tables.mods name })

/-! ### Installing -/

section

variable {mods : ModuleTable} {name : String} {module : Module} {jit sealed : Bool}
  {atomMap : List UInt32}

/-- A sealed name keeps its instance. -/
theorem install_sealed {m : LoadedModule} (h : sealedCurrent mods name = some m) :
    install mods name module jit sealed atomMap = (mods, m) := by
  obtain ⟨slot, hslot, hcur⟩ : ∃ slot, mods name = some slot ∧ slot.current = m ∧ m.sealed := by
    simp only [sealedCurrent, ModuleTable.current, Option.filter_eq_some_iff,
      Option.map_eq_some_iff] at h
    obtain ⟨⟨slot, hslot, rfl⟩, hs⟩ := h
    exact ⟨slot, hslot, rfl, hs⟩
  obtain ⟨rfl, hs⟩ := hcur
  simp only [install, hslot, hs, if_true]

/-- What an installation does to a name that is not sealed. -/
theorem install_new (h : sealedCurrent mods name = none) :
    (install mods name module jit sealed atomMap).1 = Function.update mods name
      (some ⟨(install mods name module jit sealed atomMap).2, mods.current name⟩) ∧
    (install mods name module jit sealed atomMap).2.version =
      ((mods.current name).map (·.version + 1)).getD 1 := by
  cases hslot : mods name with
  | none => simp only [install, hslot, ModuleTable.current, Option.map_none, Option.getD_none,
      and_self]
  | some slot =>
    have hs : slot.current.sealed = false := by
      simpa [sealedCurrent, ModuleTable.current, hslot, Option.filter] using h
    simp [install, hslot, hs, ModuleTable.current]

end

/-! ### What a step does to the table -/

/-- The ways the table changes. -/
inductive Change : ModuleTable → ModuleTable → Prop
  /-- It does not. -/
  | same {mods : ModuleTable} : Change mods mods
  /-- A name that is not sealed gets its next version. -/
  | replace {mods : ModuleTable} (name : String) (m : LoadedModule) :
    sealedCurrent mods name = none →
    m.version = ((mods.current name).map (·.version + 1)).getD 1 →
    Change mods (Function.update mods name (some ⟨m, mods.current name⟩))
  /-- A name loses its old version. -/
  | drop {mods : ModuleTable} (name : String) (slot : Slot) : mods name = some slot →
    Change mods (Function.update mods name (some { slot with old := none }))

/-- Installing is one of the changes. -/
theorem change_install (mods : ModuleTable) (name : String) (module : Module)
    (jit sealed : Bool) (atomMap : List UInt32) :
    Change mods (install mods name module jit sealed atomMap).1 := by
  cases h : sealedCurrent mods name with
  | some m =>
    rw [install_sealed h]
    exact .same
  | none =>
    rw [(install_new h).1]
    exact .replace name _ h (install_new h).2

/-- Purging is one of the changes. -/
theorem change_purge (mods : ModuleTable) (name : String) : Change mods (purge mods name) := by
  cases h : mods name with
  | none =>
    simp only [purge, h]
    exact .same
  | some slot =>
    simp only [purge, h]
    exact .drop name slot h

/-- Loads that have not passed the verifier. -/
def Loc.Unverified : Loc → Prop
  | .idle | .sealedCheck _ _ _ | .full _ _ _ _ | .done (.error _) => True
  | .interning _ _ _ _ _ | .compiling _ _ _ _ _ | .installing _ _ _ _ _ | .done (.ok _) => False

section

variable {published : Bool} {t t' : Tables} {loc loc' : Loc}

/-- A load changes the module table only by an installation. -/
theorem advance_change (h : advance published t loc = some (t', loc')) :
    Change t.mods t'.mods := by
  cases loc with
  | idle | done => cases h
  | sealedCheck | interning =>
    simp only [advance] at h
    split at h <;> cases h <;> exact .same
  | full name bytes useJit sealed =>
    simp only [advance] at h
    split at h
    · cases h
      exact .same
    · split at h <;> cases h <;> exact .same
  | compiling name module useJit sealed atomMap =>
    cases h
    exact .same
  | installing name module jit sealed atomMap =>
    cases h
    exact change_install ..

/-- A load that is not past the verifier has changed nothing. -/
theorem advance_unverified (h : advance published t loc = some (t', loc'))
    (hloc' : loc'.Unverified) : t' = t ∧ loc.Unverified := by
  cases loc with
  | idle | done => cases h
  | sealedCheck name bytes useJit =>
    simp only [advance] at h
    split at h <;> cases h <;> exact ⟨rfl, trivial⟩
  | full name bytes useJit sealed =>
    simp only [advance] at h
    split at h
    · cases h
      exact ⟨rfl, trivial⟩
    · split at h <;> cases h <;> exact ⟨rfl, trivial⟩
  | interning name module useJit sealed atomMap =>
    simp only [advance] at h
    split at h <;> cases h <;> exact hloc'.elim
  | compiling | installing =>
    cases h
    exact hloc'.elim

end

variable {s s' : State ι}

private theorem note_self (m : Option LoadedModule) (l : List LoadedModule) : note m m l = l :=
  if_pos rfl

/-- What a step does to the table, and what the history says of it. -/
theorem Step.change (h : Step s s') : Change s.tables.mods s'.tables.mods ∧
    ∀ name, s'.installed name =
      note (s.tables.mods.current name) (s'.tables.mods.current name) (s.installed name) := by
  cases h with
  | call i hover hstart => exact ⟨.same, fun name => (note_self _ _).symm⟩
  | advance i published hadv => exact ⟨advance_change hadv, fun name => rfl⟩
  | resolve i moduleAtom fnameAtom hloc => exact ⟨.same, fun name => (note_self _ _).symm⟩
  | purge name => exact ⟨change_purge _ name, fun name => rfl⟩

private theorem current_update {mods : ModuleTable} {name : String} {slot : Slot} :
    ModuleTable.current (Function.update mods name (some slot)) name = some slot.current := by
  rw [ModuleTable.current, Function.update_self, Option.map_some]

private theorem current_update_of_ne {mods : ModuleTable} {name other : String} {slot : Slot}
    (h : other ≠ name) :
    ModuleTable.current (Function.update mods name (some slot)) other = mods.current other := by
  rw [ModuleTable.current, Function.update_of_ne h, ModuleTable.current]

/-- A sealed instance stays current. -/
theorem Change.sealedCurrent {mods mods' : ModuleTable} (h : Change mods mods') {name : String}
    {m : LoadedModule} (hm : sealedCurrent mods name = some m) :
    sealedCurrent mods' name = some m := by
  cases h with
  | same => exact hm
  | replace other m' hnone hversion =>
    have hne : name ≠ other := by
      rintro rfl
      rw [hnone] at hm
      cases hm
    rw [Loader.sealedCurrent, current_update_of_ne hne]
    exact hm
  | drop other slot hslot =>
    rcases eq_or_ne name other with rfl | hne
    · rw [Loader.sealedCurrent, ModuleTable.current, hslot] at hm
      rw [Loader.sealedCurrent, current_update]
      exact hm
    · rw [Loader.sealedCurrent, current_update_of_ne hne]
      exact hm

/-! ### The history -/

/-- The table agrees with the history of a name. -/
structure Agrees (slot : Option Slot) (installed : List LoadedModule) : Prop where
  /-- The current instance was installed last. -/
  current : slot.map Slot.current = installed.getLast?
  /-- The old one was installed just before it. -/
  old : ∀ c o, slot = some ⟨c, some o⟩ → ∃ pre, installed = pre ++ [o, c]
  /-- Versions count from one. -/
  version : ∀ k m, installed[k]? = some m → m.version = k + 1

private theorem Agrees.length {slot : Option Slot} {installed : List LoadedModule}
    (h : Agrees slot installed) :
    ((slot.map Slot.current).map (·.version + 1)).getD 1 = installed.length + 1 := by
  rw [h.current, List.getLast?_eq_getElem?]
  cases hlast : installed[installed.length - 1]? with
  | none =>
    have hlen := List.getElem?_eq_none_iff.1 hlast
    simp only [Option.map_none, Option.getD_none]
    omega
  | some m =>
    have hlt := (List.getElem?_eq_some_iff.1 hlast).1
    simp only [Option.map_some, Option.getD_some, h.version _ m hlast]
    omega

private theorem Agrees.replace {slot : Option Slot} {installed : List LoadedModule}
    (h : Agrees slot installed) {m : LoadedModule}
    (hversion : m.version = ((slot.map Slot.current).map (·.version + 1)).getD 1) :
    Agrees (some ⟨m, slot.map Slot.current⟩)
      (note (slot.map Slot.current) (some m) installed) := by
  rw [h.length] at hversion
  have hne : some m ≠ slot.map Slot.current := by
    rw [h.current, List.getLast?_eq_getElem?]
    intro heq
    have hold := h.version _ m heq.symm
    have hlt := (List.getElem?_eq_some_iff.1 heq.symm).1
    omega
  rw [note, if_neg hne, Option.toList_some]
  refine ⟨?_, fun c o hslot => ?_, fun k m' hk => ?_⟩
  · rw [List.getLast?_concat, Option.map_some]
  · simp only [Option.some.injEq, Slot.mk.injEq] at hslot
    obtain ⟨rfl, hold⟩ := hslot
    rw [h.current] at hold
    obtain ⟨pre, rfl⟩ := List.getLast?_eq_some_iff.1 hold
    exact ⟨pre, List.append_assoc pre [o] [m]⟩
  · rcases Nat.lt_trichotomy k installed.length with hlt | rfl | hgt
    · rw [List.getElem?_append_left hlt] at hk
      exact h.version k m' hk
    · rw [List.getElem?_concat_length] at hk
      cases hk
      exact hversion
    · rw [List.getElem?_eq_none (by rw [List.length_append]; exact hgt)] at hk
      cases hk

private theorem Agrees.change {mods mods' : ModuleTable} (hc : Change mods mods') {name : String}
    {installed : List LoadedModule} (h : Agrees (mods name) installed) :
    Agrees (mods' name) (note (mods.current name) (mods'.current name) installed) := by
  cases hc with
  | same =>
    rw [note_self]
    exact h
  | replace other m hnone hversion =>
    rcases eq_or_ne name other with rfl | hne
    · rw [current_update, Function.update_self]
      exact h.replace hversion
    · rw [current_update_of_ne hne, Function.update_of_ne hne, note_self]
      exact h
  | drop other slot hslot =>
    rcases eq_or_ne name other with rfl | hne
    · rw [hslot] at h
      rw [current_update, ModuleTable.current, hslot, Option.map_some, note_self,
        Function.update_self]
      refine ⟨h.current, fun c o heq => ?_, h.version⟩
      simp only [Option.some.injEq, Slot.mk.injEq, reduceCtorEq, and_false] at heq
    · rw [current_update_of_ne hne, Function.update_of_ne hne, note_self]
      exact h

/-! ### Bindings -/

private theorem sealedCurrent_eq_some {mods : ModuleTable} {name : String} {m : LoadedModule} :
    sealedCurrent mods name = some m ↔ mods.current name = some m ∧ m.sealed = true :=
  Option.filter_eq_some_iff

private theorem resolveExtDirect_sealed {t : Tables} {mg fg : UInt32} {b : Binding}
    (h : resolveExtDirect t mg fg = some b) : sealedCurrent t.mods b.callee = some b.target := by
  simp only [resolveExtDirect, Option.bind_eq_bind, Option.bind_eq_some_iff] at h
  obtain ⟨m, hm, h⟩ := h
  by_cases hs : m.sealed = true
  · by_cases hj : m.jit = true
    · simp only [hs, hj, not_true_eq_false, if_false, Option.pure_def,
        Option.bind_eq_some_iff] at h
      obtain ⟨idx, -, f, -, h⟩ := h
      split at h
      · cases h
      · cases h
        exact sealedCurrent_eq_some.2 ⟨hm, hs⟩
    · simp [hs, hj] at h
  · simp [hs] at h

/-- What holds in every state of a run: the tables, the loads under way and the history agree. -/
structure Inv (s : State ι) : Prop where
  /-- The table agrees with the history. -/
  agrees : ∀ name, Agrees (s.tables.mods name) (s.installed name)
  /-- What was bound is sealed and current. -/
  bound : ∀ b ∈ s.bound, sealedCurrent s.tables.mods b.callee = some b.target
  /-- Loads that have not passed the verifier changed nothing. -/
  untouched : ∀ i, (s.loc i).Unverified → i ∉ s.touched

omit [DecidableEq ι] in
private theorem inv_init (h : Init s) : Inv s where
  agrees name := by
    rw [h.mods, h.installed]
    refine ⟨rfl, fun c o heq => ?_, fun k m hk => ?_⟩
    · cases heq
    · cases hk
  bound b hb := by
    rw [h.bound] at hb
    cases hb
  untouched i _ := by
    rw [h.touched]
    exact Set.notMem_empty i

private theorem inv_step (h : Inv s) (hs : Step s s') : Inv s' where
  agrees name := by
    rw [hs.change.2 name]
    exact Agrees.change hs.change.1 (h.agrees name)
  bound b hb := by
    refine hs.change.1.sealedCurrent ?_
    cases hs with
    | resolve i mg fg hloc =>
      rcases List.mem_append.1 hb with hb | hb
      · exact resolveExtDirect_sealed (Option.mem_toList.1 hb)
      · exact h.bound b hb
    | _ => exact h.bound b hb
  untouched i hi := by
    cases hs with
    | @call j loc hover hstart =>
      rintro ⟨hmem, hne⟩
      have hi : (Function.update s.loc j loc i).Unverified := hi
      rw [Function.update_of_ne hne] at hi
      exact h.untouched i hi hmem
    | @advance j published t loc hadv =>
      have hi : (Function.update s.loc j loc i).Unverified := hi
      rcases eq_or_ne i j with rfl | hij
      · rw [Function.update_self] at hi
        obtain ⟨rfl, hloc⟩ := advance_unverified hadv hi
        rintro (hmem | ⟨-, hne⟩)
        · exact h.untouched i hloc hmem
        · exact hne rfl
      · rw [Function.update_of_ne hij] at hi
        rintro (hmem | ⟨heq, -⟩)
        · exact h.untouched i hi hmem
        · exact hij heq
    | resolve | purge => exact h.untouched i hi

/-- A sealed instance stays current along every run. -/
private theorem sealedCurrent_run {name : String} {m : LoadedModule}
    (hm : sealedCurrent s.tables.mods name = some m)
    (h : Transition.Reaches (· = s) Step s') : sealedCurrent s'.tables.mods name = some m :=
  h.invariant (P := fun s' => sealedCurrent s'.tables.mods name = some m)
    (by rintro _ rfl; exact hm) fun _ _ hm hs => hs.change.1.sealedCurrent hm

/-- In every run: the instances installed under a name have the versions 1, 2, 3 and so on;
`current` is the last of them and `old`, if any, the one before; a sealed current instance
stays current in every continuation, where `load_sealed` returns it; what a compile has bound
is current and sealed; and a load that failed has changed neither table. -/
theorem module_table_sound (h : Transition.Reaches Init Step s) :
    (∀ name k m, (s.installed name)[k]? = some m → m.version = k + 1) ∧
    (∀ name, s.tables.mods.current name = (s.installed name).getLast?) ∧
    (∀ name c o, s.tables.mods name = some ⟨c, some o⟩ →
      ∃ pre, s.installed name = pre ++ [o, c]) ∧
    (∀ name m s', s.tables.mods.current name = some m → m.sealed = true →
      Transition.Reaches (· = s) Step s' →
      s'.tables.mods.current name = some m ∧ ∀ i bytes useJit published,
        s'.loc i = .sealedCheck name bytes useJit →
        advance published s'.tables (s'.loc i) = some (s'.tables, .done (.ok m))) ∧
    (∀ b ∈ s.bound, s.tables.mods.current b.callee = some b.target ∧ b.target.sealed = true) ∧
    ∀ i e, s.loc i = .done (.error e) → i ∉ s.touched := by
  have hinv : Inv s := h.invariant (P := Inv) (fun _ hs => inv_init hs)
    fun _ _ hi hs => inv_step hi hs
  refine ⟨fun name => (hinv.agrees name).version, fun name => (hinv.agrees name).current,
    fun name => (hinv.agrees name).old, fun name m s' hm hsealed hrun => ?_,
    fun b hb => sealedCurrent_eq_some.1 (hinv.bound b hb), fun i e hi => ?_⟩
  · have hcur := sealedCurrent_run (sealedCurrent_eq_some.2 ⟨hm, hsealed⟩) hrun
    refine ⟨(sealedCurrent_eq_some.1 hcur).1, fun i bytes useJit published hloc => ?_⟩
    simp only [hloc, advance, hcur]
  · refine hinv.untouched i ?_
    rw [hi]
    trivial

/-- Let a load go on for some steps; its compile publishes nothing. -/
def State.drive (i : ι) : ℕ → State ι → State ι
  | 0, s => s
  | k + 1, s =>
    match advance false s.tables (s.loc i) with
    | none => s
    | some (t, loc) => drive i k { s.become t with
        loc := Function.update s.loc i loc
        touched := s.touched ∪ { j | j = i ∧ t ≠ s.tables } }

/-- A load that goes on is part of a run. -/
theorem reaches_drive (h : Transition.Reaches Init Step s) (i : ι) (k : ℕ) :
    Transition.Reaches Init Step (s.drive i k) := by
  induction k generalizing s with
  | zero => exact h
  | succ k ih =>
    rw [State.drive]
    split
    · exact h
    · next hadv => exact ih (h.step (.advance i false hadv))

/-- A module with two atoms and a function, named by the first, that returns its argument. -/
def idModule (a b : String) : Module := ⟨[a, b], [⟨0, 1, 1, [19, 0]⟩]⟩

/-- Nothing is loaded. -/
def boot : State Unit where
  tables := ⟨fun _ => none, []⟩
  loc _ := .idle
  installed _ := []
  touched := ∅
  bound := []

/-- It is where runs start. -/
theorem boot_init : Init boot := ⟨fun _ => rfl, fun _ => rfl, fun _ => rfl, rfl, rfl⟩

/-- `load_sealed` at boot installs version 1, and it stays. -/
theorem sealed_load_stays : ∃ s : State Unit, Transition.Reaches Init Step s ∧
    ∃ m, s.tables.mods.current "m" = some m ∧ m.sealed = true ∧ m.version = 1 ∧
      ∀ s', Transition.Reaches (· = s) Step s' → s'.tables.mods.current "m" = some m := by
  have hstarts : (Loc.sealedCheck "m" (idModule "f" "g").encode false).Starts := trivial
  have hcall := Transition.Reaches.step (.init boot_init) (Step.call () trivial hstarts)
  have hinstall := reaches_drive hcall () 7
  refine ⟨_, hinstall, _, rfl, rfl, rfl, fun s' hrun => ?_⟩
  exact ((module_table_sound hinstall).2.2.2.1 "m" _ s' rfl rfl hrun).1

end Loader

end Yggdrasil
