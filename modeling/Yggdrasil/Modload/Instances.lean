import Yggdrasil.Interp.Safety
import Yggdrasil.Modload.Loader

/-!
# What is loaded is verified and names its atoms

Loads that run at the same time share the atom table. Each instance that was ever installed
passed the verifier, so that none of its functions fails a check of the code, and its atom
map takes an atom of the module to the one global atom of that name.
-/

namespace Yggdrasil

namespace AtomTable

variable {t : AtomTable} {a b : String} {i : UInt32}

/-- The number of a name. -/
def Numbers (t : AtomTable) (a : String) (i : UInt32) : Prop :=
  ∃ k, t.findIdx? (· = a) = some k ∧ i = UInt32.ofNat k

/-- Interning a name gives its number. -/
theorem numbers_intern (t : AtomTable) (a : String) : Numbers (t.intern a).1 a (t.intern a).2 := by
  unfold intern
  cases h : t.findIdx? (· = a) with
  | some k => exact ⟨k, h, rfl⟩
  | none => exact ⟨t.length, by simp [List.findIdx?_append, h], rfl⟩

/-- Names keep their numbers. -/
theorem Numbers.intern (h : Numbers t a i) (b : String) : Numbers (t.intern b).1 a i := by
  obtain ⟨k, hk, hi⟩ := h
  refine ⟨k, ?_, hi⟩
  unfold AtomTable.intern
  cases t.findIdx? (· = b) with
  | some _ => exact hk
  | none => simp [List.findIdx?_append, hk]

/-- The name of a number, while numbers fit. -/
theorem Numbers.name (h : Numbers t a i) (hfit : t.length ≤ 2 ^ 32) : t.name i = a := by
  obtain ⟨k, hk, rfl⟩ := h
  obtain ⟨hlt, ha, -⟩ := List.findIdx?_eq_some_iff_getElem.mp hk
  rw [AtomTable.name, UInt32.toNat_ofNat', Nat.mod_eq_of_lt (by omega),
    List.getElem?_eq_getElem hlt]
  simpa using ha

end AtomTable

namespace Loader

open List (Forall₂)

/-- An instance passed the verifier, and its atom map is right. -/
structure Sound (t : AtomTable) (m : LoadedModule) : Prop where
  /-- It is verified. -/
  verified : verify m.module = .ok ()
  /-- Its bits are those of its code. -/
  tailers : m.tailers = sentinelReturners m.module
  /-- The map has the number of each atom. -/
  atoms : Forall₂ t.Numbers m.module.atoms m.atomMap

/-- A load under way has verified its module, and numbered the first atoms. -/
def Loc.Sound (t : AtomTable) : Loc → Prop
  | .interning _ module _ _ atomMap =>
    verify module = .ok () ∧ Forall₂ t.Numbers (module.atoms.take atomMap.length) atomMap
  | .compiling _ module _ _ atomMap | .installing _ module _ _ atomMap =>
    verify module = .ok () ∧ Forall₂ t.Numbers module.atoms atomMap
  | _ => True

/-- The instances that serve calls are sound. -/
def Tables.Sound (t : Tables) : Prop :=
  ∀ name, ∀ slot ∈ t.mods name, Loader.Sound t.atoms slot.current

variable {t t' : Tables} {loc loc' : Loc} {atoms atoms' : AtomTable}

private theorem Sound.mono {m : LoadedModule} (h : Loader.Sound atoms m)
    (hle : ∀ a i, atoms.Numbers a i → atoms'.Numbers a i) :
    Loader.Sound atoms' m :=
  ⟨h.verified, h.tailers, h.atoms.imp fun a i => hle a i⟩

private theorem Loc.Sound.mono (h : loc.Sound atoms)
    (hle : ∀ a i, atoms.Numbers a i → atoms'.Numbers a i) : loc.Sound atoms' := by
  cases loc with
  | interning | compiling | installing => exact ⟨h.1, h.2.imp fun a i => hle a i⟩
  | _ => trivial

private theorem numbers_get {l : List String} {l' : List UInt32} (h : Forall₂ atoms.Numbers l l')
    {k : ℕ} {a : String} (ha : l[k]? = some a) :
    ∃ i, l'[k]? = some i ∧ atoms.Numbers a i := by
  obtain ⟨hlen, hall⟩ := List.forall₂_iff_get.mp h
  obtain ⟨hk, rfl⟩ := List.getElem?_eq_some_iff.mp ha
  exact ⟨_, List.getElem?_eq_getElem (hlen ▸ hk), hall k hk _⟩

private theorem sound_update {name : String} {slot : Slot}
    (hslot : Loader.Sound t.atoms slot.current) (ht : t.Sound) :
    Tables.Sound ⟨Function.update t.mods name (some slot), t.atoms⟩ :=
  (Function.forall_update_iff t.mods fun _ o => ∀ slot ∈ o, Loader.Sound t.atoms slot.current).mpr
    ⟨fun _ h => Option.some.inj h ▸ hslot, fun name' _ => ht name'⟩

private theorem advance_sound {published : Bool} (h : advance published t loc = some (t', loc'))
    (hloc : loc.Sound t.atoms) (ht : t.Sound) :
    (∀ a i, t.atoms.Numbers a i → t'.atoms.Numbers a i) ∧ loc'.Sound t'.atoms ∧ t'.Sound := by
  cases loc with
  | idle | done => cases h
  | sealedCheck name bytes useJit =>
    simp only [advance] at h
    split at h <;> cases h <;> exact ⟨fun _ _ h => h, trivial, ht⟩
  | full name bytes useJit sealed =>
    simp only [advance] at h
    split at h
    · cases h
      exact ⟨fun _ _ h => h, trivial, ht⟩
    · split at h
      · cases h
        exact ⟨fun _ _ h => h, trivial, ht⟩
      · next hverify =>
        cases h
        exact ⟨fun _ _ h => h, ⟨hverify, .nil⟩, ht⟩
  | interning name module useJit sealed atomMap =>
    obtain ⟨hverify, hmap⟩ := hloc
    simp only [advance] at h
    split at h
    · next a ha =>
      cases h
      have hle : ∀ x i, t.atoms.Numbers x i → AtomTable.Numbers (t.atoms.intern a).1 x i :=
        fun x i hx => hx.intern a
      refine ⟨hle, ⟨hverify, ?_⟩, fun name slot hslot => (ht name slot hslot).mono hle⟩
      rw [List.length_append, List.length_singleton, List.take_add_one, ha]
      exact List.rel_append (hmap.imp fun x i => hle x i) (.cons (t.atoms.numbers_intern a) .nil)
    · next hnone =>
      cases h
      rw [List.take_of_length_le (List.getElem?_eq_none_iff.mp hnone)] at hmap
      exact ⟨fun _ _ h => h, ⟨hverify, hmap⟩, ht⟩
  | compiling name module useJit sealed atomMap =>
    cases h
    exact ⟨fun _ _ h => h, hloc, ht⟩
  | installing name module jit sealed atomMap =>
    cases h
    have hnew : ∀ v old, Tables.Sound ⟨Function.update t.mods name (some ⟨⟨name, v, module, atomMap,
        jit, sealed, sentinelReturners module⟩, old⟩), t.atoms⟩ :=
      fun v old => sound_update ⟨hloc.1, rfl, hloc.2⟩ ht
    refine ⟨fun _ _ h => h, trivial, ?_⟩
    split
    · split
      · exact ht
      · exact hnew _ _
    · exact hnew _ _

section

variable {ι : Type} [DecidableEq ι] {s s' : State ι} {name name' : String} {m m' : LoadedModule}

private structure Checked (s : State ι) : Prop where
  loc : ∀ i, (s.loc i).Sound s.tables.atoms
  tables : s.tables.Sound
  installed : ∀ name, ∀ m ∈ s.installed name, Loader.Sound s.tables.atoms m

omit [DecidableEq ι] in
private theorem Checked.become (h : Checked s) {t : Tables} (ht : t.Sound)
    (hle : ∀ a i, s.tables.atoms.Numbers a i → t.atoms.Numbers a i) (name : String)
    (hm : m ∈ (s.become t).installed name) : Loader.Sound t.atoms m := by
  simp only [State.become, note] at hm
  split at hm
  · exact (h.installed name m hm).mono hle
  · rcases List.mem_append.mp hm with hm | hm
    · exact (h.installed name m hm).mono hle
    · obtain ⟨slot, hslot, rfl⟩ := Option.map_eq_some_iff.mp (Option.mem_toList.mp hm)
      exact ht name slot hslot

private theorem Checked.step (h : Checked s) (hs : Step s s') : Checked s' := by
  cases hs with
  | @call i loc hover hstart =>
    refine ⟨(Function.forall_update_iff s.loc fun _ l => l.Sound _).mpr
      ⟨?_, fun j _ => h.loc j⟩, h.tables, h.installed⟩
    cases loc with
    | interning | compiling | installing => exact hstart.elim
    | _ => trivial
  | @advance i published t loc hadv =>
    obtain ⟨hle, hloc, ht⟩ := advance_sound hadv (h.loc i) h.tables
    exact ⟨(Function.forall_update_iff s.loc fun _ l => l.Sound _).mpr
      ⟨hloc, fun j _ => (h.loc j).mono hle⟩, ht, fun name m hm => h.become ht hle name hm⟩
  | resolve => exact ⟨h.loc, h.tables, h.installed⟩
  | purge name =>
    have ht : Tables.Sound ⟨purge s.tables.mods name, s.tables.atoms⟩ := by
      unfold purge
      cases hslot : s.tables.mods name with
      | none => exact h.tables
      | some slot => exact sound_update (h.tables name slot hslot) h.tables
    exact ⟨h.loc, ht, fun name m hm => h.become ht (fun _ _ h => h) name hm⟩

private theorem reaches_checked (h : Transition.Reaches Init Step s) : Checked s := by
  refine h.invariant (P := Checked) (fun s hs => ⟨fun i => ?_, fun name slot hslot => ?_,
    fun name m hm => ?_⟩) fun _ _ hinv hs => hinv.step hs
  · rw [hs.loc]
    trivial
  · rw [hs.mods] at hslot
    cases hslot
  · rw [hs.installed] at hm
    cases hm

/-- In every run of loads and purges, an instance that was ever installed passed the verifier,
and no run of one of its functions fails a check of the code. -/
theorem installed_code_is_safe (h : Transition.Reaches Init Step s) (hm : m ∈ s.installed name) :
    verify m.module = .ok () ∧ m.tailers = sentinelReturners m.module ∧
      ∀ {σ : Type} (api : SystemApi σ), api.NeverBadCode → ∀ (limit fuel fnIdx : ℕ) (f : Function),
        m.module.functions[fnIdx]? = some f → ∀ args : List Term, args.length = f.arity.toNat →
        ∀ st e st', Interp.runFunction m.module api limit fuel fnIdx args st = .error e st' →
          (∀ flt, e ≠ .fault flt) ∧ e ≠ .trap .badCode := by
  have hsound := (reaches_checked h).installed name m hm
  refine ⟨hsound.verified, hsound.tailers, fun api hapi limit fuel fnIdx f hf args hargs st e st'
    he => ?_⟩
  obtain ⟨fr, scan, henter, hstart⟩ := Interp.enter_atStart hsound.verified hf hargs.symm
  simp only [Interp.runFunction, Interp.start, henter, pure_bind] at he
  have hbenign := (hstart.runLoop hsound.verified hapi fuel st).error he
  constructor
  · rintro flt rfl
    exact hbenign
  · rintro rfl
    exact hbenign rfl

/-- In every run of loads and purges, while the numbers of atoms fit, the atom map of an
instance has the global atoms of its names, and atoms of two instances are the same exactly
when their names are. -/
theorem atom_maps_agree (h : Transition.Reaches Init Step s)
    (hfit : s.tables.atoms.length ≤ 2 ^ 32) (hm : m ∈ s.installed name)
    (hm' : m' ∈ s.installed name') :
    m.atomMap.map s.tables.atoms.name = m.module.atoms ∧
      ∀ (k k' : ℕ) (a a' : String), m.module.atoms[k]? = some a → m'.module.atoms[k']? = some a' →
        (m.atomMap[k]? = m'.atomMap[k']? ↔ a = a') := by
  have hsound := ((reaches_checked h).installed name m hm).atoms
  have hsound' := ((reaches_checked h).installed name' m' hm').atoms
  constructor
  · have hmap := List.forall₂_map_right_iff.mpr (hsound.imp fun a i ha => (ha.name hfit).symm)
    rw [List.forall₂_eq_eq_eq] at hmap
    exact hmap.symm
  · intro k k' a a' ha ha'
    obtain ⟨i, hi, hnum⟩ := numbers_get hsound ha
    obtain ⟨i', hi', hnum'⟩ := numbers_get hsound' ha'
    rw [hi, hi', Option.some_inj]
    constructor
    · rintro rfl
      rw [← hnum.name hfit, ← hnum'.name hfit]
    · rintro rfl
      obtain ⟨j, hj, rfl⟩ := hnum
      obtain ⟨j', hj', rfl⟩ := hnum'
      rw [Option.some.inj (hj.symm.trans hj')]

/-- A module is loaded at boot, and then another one that shares an atom with it. -/
private theorem two_installed : ∃ (s : State Unit) (m n : LoadedModule),
    Transition.Reaches Init Step s ∧ s.tables.atoms.length ≤ 2 ^ 32 ∧ m ∈ s.installed "m" ∧
    n ∈ s.installed "n" ∧ m.module = idModule "f" "g" ∧ n.module = idModule "h" "f" := by
  have hstarts : (Loc.full "m" (idModule "f" "g").encode false false).Starts := rfl
  have hcall := Transition.Reaches.step (.init boot_init) (Step.call () trivial hstarts)
  have hstarts' : (Loc.full "n" (idModule "h" "f").encode false false).Starts := rfl
  have hcall' := (reaches_drive hcall () 6).step (Step.call () trivial hstarts')
  exact ⟨_, _, _, reaches_drive hcall' () 6, by decide, List.mem_singleton_self _,
    List.mem_singleton_self _, rfl, rfl⟩

/-- The function of a loaded module is verified and runs without a failed check. -/
theorem loaded_function_is_safe : ∃ (s : State Unit) (m : LoadedModule),
    Transition.Reaches Init Step s ∧ m ∈ s.installed "m" ∧ m.module = idModule "f" "g" ∧
    verify m.module = .ok () ∧ ∀ {σ : Type} (api : SystemApi σ), api.NeverBadCode →
      ∀ limit fuel arg st e st', Interp.runFunction m.module api limit fuel 0 [arg] st =
        .error e st' → (∀ flt, e ≠ .fault flt) ∧ e ≠ .trap .badCode := by
  obtain ⟨s, m, -, hs, -, hm, -, hmod, -⟩ := two_installed
  obtain ⟨hverify, -, hsafe⟩ := installed_code_is_safe hs hm
  refine ⟨s, m, hs, hm, hmod, hverify, fun api hapi limit fuel arg => ?_⟩
  exact hsafe api hapi limit fuel 0 _ (by rw [hmod]; rfl) [arg] rfl

/-- Two loaded modules have the same global atom for the name they share, and different ones
for names that differ. -/
theorem shared_atom_agrees : ∃ (s : State Unit) (m n : LoadedModule),
    Transition.Reaches Init Step s ∧ m ∈ s.installed "m" ∧ n ∈ s.installed "n" ∧
    m.module.atoms = ["f", "g"] ∧ n.module.atoms = ["h", "f"] ∧
    m.atomMap.map s.tables.atoms.name = ["f", "g"] ∧
    m.atomMap[0]? = n.atomMap[1]? ∧ m.atomMap[1]? ≠ n.atomMap[0]? := by
  obtain ⟨s, m, n, hs, hfit, hm, hn, hmod, hmod'⟩ := two_installed
  have hatoms : m.module.atoms = ["f", "g"] := by rw [hmod]; rfl
  have hatoms' : n.module.atoms = ["h", "f"] := by rw [hmod']; rfl
  obtain ⟨hnames, hsame⟩ := atom_maps_agree hs hfit hm hn
  refine ⟨s, m, n, hs, hm, hn, hatoms, hatoms', hnames.trans hatoms, ?_, ?_⟩
  · exact (hsame 0 1 "f" "f" (by rw [hatoms]; rfl) (by rw [hatoms']; rfl)).mpr rfl
  · rw [Ne, hsame 1 0 "g" "h" (by rw [hatoms]; rfl) (by rw [hatoms']; rfl)]
    decide

end

end Loader

end Yggdrasil
