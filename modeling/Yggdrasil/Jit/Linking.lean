import Mathlib.Data.List.Pairwise
import Yggdrasil.Bytecode.Codec
import Yggdrasil.Jit.Publish

/-!
# Publication links correctly

The functions of a published module lie in separate aligned places of pages that no other
publication uses, and fetched from there their code is the compiled code, with every
relocation site referring to its target. Displacements fit 32 bits because the code zone
and the kernel image are close.
-/

namespace Yggdrasil

namespace Jit

/-- The bytes a relocation replaces. -/
def RelocEntry.width (r : RelocEntry) : ℕ :=
  match r.kind with
  | .abs8 => 8
  | .pcRel4 => 4

/-- A position of the code belongs to the site of a relocation. -/
def RelocEntry.Covers (r : RelocEntry) (k : ℕ) : Prop :=
  r.offset.toNat ≤ k ∧ k < r.offset.toNat + r.width

/-- The relocations of a function lie inside its code and do not overlap. -/
structure CompiledFn.SitesOk (f : CompiledFn) : Prop where
  /-- Sites lie inside the code. -/
  inside : ∀ r ∈ f.relocs, r.offset.toNat + r.width ≤ f.code.length
  /-- Sites do not overlap. -/
  apart : f.relocs.Pairwise fun r r' =>
    r.offset.toNat + r.width ≤ r'.offset.toNat ∨ r'.offset.toNat + r'.width ≤ r.offset.toNat

/-- What a relocation puts in its site fills it. -/
@[simp] theorem RelocEntry.length_bytes (r : RelocEntry) (target execAt : Word) :
    (r.bytes target execAt).length = r.width := by
  unfold RelocEntry.bytes RelocEntry.width
  cases r.kind <;> exact length_leBytes ..

/-- The number in an absolute site. -/
theorem RelocEntry.leNat_abs8 {r : RelocEntry} (hkind : r.kind = .abs8) (target execAt : Word) :
    leNat (r.bytes target execAt) = (target + r.addend).toNat := by
  rw [RelocEntry.bytes, hkind]
  exact (leNat_leBytes ..).trans (Nat.mod_eq_of_lt (target + r.addend).isLt)

/-- The number in a relative site. -/
theorem RelocEntry.leNat_pcRel4 {r : RelocEntry} (hkind : r.kind = .pcRel4)
    (target execAt : Word) :
    leNat (r.bytes target execAt) = ((target + r.addend - execAt).setWidth 32).toNat := by
  rw [RelocEntry.bytes, hkind]
  exact (leNat_leBytes ..).trans
    (Nat.mod_eq_of_lt ((target + r.addend - execAt).setWidth 32).isLt)

section Layout

/-- Functions are placed one after the other, at multiples of 16. -/
theorem layout_bounds (t : ℕ) (fns : List CompiledFn) : t ≤ (layout t fns).2 ∧
    ∀ p ∈ fns.zip (layout t fns).1,
      16 ∣ p.2 ∧ t ≤ p.2 ∧ p.2 + p.1.code.length ≤ (layout t fns).2 := by
  induction fns generalizing t with
  | nil => exact ⟨Nat.le_refl t, List.forall_mem_nil _⟩
  | cons f fns ih =>
    obtain ⟨htotal, hrest⟩ := ih ((t + 15) / 16 * 16 + f.code.length)
    have hup : t ≤ (t + 15) / 16 * 16 := by omega
    rw [layout]
    dsimp only
    refine ⟨by omega, fun p hp => ?_⟩
    rw [List.zip_cons_cons] at hp
    rcases List.mem_cons.mp hp with rfl | hp
    · exact ⟨Nat.dvd_mul_left .., hup, htotal⟩
    · obtain ⟨halign, hle, hend⟩ := hrest p hp
      exact ⟨halign, by omega, hend⟩

/-- Functions are placed apart. -/
theorem layout_apart (t : ℕ) (fns : List CompiledFn) :
    (fns.zip (layout t fns).1).Pairwise fun p q => p.2 + p.1.code.length ≤ q.2 := by
  induction fns generalizing t with
  | nil => exact List.Pairwise.nil
  | cons f fns ih =>
    rw [layout]
    dsimp only
    rw [List.zip_cons_cons]
    exact List.pairwise_cons.mpr ⟨fun p hp => ((layout_bounds ..).2 p hp).2.1, ih _⟩

/-- Every function has a place. -/
theorem length_layout (t : ℕ) (fns : List CompiledFn) : (layout t fns).1.length = fns.length := by
  induction fns generalizing t with
  | nil => rfl
  | cons f fns ih => exact congrArg (· + 1) (ih _)

/-- Every place is that of some function. -/
theorem layout_mem {fns : List CompiledFn} {t i off : ℕ} (h : (layout t fns).1[i]? = some off) :
    ∃ f, (f, off) ∈ fns.zip (layout t fns).1 := by
  have hi : i < fns.length := by
    rw [← length_layout t fns]
    exact (List.getElem?_eq_some_iff.mp h).1
  exact ⟨_, List.mem_of_getElem? (List.getElem?_zip_eq_some.mpr
    ⟨List.getElem?_eq_getElem hi, h⟩)⟩

/-- The pages have room for the code. -/
theorem le_pagesFor (total : ℕ) : total ≤ pagesFor total * pageSize := by
  unfold pagesFor pageSize
  omega

/-- A function lies inside the pages. -/
theorem layout_room {fns : List CompiledFn} {pages : ℕ} {p : CompiledFn × ℕ}
    (hpages : pages = pagesFor (layout 0 fns).2) (hp : p ∈ fns.zip (layout 0 fns).1) :
    p.2 + p.1.code.length ≤ pages * pageSize := by
  rw [hpages]
  exact ((layout_bounds 0 fns).2 p hp).2.2.trans (le_pagesFor _)

end Layout

section Patches

variable {helpers fnAddrs : List Word} {baseWrite : ℕ} {baseExec : Word}

/-- The store that patches a relocation of the function at `off`. -/
def siteStore (helpers fnAddrs : List Word) (baseWrite : ℕ) (baseExec : Word) (off : ℕ)
    (r : RelocEntry) : ℕ × List UInt8 :=
  (baseWrite + (off + r.offset.toNat),
    r.bytes ((resolveTarget helpers fnAddrs r.target).getD 0)
      (baseExec + BitVec.ofNat 64 off + r.offset.toBitVec.setWidth 64))

/-- Copying functions stores their code. -/
theorem copyAll_eq (ps : List (CompiledFn × ℕ)) (phys : ℕ → UInt8) :
    copyAll baseWrite ps phys =
      Stores.writes (ps.map fun p => (baseWrite + p.2, p.1.code)) phys := by
  induction ps generalizing phys with
  | nil => rfl
  | cons p ps ih => exact ih _

private theorem patch_some {off : ℕ} {r : RelocEntry} {phys : ℕ → UInt8} {target : Word}
    (h : resolveTarget helpers fnAddrs r.target = some target) :
    patch helpers fnAddrs baseWrite baseExec off phys r =
      some (Stores.write (baseWrite + (off + r.offset.toNat)) (r.bytes target
        (baseExec + BitVec.ofNat 64 off + r.offset.toBitVec.setWidth 64)) phys) :=
  Option.bind_eq_some_iff.mpr ⟨target, h, rfl⟩

private theorem patches_eq {off : ℕ} {rs : List RelocEntry} {phys phys' : ℕ → UInt8}
    (h : rs.foldlM (patch helpers fnAddrs baseWrite baseExec off) phys = some phys') :
    (∀ r ∈ rs, (resolveTarget helpers fnAddrs r.target).isSome) ∧
      phys' = Stores.writes (rs.map (siteStore helpers fnAddrs baseWrite baseExec off)) phys := by
  induction rs generalizing phys with
  | nil => exact ⟨List.forall_mem_nil _, (Option.some.inj h).symm⟩
  | cons r rs ih =>
    rw [List.foldlM_cons] at h
    cases htarget : resolveTarget helpers fnAddrs r.target with
    | none => simp [patch, htarget] at h
    | some target =>
      rw [patch_some htarget] at h
      obtain ⟨hsome, heq⟩ := ih h
      refine ⟨List.forall_mem_cons.mpr ⟨by rw [htarget]; rfl, hsome⟩, ?_⟩
      rw [heq, List.map_cons, siteStore, htarget]
      rfl

/-- Patching stores what every relocation puts in its site. -/
theorem patchAll_eq {ps : List (CompiledFn × ℕ)} {phys phys' : ℕ → UInt8}
    (h : patchAll helpers fnAddrs baseWrite baseExec ps phys = some phys') :
    (∀ p ∈ ps, ∀ r ∈ p.1.relocs, (resolveTarget helpers fnAddrs r.target).isSome) ∧
      phys' = Stores.writes (ps.flatMap fun p =>
        p.1.relocs.map (siteStore helpers fnAddrs baseWrite baseExec p.2)) phys := by
  induction ps generalizing phys with
  | nil => exact ⟨List.forall_mem_nil _, (Option.some.inj h).symm⟩
  | cons p ps ih =>
    rw [patchAll] at h
    obtain ⟨mid, hmid, hrest⟩ := Option.bind_eq_some_iff.mp h
    obtain ⟨hsome, rfl⟩ := patches_eq hmid
    obtain ⟨hsome', rfl⟩ := ih hrest
    refine ⟨List.forall_mem_cons.mpr ⟨hsome, hsome'⟩, ?_⟩
    rw [List.flatMap_cons, Stores.writes_append]

end Patches

section Memory

variable {helpers fnAddrs : List Word} {baseWrite : ℕ} {baseExec : Word}
  {ps : List (CompiledFn × ℕ)} {p : CompiledFn × ℕ} {phys : ℕ → UInt8}

private theorem clear_of_ne
    (hps : ps.Pairwise fun p q => p.2 + p.1.code.length ≤ q.2) (hp : p ∈ ps)
    {q : CompiledFn × ℕ} (hq : q ∈ ps) (hne : p ≠ q) :
    p.2 + p.1.code.length ≤ q.2 ∨ q.2 + q.1.code.length ≤ p.2 := by
  have hclear : ps.Pairwise fun p q =>
      p.2 + p.1.code.length ≤ q.2 ∨ q.2 + q.1.code.length ≤ p.2 := hps.imp fun h => .inl h
  have : Std.Symm fun p q : CompiledFn × ℕ =>
      p.2 + p.1.code.length ≤ q.2 ∨ q.2 + q.1.code.length ≤ p.2 := ⟨fun _ _ h => h.symm⟩
  exact hclear.forall hp hq hne

private theorem sites_apart (hps : ps.Pairwise fun p q => p.2 + p.1.code.length ≤ q.2)
    (hsites : ∀ p ∈ ps, p.1.SitesOk) :
    (ps.flatMap fun p => p.1.relocs.map (siteStore helpers fnAddrs baseWrite baseExec p.2)).Pairwise
      Stores.Apart := by
  refine List.pairwise_flatMap.mpr ⟨fun p hp => ?_, ?_⟩
  · refine List.pairwise_map.mpr ((hsites p hp).apart.imp fun h => ?_)
    simp only [Stores.Apart, siteStore, RelocEntry.length_bytes]
    omega
  · refine hps.imp_of_mem fun {p q} hp hq hle => ?_
    intro x hx y hy
    obtain ⟨r, hr, rfl⟩ := List.mem_map.mp hx
    obtain ⟨r', hr', rfl⟩ := List.mem_map.mp hy
    have hin := (hsites p hp).inside r hr
    left
    simp only [siteStore, RelocEntry.length_bytes]
    omega

/-- Outside of its sites, the code of a function is in memory as compiled. -/
theorem code_in_memory (hps : ps.Pairwise fun p q => p.2 + p.1.code.length ≤ q.2)
    (hsites : ∀ p ∈ ps, p.1.SitesOk) (hp : p ∈ ps) {k : ℕ} {b : UInt8}
    (hb : p.1.code[k]? = some b) (hk : ∀ r ∈ p.1.relocs, ¬r.Covers k) :
    Stores.writes (ps.flatMap fun p =>
        p.1.relocs.map (siteStore helpers fnAddrs baseWrite baseExec p.2))
      (copyAll baseWrite ps phys) (baseWrite + (p.2 + k)) = b := by
  have hlen : k < p.1.code.length := (List.getElem?_eq_some_iff.mp hb).1
  rw [Stores.writes_of_outside fun w hw => ?_]
  · rw [copyAll_eq, ← Nat.add_assoc]
    refine Stores.writes_of_mem (List.pairwise_map.mpr (hps.imp fun h => ?_))
      (List.mem_map.mpr ⟨p, hp, rfl⟩) hb
    left
    simp only
    omega
  · obtain ⟨q, hq, hw⟩ := List.mem_flatMap.mp hw
    obtain ⟨r, hr, rfl⟩ := List.mem_map.mp hw
    have hin := (hsites q hq).inside r hr
    simp only [Stores.Outside, siteStore, RelocEntry.length_bytes]
    by_cases hpq : p = q
    · subst hpq
      have hnot := hk r hr
      simp only [RelocEntry.Covers, not_and_or, Nat.not_le, Nat.not_lt] at hnot
      omega
    · have hclear := clear_of_ne hps hp hq hpq
      omega

/-- A site holds what its relocation puts there. -/
theorem site_in_memory (hps : ps.Pairwise fun p q => p.2 + p.1.code.length ≤ q.2)
    (hsites : ∀ p ∈ ps, p.1.SitesOk) (hp : p ∈ ps) {r : RelocEntry} (hr : r ∈ p.1.relocs)
    {i : ℕ} {b : UInt8}
    (hb : (siteStore helpers fnAddrs baseWrite baseExec p.2 r).2[i]? = some b) :
    Stores.writes (ps.flatMap fun p =>
        p.1.relocs.map (siteStore helpers fnAddrs baseWrite baseExec p.2))
      phys (baseWrite + (p.2 + r.offset.toNat) + i) = b :=
  Stores.writes_of_mem (sites_apart hps hsites)
    (List.mem_flatMap.mpr ⟨p, hp, List.mem_map.mpr ⟨r, hr, rfl⟩⟩) hb

end Memory

section Pages

variable {va : Word} {frame n : ℕ} {table table' : ℕ → Option ℕ}

/-- Mapping pages succeeds only on free pages, and keeps what was mapped. -/
theorem mapPages_spec (h : mapPages va frame n table = some table') :
    (∀ i < n, table ((va + BitVec.ofNat 64 (i * pageSize)).toNat / pageSize) = none ∧
      table' ((va + BitVec.ofNat 64 (i * pageSize)).toNat / pageSize) = some (frame + i)) ∧
    ∀ page, table page ≠ none → table' page = table page := by
  induction n generalizing table' with
  | zero =>
    cases h
    exact ⟨fun i hi => absurd hi (Nat.not_lt_zero i), fun page _ => rfl⟩
  | succ n ih =>
    rw [mapPages] at h
    obtain ⟨mid, hmid, hlast⟩ := Option.bind_eq_some_iff.mp h
    obtain ⟨hpages, hkept⟩ := ih hmid
    unfold mapTo at hlast
    split at hlast
    · rename_i hfree
      cases hlast
      have hother : ∀ page, mid page ≠ none →
          Function.update mid ((va + BitVec.ofNat 64 (n * pageSize)).toNat / pageSize)
            (some (frame + n)) page = mid page := by
        intro page hpage
        refine Function.update_of_ne (fun heq => ?_) _ _
        rw [heq] at hpage
        exact hpage hfree
      refine ⟨fun i hi => ?_, fun page hpage => ?_⟩
      · rcases Nat.lt_succ_iff_lt_or_eq.mp hi with hi | rfl
        · obtain ⟨hnone, hsome⟩ := hpages i hi
          exact ⟨hnone, (hother _ (by rw [hsome]; exact Option.some_ne_none _)).trans hsome⟩
        · refine ⟨?_, Function.update_self ..⟩
          by_contra hne
          exact hne ((hkept _ hne).symm.trans hfree)
      · have hmid' := hkept page hpage
        exact (hother page (by rw [hmid']; exact hpage)).trans hmid'
    · cases hlast

end Pages

/-- A part of the code zone that a publication took. -/
structure Publication where
  /-- Its first address. -/
  base : Word
  /-- Its pages. -/
  pages : ℕ
  deriving DecidableEq, Repr

/-- Where a publication ends. -/
def Publication.stop (q : Publication) : ℕ := q.base.toNat + q.pages * pageSize

/-- The kernel image: its pages are mapped from `imageBase` on, two at least, and less than
1 GiB of them. -/
structure ImageMapped (image : ℕ) (s : CodeZone) : Prop where
  /-- It has two pages. -/
  two_pages : 2 * pageSize ≤ image
  /-- It is smaller than 1 GiB. -/
  small : image < 2 ^ 30
  /-- Its pages are mapped. -/
  mapped : ∀ page, imageBase ≤ page * pageSize → page * pageSize < imageBase + image →
    s.table page ≠ none

/-- Addresses in the code zone or in the kernel image. -/
def Near (image : ℕ) (a : Word) : Prop :=
  (codeZoneBase ≤ a.toNat ∧ a.toNat < imageBase) ∨
    (imageBase ≤ a.toNat ∧ a.toNat < imageBase + image)

/-- States after a sequence of publications that stayed below the kernel image. In between,
other code may change memory and mappings, but not where the next publication goes. -/
inductive Published (image : ℕ) : CodeZone → List Publication → Prop
  | boot {s : CodeZone} : s.next = BitVec.ofNat 64 codeZoneBase → ImageMapped image s →
      Published image s []
  | other {s s' : CodeZone} {pubs : List Publication} : Published image s pubs →
      s'.next = s.next → ImageMapped image s' → Published image s' pubs
  | publish {s s' : CodeZone} {pubs : List Publication} {helpers : List Word}
      {fns : List CompiledFn} {frame : ℕ} {m : JitModule} : Published image s pubs →
      publish helpers fns frame s = some (m, s') →
      (Publication.mk s.next m.pages).stop ≤ imageBase →
      Published image s' (pubs ++ [⟨s.next, m.pages⟩])

/-- What holds of the code zone after publications. -/
structure ZoneOk (image : ℕ) (s : CodeZone) (pubs : List Publication) : Prop where
  /-- The kernel image is mapped. -/
  image : ImageMapped image s
  /-- The next publication starts at a page. -/
  aligned : s.next.toNat % pageSize = 0
  /-- It starts in the zone, or just behind it if the zone is full. -/
  range : codeZoneBase ≤ s.next.toNat ∧ s.next.toNat ≤ imageBase + pageSize
  /-- It starts behind all others. -/
  behind : ∀ q ∈ pubs, q.stop ≤ s.next.toNat
  /-- Publications are behind each other. -/
  apart : pubs.Pairwise fun q q' => q.stop ≤ q'.base.toNat

section Publish

variable {helpers : List Word} {fns : List CompiledFn} {frame : ℕ} {s s' : CodeZone}
  {m : JitModule} {image : ℕ} {pubs : List Publication}

/-- What a publication does. -/
theorem publish_spec (h : publish helpers fns frame s = some (m, s')) :
    m.fnAddrs = (layout 0 fns).1.map (fun off => s.next + BitVec.ofNat 64 off) ∧
    m.frame = frame ∧ m.pages = pagesFor (layout 0 fns).2 ∧
    s'.next = s.next + BitVec.ofNat 64 ((m.pages + 1) * pageSize) ∧
    mapPages s.next frame m.pages s.table = some s'.table ∧
    ∃ phys, patchAll helpers m.fnAddrs (frame * pageSize) s.next (fns.zip (layout 0 fns).1)
      (copyAll (frame * pageSize) (fns.zip (layout 0 fns).1) phys) = some s'.phys := by
  unfold publish mapCode at h
  obtain ⟨⟨va, mid⟩, hmap, hrest⟩ := Option.bind_eq_some_iff.mp h
  obtain ⟨table, htable, hva⟩ := Option.bind_eq_some_iff.mp hmap
  cases hva
  obtain ⟨phys, hphys, hdone⟩ := Option.bind_eq_some_iff.mp hrest
  cases hdone
  exact ⟨rfl, rfl, rfl, rfl, htable, _, hphys⟩

private theorem toNat_add_ofNat {a : Word} {x : ℕ} (h : a.toNat + x < 2 ^ 64) :
    (a + BitVec.ofNat 64 x).toNat = a.toNat + x := by
  rw [BitVec.toNat_add, BitVec.toNat_ofNat, Nat.mod_eq_of_lt (a := x) (by omega),
    Nat.mod_eq_of_lt h]

/-- A publication stays below the kernel image, whose pages are taken. -/
theorem ZoneOk.below (hzone : ZoneOk image s pubs) {n : ℕ} {table : ℕ → Option ℕ} (hn : 1 ≤ n)
    (hmap : mapPages s.next frame n s.table = some table) :
    s.next.toNat + n * pageSize ≤ imageBase := by
  obtain ⟨hlower, hupper⟩ := hzone.range
  have haligned := hzone.aligned
  have htwo := hzone.image.two_pages
  by_contra hover
  -- some page of the publication is one of the first two of the image
  obtain ⟨i, hi, hge, hlt⟩ : ∃ i < n, imageBase ≤ s.next.toNat + i * pageSize ∧
      s.next.toNat + i * pageSize ≤ imageBase + pageSize := by
    by_cases hle : s.next.toNat ≤ imageBase
    · refine ⟨(imageBase - s.next.toNat) / pageSize, ?_, ?_, ?_⟩
      all_goals
        unfold imageBase pageSize codeZoneBase at *
        omega
    · exact ⟨0, hn, by omega, by omega⟩
  have hfree := ((mapPages_spec hmap).1 i hi).1
  have haddr : (s.next + BitVec.ofNat 64 (i * pageSize)).toNat = s.next.toNat + i * pageSize :=
    toNat_add_ofNat (by unfold imageBase pageSize at *; omega)
  rw [haddr] at hfree
  refine hzone.image.mapped _ ?_ ?_ hfree
  all_goals
    unfold imageBase pageSize at *
    omega

/-- Publications keep the code zone in order. -/
theorem ZoneOk.publish (hzone : ZoneOk image s pubs)
    (h : Jit.publish helpers fns frame s = some (m, s')) :
    ZoneOk image s' (pubs ++ [⟨s.next, m.pages⟩]) ∧
      (Publication.mk s.next m.pages).stop ≤ imageBase := by
  obtain ⟨-, -, hpages, hnext, hmap, -⟩ := publish_spec h
  have hone : 1 ≤ m.pages := hpages ▸ Nat.le_max_right ..
  have hbelow := hzone.below hone hmap
  obtain ⟨hlower, -⟩ := hzone.range
  have haligned := hzone.aligned
  have hto : s'.next.toNat = s.next.toNat + (m.pages + 1) * pageSize := by
    rw [hnext]
    refine toNat_add_ofNat ?_
    unfold imageBase pageSize at *
    omega
  have hstop : (Publication.mk s.next m.pages).stop ≤ s'.next.toNat := by
    change s.next.toNat + m.pages * pageSize ≤ s'.next.toNat
    rw [hto, Nat.add_mul]
    omega
  refine ⟨⟨⟨hzone.image.two_pages, hzone.image.small, fun page hge hlt => ?_⟩, ?_, ?_, ?_, ?_⟩,
    hbelow⟩
  · have hmapped := hzone.image.mapped page hge hlt
    rw [(mapPages_spec hmap).2 page hmapped]
    exact hmapped
  · rw [hto]
    unfold pageSize at *
    omega
  · rw [hto]
    unfold pageSize imageBase at *
    omega
  · intro q hq
    rcases List.mem_append.mp hq with hq | hq
    · have hle := hzone.behind q hq
      omega
    · rw [List.mem_singleton.mp hq]
      exact hstop
  · refine List.pairwise_append.mpr ⟨hzone.apart, List.pairwise_singleton .., ?_⟩
    intro q hq q' hq'
    rw [List.mem_singleton.mp hq']
    exact hzone.behind q hq

/-- The code zone is in order after publications. -/
theorem Published.zoneOk (h : Published image s pubs) : ZoneOk image s pubs := by
  induction h with
  | boot hnext himage =>
    refine ⟨himage, ?_, ?_, List.forall_mem_nil _, List.Pairwise.nil⟩
    · rw [hnext]
      decide
    · rw [hnext]
      decide
  | other _ hnext himage ih =>
    exact ⟨himage, hnext ▸ ih.aligned, hnext ▸ ih.range, hnext ▸ ih.behind, ih.apart⟩
  | publish _ hpub _ ih => exact (ih.publish hpub).1

/-- What is fetched from a publication is what is in its frames. -/
theorem fetch_eq (hzone : ZoneOk image s pubs) (h : publish helpers fns frame s = some (m, s'))
    {x : ℕ} (hx : x < m.pages * pageSize) :
    s'.fetch (s.next + BitVec.ofNat 64 x) = some (s'.phys (frame * pageSize + x)) := by
  obtain ⟨-, -, hpages, -, hmap, -⟩ := publish_spec h
  have hone : 1 ≤ m.pages := hpages ▸ Nat.le_max_right ..
  have hbelow := hzone.below hone hmap
  have haligned := hzone.aligned
  have hi : x / pageSize < m.pages := Nat.div_lt_of_lt_mul (by rwa [Nat.mul_comm])
  have haddr : (s.next + BitVec.ofNat 64 x).toNat = s.next.toNat + x := by
    refine toNat_add_ofNat ?_
    unfold imageBase at hbelow
    omega
  have hstart : (s.next + BitVec.ofNat 64 (x / pageSize * pageSize)).toNat =
      s.next.toNat + x / pageSize * pageSize := by
    refine toNat_add_ofNat ?_
    unfold imageBase pageSize at *
    omega
  have hmapped := ((mapPages_spec hmap).1 (x / pageSize) hi).2
  rw [hstart] at hmapped
  have hpage : (s.next.toNat + x / pageSize * pageSize) / pageSize =
      (s.next.toNat + x) / pageSize := by
    unfold pageSize at *
    omega
  have hphys : (frame + x / pageSize) * pageSize + (s.next.toNat + x) % pageSize =
      frame * pageSize + x := by
    unfold pageSize at *
    omega
  rw [hpage] at hmapped
  rw [CodeZone.fetch, haddr, hmapped, Option.map_some, hphys]

private theorem mapM_range {bs : List UInt8} {f : ℕ → Option UInt8}
    (h : ∀ i < bs.length, f i = bs[i]?) : (List.range bs.length).mapM f = some bs := by
  induction bs using List.reverseRecOn with
  | nil => rfl
  | append_singleton bs b ih =>
    have hinit : (List.range bs.length).mapM f = some bs := ih fun i hi => by
      rw [h i (by rw [List.length_append]; omega), List.getElem?_append_left hi]
    have hlast : f bs.length = some b := by
      rw [h bs.length (by simp), List.getElem?_concat_length]
    rw [List.length_append, List.length_singleton, List.range_succ, List.mapM_append, hinit]
    simp [hlast]

/-- Bytes that are fetched one by one make up a number. -/
theorem fetchLe_eq {addr : Word} {bs : List UInt8} {n : ℕ} (hn : bs.length = n)
    (h : ∀ i < n, s.fetch (addr + BitVec.ofNat 64 i) = bs[i]?) :
    s.fetchLe addr n = some (leNat bs) := by
  subst hn
  rw [CodeZone.fetchLe, mapM_range h, Option.map_some]

end Publish

section Displacement

variable {image : ℕ} {t a e : Word}

/-- The code zone and the kernel image are close. -/
theorem Near.range (h : Near image t) (himage : image < 2 ^ 30) :
    codeZoneBase ≤ t.toNat ∧ t.toNat < imageBase + 2 ^ 30 := by
  unfold Near codeZoneBase imageBase at *
  omega

/-- Adding a small addend to such an address is exact. -/
theorem toNat_add_addend (ht : codeZoneBase ≤ t.toNat ∧ t.toNat < imageBase + 2 ^ 30)
    (ha : |a.toInt| < 2 ^ 20) : ((t + a).toNat : ℤ) = t.toNat + a.toInt := by
  rw [abs_lt] at ha
  have hcond := BitVec.toInt_eq_toNat_cond a
  have hlt := a.isLt
  rw [BitVec.toNat_add]
  unfold codeZoneBase imageBase at ht
  split at hcond <;> omega

/-- The way between two such addresses fits an `i32`. -/
theorem displacement_exact (ht : codeZoneBase ≤ t.toNat ∧ t.toNat < imageBase + 2 ^ 30)
    (ha : |a.toInt| < 2 ^ 20) (he : codeZoneBase ≤ e.toNat ∧ e.toNat < imageBase) :
    (BitVec.ofNat 32 ((t + a - e).setWidth 32).toNat).toInt =
      t.toNat + a.toInt - (e.toNat : ℤ) := by
  have hsum := toNat_add_addend ht ha
  rw [abs_lt] at ha
  rw [BitVec.ofNat_toNat, BitVec.setWidth_eq, BitVec.toInt_eq_toNat_cond, BitVec.toNat_setWidth,
    BitVec.toNat_sub]
  have hlt := (t + a).isLt
  generalize (t + a).toNat = w at *
  unfold codeZoneBase imageBase at *
  split <;> omega

end Displacement

/-- A relocation site as it is fetched. -/
theorem site_fetched {image : ℕ} {helpers : List Word} {fns : List CompiledFn} {frame : ℕ}
    {s s' : CodeZone} {pubs : List Publication} {m : JitModule} (hzone : ZoneOk image s pubs)
    (hsites : ∀ f ∈ fns, f.SitesOk) (hpub : publish helpers fns frame s = some (m, s'))
    {f : CompiledFn} {off : ℕ} (hp : (f, off) ∈ fns.zip (layout 0 fns).1) {r : RelocEntry}
    (hr : r ∈ f.relocs) :
    ∃ target, resolveTarget helpers m.fnAddrs r.target = some target ∧
      s'.fetchLe (s.next + BitVec.ofNat 64 (off + r.offset.toNat)) r.width =
        some (leNat (r.bytes target (s.next + BitVec.ofNat 64 (off + r.offset.toNat)))) := by
  obtain ⟨-, -, hpages, -, -, phys, hpatch⟩ := publish_spec hpub
  obtain ⟨hresolved, hphys⟩ := patchAll_eq hpatch
  obtain ⟨target, htarget⟩ := Option.isSome_iff_exists.mp (hresolved _ hp r hr)
  have hsites' : ∀ p ∈ fns.zip (layout 0 fns).1, p.1.SitesOk :=
    fun p hp => hsites _ (List.of_mem_zip hp).1
  have hin : r.offset.toNat + r.width ≤ f.code.length := (hsites' _ hp).inside r hr
  have hend : off + f.code.length ≤ m.pages * pageSize := layout_room hpages hp
  have hexec : s.next + BitVec.ofNat 64 off + r.offset.toBitVec.setWidth 64 =
      s.next + BitVec.ofNat 64 (off + r.offset.toNat) := by
    rw [BitVec.ofNat_add, BitVec.add_assoc, ← UInt32.toNat_toBitVec, BitVec.ofNat_toNat]
  refine ⟨target, htarget, fetchLe_eq (r.length_bytes ..) fun i hi => ?_⟩
  have haddr : s.next + BitVec.ofNat 64 (off + r.offset.toNat) + BitVec.ofNat 64 i =
      s.next + BitVec.ofNat 64 (off + r.offset.toNat + i) := by
    rw [BitVec.ofNat_add (off + r.offset.toNat), BitVec.add_assoc]
  have hlt : i < (r.bytes target (s.next + BitVec.ofNat 64 (off + r.offset.toNat))).length := by
    rw [RelocEntry.length_bytes]
    exact hi
  have hbyte := List.getElem?_eq_getElem hlt
  rw [haddr, fetch_eq hzone hpub (by omega), hphys, hbyte, ← Nat.add_assoc]
  refine congrArg some (site_in_memory (layout_apart 0 fns) hsites' hp hr ?_)
  rw [siteStore, htarget, hexec]
  exact hbyte

/-- A published module is linked: `base` is where its pages start, and `s` the state its
code is fetched in. -/
structure Linked (helpers : List Word) (fns : List CompiledFn) (base : Word) (m : JitModule)
    (s : CodeZone) : Prop where
  /-- Function `i` has its address, at a multiple of 16 and inside the pages. -/
  placed : ∀ (i : ℕ) (f : CompiledFn) (off : ℕ), (fns.zip (layout 0 fns).1)[i]? = some (f, off) →
    m.fnAddrs[i]? = some (base + BitVec.ofNat 64 off) ∧ 16 ∣ off ∧
      off + f.code.length ≤ m.pages * pageSize
  /-- All functions have one. -/
  all : m.fnAddrs.length = fns.length
  /-- Different functions do not overlap. -/
  apart : ∀ (i j : ℕ) (f g : CompiledFn) (off off' : ℕ), i < j →
    (fns.zip (layout 0 fns).1)[i]? = some (f, off) →
    (fns.zip (layout 0 fns).1)[j]? = some (g, off') → off + f.code.length ≤ off'
  /-- Bytes outside of relocation sites are those of the compiled code. -/
  code : ∀ f off, (f, off) ∈ fns.zip (layout 0 fns).1 → ∀ k b, f.code[k]? = some b →
    (∀ r ∈ f.relocs, ¬r.Covers k) → s.fetch (base + BitVec.ofNat 64 (off + k)) = some b
  /-- A site of eight bytes holds the target with its addend. -/
  abs8 : ∀ f off, (f, off) ∈ fns.zip (layout 0 fns).1 → ∀ r ∈ f.relocs, r.kind = .abs8 →
    ∃ target v, resolveTarget helpers m.fnAddrs r.target = some target ∧
      s.fetchLe (base + BitVec.ofNat 64 (off + r.offset.toNat)) 8 = some v ∧
      (v : ℤ) = target.toNat + r.addend.toInt
  /-- A site of four bytes holds an `i32`, exactly the way from the site to the target with
  its addend. -/
  pcRel4 : ∀ f off, (f, off) ∈ fns.zip (layout 0 fns).1 → ∀ r ∈ f.relocs, r.kind = .pcRel4 →
    ∃ target v, resolveTarget helpers m.fnAddrs r.target = some target ∧
      s.fetchLe (base + BitVec.ofNat 64 (off + r.offset.toNat)) 4 = some v ∧
      (BitVec.ofNat 32 v).toInt = target.toNat + r.addend.toInt -
        ((base + BitVec.ofNat 64 (off + r.offset.toNat)).toNat : ℤ)

/-- Functions that can be linked near a kernel image. -/
structure Linkable (image : ℕ) (helpers : List Word) (fns : List CompiledFn) : Prop where
  /-- Relocations lie inside the code and do not overlap. -/
  sites : ∀ f ∈ fns, f.SitesOk
  /-- Addends are small. -/
  addend : ∀ f ∈ fns, ∀ r ∈ f.relocs, |r.addend.toInt| < 2 ^ 20
  /-- Direct-bound targets are in the code zone or in the kernel image. -/
  target : ∀ f ∈ fns, ∀ r ∈ f.relocs, ∀ a, r.target = .address a → Near image a
  /-- So are helpers. -/
  helper : ∀ a ∈ helpers, Near image a

section Linked

variable {image : ℕ} {helpers : List Word} {fns : List CompiledFn} {frame : ℕ}
  {s s' : CodeZone} {pubs : List Publication} {m : JitModule}

private theorem toNat_place (hbelow : (Publication.mk s.next m.pages).stop ≤ imageBase) {x : ℕ}
    (hx : x ≤ m.pages * pageSize) : (s.next + BitVec.ofNat 64 x).toNat = s.next.toNat + x := by
  refine toNat_add_ofNat ?_
  change s.next.toNat + m.pages * pageSize ≤ imageBase at hbelow
  unfold imageBase at hbelow
  omega

/-- Helpers, functions of the module and direct-bound calls are all close to the zone. -/
private theorem target_near (hzone : ZoneOk image s pubs) (hlink : Linkable image helpers fns)
    (hpub : publish helpers fns frame s = some (m, s')) {f : CompiledFn} (hf : f ∈ fns)
    {r : RelocEntry} (hr : r ∈ f.relocs) {target : Word}
    (hresolve : resolveTarget helpers m.fnAddrs r.target = some target) :
    codeZoneBase ≤ target.toNat ∧ target.toNat < imageBase + 2 ^ 30 := by
  obtain ⟨haddrs, -, hpages, -⟩ := publish_spec hpub
  have hbelow := (hzone.publish hpub).2
  have hlower := hzone.range.1
  cases hkind : r.target with
  | helper h =>
    rw [hkind] at hresolve
    exact (hlink.helper target (List.mem_of_getElem? hresolve)).range hzone.image.small
  | address a =>
    rw [hkind] at hresolve
    exact Option.some.inj hresolve ▸ (hlink.target f hf r hr a hkind).range hzone.image.small
  | function i =>
    rw [hkind, resolveTarget, haddrs, List.getElem?_map] at hresolve
    obtain ⟨off, hoff, rfl⟩ := Option.map_eq_some_iff.mp hresolve
    obtain ⟨g, hp⟩ := layout_mem hoff
    have hend : off + g.code.length ≤ m.pages * pageSize := layout_room hpages hp
    rw [toNat_place hbelow (by omega)]
    change s.next.toNat + m.pages * pageSize ≤ imageBase at hbelow
    unfold codeZoneBase imageBase at *
    omega

/-- A publication that goes through is linked. -/
theorem ZoneOk.linked (hzone : ZoneOk image s pubs) (hlink : Linkable image helpers fns)
    (hpub : Jit.publish helpers fns frame s = some (m, s')) :
    Linked helpers fns s.next m s' := by
  obtain ⟨haddrs, -, hpages, -, -, phys, hpatch⟩ := publish_spec hpub
  obtain ⟨-, hphys⟩ := patchAll_eq hpatch
  have hbelow := (hzone.publish hpub).2
  have hlower := hzone.range.1
  have hapart := layout_apart 0 fns
  have hmem : ∀ p ∈ fns.zip (layout 0 fns).1, p.1 ∈ fns := fun p hp => (List.of_mem_zip hp).1
  refine ⟨?_, ?_, ?_, ?_, ?_, ?_⟩
  · intro i f off hi
    have hin := List.mem_of_getElem? hi
    refine ⟨?_, ((layout_bounds 0 fns).2 _ hin).1, layout_room hpages hin⟩
    rw [haddrs, List.getElem?_map, (List.getElem?_zip_eq_some.mp hi).2, Option.map_some]
  · rw [haddrs, List.length_map, length_layout]
  · intro i j f g off off' hij hi hj
    obtain ⟨hilt, hi⟩ := List.getElem?_eq_some_iff.mp hi
    obtain ⟨hjlt, hj⟩ := List.getElem?_eq_some_iff.mp hj
    have hle := List.pairwise_iff_getElem.mp hapart i j hilt hjlt hij
    rw [hi, hj] at hle
    exact hle
  · intro f off hp k b hb hk
    have hlt : k < f.code.length := (List.getElem?_eq_some_iff.mp hb).1
    have hend : off + f.code.length ≤ m.pages * pageSize := layout_room hpages hp
    rw [fetch_eq hzone hpub (by omega), hphys]
    exact congrArg some (code_in_memory hapart (fun p hp => hlink.sites _ (hmem p hp)) hp hb hk)
  · intro f off hp r hr hkind
    obtain ⟨target, hresolve, hfetch⟩ := site_fetched hzone hlink.sites hpub hp hr
    refine ⟨target, _, hresolve, ?_, toNat_add_addend
      (target_near hzone hlink hpub (hmem _ hp) hr hresolve) (hlink.addend f (hmem _ hp) r hr)⟩
    rwa [RelocEntry.leNat_abs8 hkind, RelocEntry.width, hkind] at hfetch
  · intro f off hp r hr hkind
    obtain ⟨target, hresolve, hfetch⟩ := site_fetched hzone hlink.sites hpub hp hr
    refine ⟨target, _, hresolve, ?_, displacement_exact
      (target_near hzone hlink hpub (hmem _ hp) hr hresolve) (hlink.addend f (hmem _ hp) r hr) ?_⟩
    · rwa [RelocEntry.leNat_pcRel4 hkind, RelocEntry.width, hkind] at hfetch
    · have hin : r.offset.toNat + r.width ≤ f.code.length :=
        (hlink.sites f (hmem _ hp)).inside r hr
      have hend : off + f.code.length ≤ m.pages * pageSize := layout_room hpages hp
      have hwidth : r.width = 4 := by rw [RelocEntry.width, hkind]
      rw [toNat_place hbelow (by omega)]
      change s.next.toNat + m.pages * pageSize ≤ imageBase at hbelow
      omega

end Linked

section Succeeds

variable {image : ℕ} {helpers : List Word} {fns : List CompiledFn} {frame : ℕ} {s : CodeZone}
  {pubs : List Publication}

/-- A publication has room: its pages are free and below the kernel image. -/
structure HasRoom (s : CodeZone) (pages : ℕ) : Prop where
  /-- Its pages are below the kernel image. -/
  fits : (Publication.mk s.next pages).stop ≤ imageBase
  /-- They are free. -/
  free : ∀ i < pages, s.table (s.next.toNat / pageSize + i) = none

/-- The indices of relocation targets exist. -/
def TargetsExist (helpers : List Word) (fns : List CompiledFn) : Prop :=
  ∀ f ∈ fns, ∀ r ∈ f.relocs, (∀ h, r.target = .helper h → h.toNat < helpers.length) ∧
    ∀ i, r.target = .function i → i.toNat < fns.length

/-- Free pages can be mapped, and those behind them stay as they are. -/
private theorem exists_mapped {va : Word} {table : ℕ → Option ℕ} {n : ℕ}
    (hfits : va.toNat + n * pageSize < 2 ^ 64)
    (hfree : ∀ i < n, table (va.toNat / pageSize + i) = none) :
    ∃ table', mapPages va frame n table = some table' ∧
      ∀ page, va.toNat / pageSize + n ≤ page → table' page = table page := by
  induction n with
  | zero => exact ⟨table, rfl, fun _ _ => rfl⟩
  | succ n ih =>
    rw [Nat.succ_mul] at hfits
    obtain ⟨mid, hmid, hbehind⟩ := ih (by omega) fun i hi => hfree i (by omega)
    have hpage : (va + BitVec.ofNat 64 (n * pageSize)).toNat / pageSize =
        va.toNat / pageSize + n := by
      rw [toNat_add_ofNat (by omega), Nat.add_mul_div_right _ _ (by decide)]
    have hnone : mid (va.toNat / pageSize + n) = none :=
      (hbehind _ (Nat.le_refl _)).trans (hfree n (Nat.lt_succ_self n))
    refine ⟨Function.update mid (va.toNat / pageSize + n) (some (frame + n)), ?_, ?_⟩
    · rw [mapPages, hmid, hpage]
      exact if_pos hnone
    · intro page hle
      have hne : page ≠ va.toNat / pageSize + n := by omega
      rw [Function.update_of_ne hne]
      exact hbehind page (by omega)

private theorem exists_patched {fnAddrs : List Word} {baseWrite : ℕ} {baseExec : Word}
    {ps : List (CompiledFn × ℕ)}
    (h : ∀ p ∈ ps, ∀ r ∈ p.1.relocs, (resolveTarget helpers fnAddrs r.target).isSome)
    (phys : ℕ → UInt8) : ∃ phys', patchAll helpers fnAddrs baseWrite baseExec ps phys =
      some phys' := by
  have hone : ∀ (off : ℕ) (rs : List RelocEntry),
      (∀ r ∈ rs, (resolveTarget helpers fnAddrs r.target).isSome) → ∀ phys, ∃ phys',
        rs.foldlM (patch helpers fnAddrs baseWrite baseExec off) phys = some phys' := by
    intro off rs
    induction rs with
    | nil => exact fun _ phys => ⟨phys, rfl⟩
    | cons r rs ih =>
      intro hrs phys
      obtain ⟨hr, hrest⟩ := List.forall_mem_cons.mp hrs
      obtain ⟨target, htarget⟩ := Option.isSome_iff_exists.mp hr
      obtain ⟨phys', hphys'⟩ := ih hrest _
      refine ⟨phys', ?_⟩
      rw [List.foldlM_cons, patch_some htarget]
      exact hphys'
  induction ps generalizing phys with
  | nil => exact ⟨phys, rfl⟩
  | cons p ps ih =>
    obtain ⟨hp, hrest⟩ := List.forall_mem_cons.mp h
    obtain ⟨mid, hmid⟩ := hone p.2 p.1.relocs hp phys
    obtain ⟨phys', hphys'⟩ := ih hrest mid
    exact ⟨phys', Option.bind_eq_some_iff.mpr ⟨mid, hmid, hphys'⟩⟩

/-- A publication goes through if it has room and its targets exist. -/
theorem exists_published (hroom : HasRoom s (pagesFor (layout 0 fns).2))
    (htargets : TargetsExist helpers fns) :
    ∃ m s', publish helpers fns frame s = some (m, s') := by
  have hfits : s.next.toNat + pagesFor (layout 0 fns).2 * pageSize ≤ imageBase := hroom.fits
  obtain ⟨table, htable, -⟩ := @exists_mapped frame s.next s.table _
    (by unfold imageBase at hfits; omega) hroom.free
  have hresolve : ∀ p ∈ fns.zip (layout 0 fns).1, ∀ r ∈ p.1.relocs, (resolveTarget helpers
      ((layout 0 fns).1.map fun off => s.next + BitVec.ofNat 64 off) r.target).isSome := by
    intro p hp r hr
    obtain ⟨hhelper, hfunction⟩ := htargets p.1 (List.of_mem_zip hp).1 r hr
    cases hkind : r.target with
    | helper h =>
      rw [resolveTarget, List.getElem?_eq_getElem (hhelper h hkind)]
      rfl
    | address a => rfl
    | function i =>
      have hi : i.toNat < ((layout 0 fns).1.map fun off =>
          s.next + BitVec.ofNat 64 off).length := by
        rw [List.length_map, length_layout]
        exact hfunction i hkind
      rw [resolveTarget, List.getElem?_eq_getElem hi]
      rfl
  obtain ⟨phys, hphys⟩ := exists_patched hresolve (copyAll (frame * pageSize)
    (fns.zip (layout 0 fns).1) (Stores.write (frame * pageSize)
      (List.replicate (pagesFor (layout 0 fns).2 * pageSize) 0xCC) s.phys))
  have hcode : mapCode frame (pagesFor (layout 0 fns).2) s = some _ :=
    Option.bind_eq_some_iff.mpr ⟨table, htable, rfl⟩
  exact ⟨_, _, Option.bind_eq_some_iff.mpr
    ⟨_, hcode, Option.bind_eq_some_iff.mpr ⟨phys, hphys, rfl⟩⟩⟩

end Succeeds

/-- Publication links correctly. After any sequence of publications that stayed below the
kernel image, take functions whose relocations lie inside their code without overlapping,
with addends below 2^20, and whose targets are in the code zone or in the kernel image. If
there is room for them they are published; and whenever they are, they are linked, in pages
of the code zone that no other publication uses. -/
theorem publish_links {image : ℕ} {helpers : List Word} {fns : List CompiledFn} {frame : ℕ}
    {s : CodeZone} {pubs : List Publication} (hrun : Published image s pubs)
    (hlink : Linkable image helpers fns) :
    (HasRoom s (pagesFor (layout 0 fns).2) → TargetsExist helpers fns →
      ∃ m s', publish helpers fns frame s = some (m, s')) ∧
    ∀ m s', publish helpers fns frame s = some (m, s') →
      Linked helpers fns s.next m s' ∧ codeZoneBase ≤ s.next.toNat ∧
      (Publication.mk s.next m.pages).stop ≤ imageBase ∧
      (pubs ++ [Publication.mk s.next m.pages]).Pairwise fun q q' => q.stop ≤ q'.base.toNat := by
  have hzone := hrun.zoneOk
  refine ⟨exists_published, fun m s' hpub => ?_⟩
  obtain ⟨hzone', hbelow⟩ := hzone.publish hpub
  exact ⟨hzone.linked hlink hpub, hzone.range.1, hbelow, hzone'.apart⟩

/-- A function that calls something and returns. -/
def callFn (target : RelocTarget) : CompiledFn :=
  ⟨[0xE8, 0, 0, 0, 0, 0xC3], [⟨1, .pcRel4, target, -4⟩]⟩

/-- Functions that call a helper, and the first of them. -/
def callFns : List CompiledFn := [callFn (.helper 0), callFn (.function 0)]

/-- A helper in the kernel image. -/
def imageHelper : Word := BitVec.ofNat 64 (imageBase + 16)

/-- The code zone at boot, with a kernel image of two pages. -/
def bootZone : CodeZone where
  next := BitVec.ofNat 64 codeZoneBase
  table page :=
    if imageBase ≤ page * pageSize ∧ page * pageSize < imageBase + 8192 then some 0 else none
  phys _ := 0

private theorem bootZone_published : Published 8192 bootZone [] := by
  refine .boot rfl ⟨Nat.le_refl _, by omega, fun page hge hlt hnone => ?_⟩
  have hsome : bootZone.table page = some 0 := if_pos ⟨hge, hlt⟩
  rw [hsome] at hnone
  cases hnone

private theorem forall_callFns {P : CompiledFn → Prop} :
    (∀ f ∈ callFns, P f) ↔ P (callFn (.helper 0)) ∧ P (callFn (.function 0)) := by
  rw [callFns, List.forall_mem_cons, List.forall_mem_singleton]

private theorem callFns_linkable : Linkable 8192 [imageHelper] callFns where
  sites := forall_callFns.mpr
    ⟨⟨by decide, List.pairwise_singleton ..⟩, ⟨by decide, List.pairwise_singleton ..⟩⟩
  addend := by decide
  target := forall_callFns.mpr
    ⟨List.forall_mem_singleton.mpr nofun, List.forall_mem_singleton.mpr nofun⟩
  helper := List.forall_mem_singleton.mpr (.inr (by decide))

private theorem callFns_pages : pagesFor (layout 0 callFns).2 = 1 := by decide

private theorem callFns_targets : TargetsExist [imageHelper] callFns := by
  refine forall_callFns.mpr ⟨List.forall_mem_singleton.mpr ⟨fun h hh => ?_, nofun⟩,
    List.forall_mem_singleton.mpr ⟨nofun, fun i hi => ?_⟩⟩
  · cases hh
    decide
  · cases hi
    decide

/-- A page at the end of the zone that is not mapped is room for the functions. -/
private theorem callFns_room {s : CodeZone} (hfits : s.next.toNat + pageSize ≤ imageBase)
    (hfree : s.table (s.next.toNat / pageSize) = none) :
    HasRoom s (pagesFor (layout 0 callFns).2) := by
  rw [callFns_pages]
  refine ⟨by rwa [Publication.stop, Nat.one_mul], fun i hi => ?_⟩
  rwa [Nat.lt_one_iff.mp hi]

/-- The functions are published twice. The second time they are linked as well, behind the pages
of the first. -/
theorem callFns_linked : ∃ (m m' : JitModule) (s s' : CodeZone),
    publish [imageHelper] callFns 7 bootZone = some (m, s) ∧
    publish [imageHelper] callFns 8 s = some (m', s') ∧
    Linked [imageHelper] callFns s.next m' s' ∧
    (Publication.mk bootZone.next m.pages).stop ≤ s.next.toNat := by
  obtain ⟨hexists, hbelow⟩ := @publish_links _ _ _ 7 _ _ bootZone_published callFns_linkable
  obtain ⟨m, s, hpub⟩ := hexists (callFns_room (by decide) (by decide)) callFns_targets
  obtain ⟨-, -, hpages, hnext, hmap, -⟩ := publish_spec hpub
  rw [callFns_pages] at hpages
  rw [hpages] at hnext hmap
  have htable : Function.update bootZone.table (codeZoneBase / pageSize) (some 7) = s.table :=
    Option.some.inj hmap
  have hroom : HasRoom s (pagesFor (layout 0 callFns).2) := by
    refine callFns_room ?_ ?_
    · rw [hnext]
      decide
    · rw [hnext, ← htable]
      decide
  have hrun := bootZone_published.publish hpub (hbelow m s hpub).2.2.1
  obtain ⟨hexists', hlinked⟩ := @publish_links _ _ _ 8 _ _ hrun callFns_linkable
  obtain ⟨m', s', hpub'⟩ := hexists' hroom callFns_targets
  obtain ⟨hlink, -, -, hapart⟩ := hlinked m' s' hpub'
  exact ⟨m, m', s, s', hpub, hpub', hlink, (List.pairwise_pair.mp hapart :)⟩

end Jit

end Yggdrasil
