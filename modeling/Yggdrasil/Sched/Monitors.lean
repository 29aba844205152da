import Yggdrasil.Sched.History

/-!
# Monitors fire once

A reference returned by `monitor` is registered on the process watched until that one
is reaped, and reaping it sends the only `DOWN` message with the reference. If the
process is gone at the call, the message is sent at once.
-/

namespace Yggdrasil.Sched

variable {n : ℕ} {μ : Type}

namespace Machine

variable {s s' : Machine n μ}

/-- A `DOWN` message that a step puts has a reference some core held, or tells of a
process that the step removed. -/
theorem Step.puts_down (hinv : s.Inv) (hstep : Step s s') {v r : ℕ} {f : Fragment μ}
    (hf : f ∈ s.puts s' v) (hr : f.ref? = some r) :
    (∃ c w, (r, w) ∈ (s.locs c).refs) ∨ ∃ pid p, s.table pid = some p ∧
      s'.table pid = none ∧ (r, v) ∈ p.monitors ∧ f = .down r pid p.exitReason := by
  have hsame : s'.table v = s.table v → False := fun heq => by
    rw [puts_of_table_eq heq] at hf
    cases hf
  cases hstep.effect hinv with
  | quiet _ _ htable =>
    have hnil := puts_of_locally (htable v)
    rw [List.filterMap_eq_nil_iff] at hnil
    rw [hnil f hf] at hr
    cases hr
  | alloc _ _ _ _ _ _ _ htable => exact (hsame (by rw [htable])).elim
  | leave _ _ _ _ _ _ htable => exact (hsame (by rw [htable])).elim
  | pick _ _ _ _ _ _ _ _ htable => exact (hsame (by rw [htable])).elim
  | insert c w child link ref ms hloc _ _ hfree htable =>
    rw [puts_of_insert rfl htable] at hf
    cases hf
  | register c w target r' p hloc _ _ hp _ htable =>
    rw [puts_of_register hp htable] at hf
    cases hf
  | noproc c w target r' hloc _ _ _ htable =>
    rw [puts_of_receive htable] at hf
    split at hf
    · rw [List.mem_singleton.mp hf] at hr
      cases hr
      exact .inl ⟨c, w, by rw [hloc]; exact List.mem_singleton_self _⟩
    · cases hf
  | reap c dead d _ _ _ hd _ htable =>
    rw [puts_of_reap htable] at hf
    split at hf
    · rw [downs, List.mem_map] at hf
      obtain ⟨⟨r', w⟩, hm, rfl⟩ := hf
      rw [List.mem_filter, decide_eq_true_eq] at hm
      obtain ⟨hm, rfl⟩ := hm
      cases hr
      exact .inr ⟨dead, d, hd, by rw [htable, if_pos rfl], hm, rfl⟩
    · cases hf

/-- A monitor stays registered, or its process is removed and its watcher told. -/
theorem Step.registered (hinv : s.Inv) (hstep : Step s s') {pid r w : ℕ} {p x' : Process μ}
    (hp : s.table pid = some p) (hm : (r, w) ∈ p.monitors) (hx' : s'.table w = some x')
    (halive : x'.state ≠ .dead) :
    (∃ p', s'.table pid = some p' ∧ (r, w) ∈ p'.monitors) ∨
      .down r pid p.exitReason ∈ s.puts s' w := by
  cases hstep.effect hinv with
  | quiet _ _ htable =>
    have hrel := htable pid
    rw [hp] at hrel
    generalize s'.table pid = o at hrel
    cases hrel with
    | some h => exact .inl ⟨_, rfl, h.monitors.symm ▸ hm⟩
  | alloc _ _ _ _ _ _ _ htable => exact .inl ⟨p, by rw [htable]; exact hp, hm⟩
  | leave _ _ _ _ _ _ htable => exact .inl ⟨p, by rw [htable]; exact hp, hm⟩
  | pick _ _ _ _ _ _ _ _ htable => exact .inl ⟨p, by rw [htable]; exact hp, hm⟩
  | insert c parent child link ref ms hloc _ _ hfree htable =>
    have hne : pid ≠ child := by
      rintro rfl
      rw [hp] at hfree
      cases hfree
    refine .inl ?_
    rw [htable, if_neg hne, hp]
    split
    · exact ⟨_, rfl, hm⟩
    · exact ⟨_, rfl, hm⟩
  | register c me target r' p' hloc _ _ hp' _ htable =>
    refine .inl ?_
    rw [htable, Function.update_apply]
    split
    · rename_i heq
      rw [heq, hp'] at hp
      cases hp
      exact ⟨_, rfl, List.mem_append_left _ hm⟩
    · exact ⟨p, hp, hm⟩
  | noproc c me target r' hloc _ _ _ htable =>
    refine .inl ?_
    rw [htable, hp]
    split
    · exact ⟨_, rfl, by simpa using hm⟩
    · exact ⟨_, rfl, hm⟩
  | reap c dead d _ _ _ hd _ htable =>
    by_cases hdead : pid = dead
    · subst hdead
      rw [hp] at hd
      cases hd
      -- the watcher is alive after the step, so it was before and is not the one reaped
      have hw := htable w
      rw [hx'] at hw
      split at hw
      · cases hw
      · rename_i hne
        obtain ⟨x, hx, rfl⟩ := Option.map_eq_some_iff.mp hw.symm
        have hxalive : x.state ≠ .dead := fun h => halive (aftermath_dead w h)
        rw [puts_of_reap htable, if_pos ⟨hne, x, hx, hxalive⟩]
        exact .inr (List.mem_map.mpr ⟨(r, w), List.mem_filter.mpr ⟨hm, by simp⟩, rfl⟩)
    · refine .inl ⟨_, by rw [htable, if_neg hdead, hp]; rfl, ?_⟩
      rw [aftermath_monitors]
      exact hm

/-- A core holds the reference, or it is left for a spawn. -/
def Held (s : Machine n μ) (r : ℕ) : Prop :=
  (∃ c, r ∈ (s.locs c).refs.map Prod.fst) ∨ r ∈ s.monitorAtSpawn.toList.map Prod.fst

private theorem Held.of_update {c : Fin n} {l : Loc} {r : ℕ} (h : s'.Held r)
    (hlocs : s'.locs = Function.update s.locs c l) :
    r ∈ l.refs.map Prod.fst ∨ (∃ d, r ∈ (s.locs d).refs.map Prod.fst) ∨
      r ∈ s'.monitorAtSpawn.toList.map Prod.fst := by
  rcases h with ⟨d, hd⟩ | hslot
  · rw [hlocs, Function.update_apply] at hd
    split at hd
    · exact .inl hd
    · exact .inr (.inl ⟨d, hd⟩)
  · exact .inr (.inr hslot)

private theorem Held.of_goes {c : Fin n} {l : Loc} {r : ℕ} (h : s'.Held r)
    (hslot : s'.refSlot = s.refSlot) (hlocs : s'.locs = Function.update s.locs c l)
    (hrefs : l.refs = []) : s.Held r := by
  have hcases := h.of_update hlocs
  rw [hrefs, show s'.monitorAtSpawn = s.monitorAtSpawn from congrArg Prod.fst hslot] at hcases
  exact hcases.resolve_left (by simp)

/-- A reference that is held is new or was held before. -/
theorem Step.held (hinv : s.Inv) (hstep : Step s s') {r : ℕ} (hr : s'.Held r) :
    r = s.nextRef ∨ s.Held r := by
  cases hstep.effect hinv with
  | quiet hslot hlocs _ =>
    rcases hlocs with heq | ⟨c, l, heq, hgoes⟩
    · rw [Held, heq, show s'.monitorAtSpawn = s.monitorAtSpawn from congrArg Prod.fst hslot] at hr
      exact .inr hr
    · exact .inr (hr.of_goes hslot heq hgoes.refs)
  | alloc c w pos _ hpos hslot hlocs _ =>
    have hslot' : s'.monitorAtSpawn = s.monitorAtSpawn := congrArg Prod.fst hslot
    have hcases := hr.of_update hlocs
    rw [hslot'] at hcases
    refine hcases.imp (fun hmem => ?_) id
    rcases hpos with rfl | ⟨target, rfl⟩ <;> exact List.mem_singleton.mp hmem
  | leave c w r' hloc hslot hlocs _ =>
    have hslot' : s'.monitorAtSpawn = some (r', w) := congrArg Prod.fst hslot
    have hcases := hr.of_update hlocs
    rw [hslot'] at hcases
    rcases hcases with hmem | hcore | hmem
    · cases hmem
    · exact .inr (.inl hcore)
    · exact .inr (.inl ⟨c, by rw [hloc]; exact hmem⟩)
  | pick c w child link ref hloc hslot hlocs _ =>
    have hslot' : s'.monitorAtSpawn = none := congrArg Prod.fst hslot
    have hcases := hr.of_update hlocs
    rw [hslot'] at hcases
    rcases hcases with hmem | hcore | hmem
    · exact .inr (.inr hmem)
    · exact .inr (.inl hcore)
    · cases hmem
  | insert _ _ _ _ _ _ _ hslot hlocs _ _ => exact .inr (hr.of_goes hslot hlocs rfl)
  | register _ _ _ _ _ _ hslot hlocs _ _ _ => exact .inr (hr.of_goes hslot hlocs rfl)
  | noproc _ _ _ _ _ hslot hlocs _ _ => exact .inr (hr.of_goes hslot hlocs rfl)
  | reap _ _ _ hslot _ hlocs _ _ _ => exact .inr (hr.of_goes hslot hlocs rfl)

/-- References are counted up. -/
theorem Step.nextRef_le (hinv : s.Inv) (hstep : Step s s') : s.nextRef ≤ s'.nextRef := by
  have hsame : s'.refSlot = s.refSlot → s.nextRef ≤ s'.nextRef := fun h =>
    (congrArg Prod.snd h).ge
  cases hstep.effect hinv with
  | quiet hslot _ _ => exact hsame hslot
  | alloc _ _ _ _ _ hslot _ _ =>
    have hnext : s'.nextRef = s.nextRef + 1 := congrArg Prod.snd hslot
    omega
  | leave _ _ _ _ hslot _ _ => exact (congrArg Prod.snd hslot : s'.nextRef = s.nextRef).ge
  | pick _ _ _ _ _ _ hslot _ _ => exact (congrArg Prod.snd hslot : s'.nextRef = s.nextRef).ge
  | insert _ _ _ _ _ _ _ hslot _ _ _ => exact hsame hslot
  | register _ _ _ _ _ _ hslot _ _ _ _ => exact hsame hslot
  | noproc _ _ _ _ _ hslot _ _ _ => exact hsame hslot
  | reap _ _ _ hslot _ _ _ _ _ => exact hsame hslot

end Machine

/-- What is true of a call of `monitor` that returned. -/
structure CallOk (s : Machine n μ) (h : History μ) (call : MonitorCall) : Prop where
  /-- The reference was given out. -/
  lt : call.ref < s.nextRef
  /-- The watcher got a pid, or is the boot code. -/
  known : s.Known call.watcher ∨ call.watcher = 0
  /-- The reference is not held any more. -/
  held : ¬s.Held call.ref
  /-- It is registered on the process watched only. -/
  entry : ∀ pid p w, s.table pid = some p → (call.ref, w) ∈ p.monitors →
    pid = call.target ∧ w = call.watcher ∧ call.gone = false
  /-- It is sent to the watcher only, with the right reason. -/
  box : ∀ v f, f ∈ h.delivered v → f.ref? = some call.ref → v = call.watcher ∧
    ∃ reason, f = .down call.ref call.target reason ∧
      if call.gone then reason = "noproc" else h.exits call.target = some reason
  /-- As long as the watcher lives, the message is sent or will be. -/
  owed : ∀ x, s.table call.watcher = some x → x.state ≠ .dead →
    (∃ p, s.table call.target = some p ∧ (call.ref, call.watcher) ∈ p.monitors) ∨
      ∃ f ∈ h.delivered call.watcher, f.ref? = some call.ref

/-- Reasons are recorded for reaped processes only. -/
def ExitsOk (s : Machine n μ) (h : History μ) : Prop :=
  ∀ pid reason, h.exits pid = some reason → pid ∈ s.reaped

section Step

open Machine

variable {s s' : Machine n μ} {h : History μ} {call : MonitorCall}

/-- A reason recorded stays. -/
theorem ExitsOk.exits_after (hinv : s.Inv) (hexits : ExitsOk s h) {pid : ℕ} {reason : String}
    (hreason : h.exits pid = some reason) : (h.after s s').exits pid = some reason := by
  have hnone := hinv.table_of_reaped (hexits pid reason hreason)
  simp [History.after, hnone, hreason]

/-- A process that is removed leaves its reason. -/
theorem exits_of_removed {pid : ℕ} {p : Process μ} (hp : s.table pid = some p)
    (hgone : s'.table pid = none) : (h.after s s').exits pid = some p.exitReason := by
  simp [History.after, hp, hgone]

/-- A step records reasons of reaped processes only. -/
theorem ExitsOk.step (hinv : s.Inv) (hexits : ExitsOk s h) (hstep : Step s s') :
    ExitsOk s' (h.after s s') := by
  intro pid reason hreason
  cases hp : s.table pid with
  | none =>
    have hold : h.exits pid = some reason := by simpa [History.after, hp] using hreason
    exact Step.reaped_subset hstep (hexits pid reason hold)
  | some p =>
    have hknown : s.Known pid := .inl (by rw [hp]; rfl)
    cases hp' : s'.table pid with
    | none =>
      have hknown' := hknown.step hinv hstep
      rw [Known, hp'] at hknown'
      exact hknown'.resolve_left (by simp)
    | some p' =>
      have hold : h.exits pid = some reason := by simpa [History.after, hp, hp'] using hreason
      exact Step.reaped_subset hstep (hexits pid reason hold)

/-- A step keeps a call that returned in order. -/
theorem CallOk.step (hinv : s.Inv) (hexits : ExitsOk s h) (hcall : CallOk s h call)
    (hstep : Step s s') : CallOk s' (h.after s s') call := by
  have hcore : ∀ c w, (call.ref, w) ∉ (s.locs c).refs := fun c w hmem =>
    hcall.held (.inl ⟨c, List.mem_map.mpr ⟨_, hmem, rfl⟩⟩)
  refine ⟨hcall.lt.trans_le (Step.nextRef_le hinv hstep), ?_, fun hheld => ?_,
    fun pid p' w hp' hm => ?_, fun v f hf hr => ?_, fun x' hx' halive => ?_⟩
  · exact hcall.known.imp_left fun hknown => hknown.step hinv hstep
  · rcases Step.held hinv hstep hheld with hnew | hold
    · have hlt := hcall.lt
      omega
    · exact hcall.held hold
  · have hfree : ¬∃ c, (call.ref, w) ∈ (s.locs c).refs := fun ⟨c, hm'⟩ => hcore c w hm'
    rcases Step.entry hinv hstep hp' with ⟨p, hp, hfollows⟩ | hnew
    · exact hcall.entry pid p w hp ((hfollows.monitors _ hm).resolve_right hfree)
    · exact absurd (hnew.monitors _ hm) hfree
  · rcases List.mem_append.mp hf with hf | hf
    · obtain ⟨hv, reason, heq, hreason⟩ := hcall.box v f hf hr
      refine ⟨hv, reason, heq, ?_⟩
      by_cases hgone : call.gone = true
      · rw [if_pos hgone] at hreason ⊢
        exact hreason
      · rw [if_neg hgone] at hreason ⊢
        exact hexits.exits_after hinv hreason
    · rcases Step.puts_down hinv hstep hf hr with ⟨c, w, hm⟩ | ⟨pid, p, hp, hgone, hm, rfl⟩
      · exact absurd hm (hcore c w)
      · obtain ⟨rfl, rfl, hgone'⟩ := hcall.entry pid p v hp hm
        rw [hgone']
        exact ⟨rfl, p.exitReason, rfl, exits_of_removed hp hgone⟩
  · have hknown : s.Known call.watcher := by
      refine hcall.known.resolve_right fun hzero => ?_
      rw [hzero] at hx'
      exact (hinv.step hstep).ne_zero hx' rfl
    obtain ⟨x, hx, hfollows⟩ :=
      (Step.entry hinv hstep hx').resolve_right fun hnew => hnew.new hknown
    rcases hcall.owed x hx (mt hfollows.dead halive) with ⟨p, hp, hm⟩ | ⟨f, hf, hr⟩
    · refine (Step.registered hinv hstep hp hm hx' halive).imp_right fun hmem => ?_
      exact ⟨_, List.mem_append_right _ hmem, rfl⟩
    · exact .inr ⟨f, List.mem_append_left _ hf, hr⟩

/-- A reference registered on a process is used for nothing else. -/
theorem CallOk.of_registered {r w target : ℕ} {p : Process μ} (hok : RefsOk s h)
    (hw : s.Known w ∨ w = 0) (hp : s.table target = some p) (hm : (r, w) ∈ p.monitors) :
    CallOk s h ⟨r, w, target, false⟩ := by
  have hentry : ∀ pid q v, s.table pid = some q → (r, v) ∈ q.monitors →
      r ∈ refsAt s h (.entry pid) := fun pid q v hq hv => by
    rw [refsAt, hq]
    exact List.mem_map.mpr ⟨_, hv, rfl⟩
  have hr := hentry target p w hp hm
  refine ⟨hok.lt r _ hr, hw, ?_, fun pid q v hq hv => ?_, fun v f hf hfr => ?_,
    fun _ _ _ => .inl ⟨p, hp, hm⟩⟩
  · rintro (⟨c, hc⟩ | hslot)
    · cases hok.unique r (.entry target) (.core c) hr hc
    · cases hok.unique r (.entry target) .slot hr hslot
  · cases hok.unique r _ _ hr (hentry pid q v hq hv)
    rw [hp] at hq
    cases hq
    have hnodup := hok.nodup (.entry target)
    rw [refsAt, hp] at hnodup
    have hpair := List.inj_on_of_nodup_map hnodup hv hm rfl
    exact ⟨rfl, congrArg Prod.snd hpair, rfl⟩
  · cases hok.unique r (.entry target) (.box v) hr (List.mem_filterMap.mpr ⟨f, hf, hfr⟩)

/-- A reference of a call that found nobody is sent at once, or dropped if the caller is
dead too. -/
theorem CallOk.of_noproc {c : Fin n} {r w target : ℕ} (hok : RefsOk s h)
    (hw : s'.Known w ∨ w = 0)
    (hloc : s.locs c = .exec w (.monitor target r)) (hslot : s'.refSlot = s.refSlot)
    (hlocs : s'.locs = Function.update s.locs c (.exec w .body))
    (htable : ∀ q, s'.table q =
      if q = w then (s.table q).map (.receive [.down r target "noproc"]) else s.table q) :
    CallOk s' (h.after s s') ⟨r, w, target, true⟩ := by
  have hr : r ∈ refsAt s h (.core c) := by
    rw [refsAt, hloc]
    exact List.mem_singleton_self r
  have hnext : s'.nextRef = s.nextRef := congrArg Prod.snd hslot
  refine ⟨lt_of_lt_of_eq (hok.lt r _ hr) hnext.symm, hw, ?_, fun pid q v hq hv => ?_,
    fun v f hf hfr => ?_, fun x' hx' halive => .inr ?_⟩
  · rintro (⟨d, hd⟩ | hmem)
    · rw [hlocs, Function.update_apply] at hd
      split at hd
      · cases hd
      · rename_i hne
        have hcd := hok.unique r (.core c) (.core d) hr hd
        exact hne (by rw [Place.core.inj hcd])
    · rw [show s'.monitorAtSpawn = s.monitorAtSpawn from congrArg Prod.fst hslot] at hmem
      cases hok.unique r (.core c) .slot hr hmem
  · have hold : r ∈ refsAt s h (.entry pid) := by
      have hmonitors : ∃ q₀, s.table pid = some q₀ ∧ (r, v) ∈ q₀.monitors := by
        rw [htable] at hq
        split at hq
        · obtain ⟨q₀, hq₀, rfl⟩ := Option.map_eq_some_iff.mp hq
          exact ⟨q₀, hq₀, by simpa using hv⟩
        · exact ⟨q, hq, hv⟩
      obtain ⟨q₀, hq₀, hmem⟩ := hmonitors
      rw [refsAt, hq₀]
      exact List.mem_map.mpr ⟨_, hmem, rfl⟩
    cases hok.unique r (.core c) (.entry pid) hr hold
  · rcases List.mem_append.mp hf with hold | hnew
    · cases hok.unique r (.core c) (.box v) hr (List.mem_filterMap.mpr ⟨f, hold, hfr⟩)
    · rw [puts_of_receive htable] at hnew
      split at hnew
      · rename_i hv
        exact ⟨hv.1, "noproc", List.mem_singleton.mp hnew, rfl⟩
      · cases hnew
  · have hw' := htable w
    rw [hx', if_pos rfl] at hw'
    obtain ⟨x, hx, rfl⟩ := Option.map_eq_some_iff.mp hw'.symm
    have hputs := @puts_of_receive n μ s s' w w _ htable
    rw [if_pos ⟨rfl, x, hx, fun hdead => halive (by simpa using hdead)⟩] at hputs
    refine ⟨.down r target "noproc", List.mem_append_right _ ?_, rfl⟩
    rw [hputs]
    exact List.mem_singleton_self _

/-- A step that returns from `monitor` leaves the call in order. -/
theorem CallOk.of_returns (hinv : s.Inv) (hok : RefsOk s h) (hstep : Step s s')
    (hret : s.Returns s' call) : CallOk s' (h.after s s') call := by
  obtain ⟨r, w, target, gone⟩ := call
  obtain ⟨hgone, c, hloc, hloc'⟩ := hret
  dsimp only at hgone hloc hloc'
  have hok' := hok.step hinv hstep
  have hw : s'.Known w ∨ w = 0 := by
    by_cases hzero : w = 0
    · exact .inr hzero
    · have howner : (s.cpu c).loc.owner = w := by
        rw [show (s.cpu c).loc = _ from hloc]
        rfl
      obtain ⟨p, hp, -⟩ := hinv.owned howner hzero
      have hknown : s.Known w := .inl (by rw [hp]; rfl)
      exact .inl (hknown.step hinv hstep)
  -- the step is one of the core that returns, and only `monitor` returns so
  have hmoved : ∀ d l, s'.locs = Function.update s.locs d l → d = c ∧ l = .exec w .body := by
    intro d l hlocs
    rw [hlocs, Function.update_apply] at hloc'
    split at hloc'
    · exact ⟨Eq.symm ‹_›, hloc'⟩
    · rw [hloc] at hloc'
      cases hloc'
  cases hstep.effect hinv with
  | quiet _ hlocs _ =>
    rcases hlocs with heq | ⟨d, l, heq, hgoes⟩
    · rw [heq, hloc] at hloc'
      cases hloc'
    · obtain ⟨rfl, rfl⟩ := hmoved d l heq
      rw [hloc] at hgoes
      exact absurd rfl (hgoes target r)
  | alloc d v pos _ hpos _ hlocs _ =>
    have hpos' := (hmoved d _ hlocs).2
    rcases hpos with rfl | ⟨t, rfl⟩ <;> cases hpos'
  | leave d _ _ _ _ hlocs _ => cases (hmoved d _ hlocs).2
  | pick d _ _ _ _ _ _ hlocs _ => cases (hmoved d _ hlocs).2
  | insert d _ _ _ _ _ _ _ hlocs _ _ => cases (hmoved d _ hlocs).2
  | register d v t r' p hloc₁ _ hlocs hp halive htable =>
    obtain ⟨rfl, -⟩ := hmoved d _ hlocs
    rw [hloc] at hloc₁
    cases hloc₁
    have hgone' : gone = false := by simpa [Machine.gone, hp, halive] using hgone
    subst hgone'
    have hp' : s'.table target = some (p.watch (r, w)) := by rw [htable, Function.update_self]
    exact .of_registered hok' hw hp' (List.mem_append_right _ (List.mem_singleton_self _))
  | noproc d v t r' hloc₁ hslot hlocs hdead htable =>
    obtain ⟨rfl, -⟩ := hmoved d _ hlocs
    rw [hloc] at hloc₁
    cases hloc₁
    have hgone' : gone = true := by
      cases hp : s.table target with
      | none => simpa [Machine.gone, hp] using hgone
      | some p => simpa [Machine.gone, hp, hdead p hp] using hgone
    subst hgone'
    exact .of_noproc hok hw hloc hslot hlocs htable
  | reap d _ _ _ _ hlocs _ _ _ => cases (hmoved d _ hlocs).2

end Step

/-- All that holds of a run and its history. -/
structure Recorded.Inv (s : Machine n μ) (h : History μ) : Prop where
  /-- The scheduler is in order. -/
  inv : s.Inv
  /-- References are used once. -/
  refs : RefsOk s h
  /-- Reasons are those of reaped processes. -/
  exits : ExitsOk s h
  /-- Calls of `monitor` are in order. -/
  calls : ∀ call ∈ h.calls, CallOk s h call

section Runs

variable {s s' : Machine n μ} {h : History μ}

/-- A step keeps the history in order. -/
theorem Recorded.Inv.step (hrec : Recorded.Inv s h) (hstep : Step s s') :
    Recorded.Inv s' (h.after s s') := by
  refine ⟨hrec.inv.step hstep, hrec.refs.step hrec.inv hstep, hrec.exits.step hrec.inv hstep,
    fun call hcall => ?_⟩
  rcases hcall with hold | hnew
  · exact (hrec.calls call hold).step hrec.inv hrec.exits hstep
  · exact .of_returns hrec.inv hrec.refs hstep hnew

/-- Every run keeps its history in order. -/
theorem Recorded.invariant (hrun : Recorded Step s h) : Recorded.Inv s h := by
  refine Transition.Reaches.invariant
    (P := fun x : Machine n μ × History μ => Recorded.Inv x.1 x.2) ?_ ?_ hrun
  · rintro ⟨s, h⟩ ⟨hinit, rfl⟩
    have hnone := hinit.2.1
    have hrefs : ∀ a, refsAt s .empty a = [] := by
      intro a
      cases a with
      | core c =>
        rw [refsAt, Machine.locs, hinit.1 c]
        rfl
      | slot =>
        rw [refsAt, hinit.2.2.2.2.2.1]
        rfl
      | entry pid =>
        rw [refsAt, hnone]
        rfl
      | box w => rfl
    refine ⟨.init hinit, ⟨fun r a b ha => ?_, fun a => ?_, fun r a ha => ?_⟩,
      fun pid reason hreason => ?_, fun call hcall => ?_⟩
    · rw [hrefs] at ha
      cases ha
    · rw [hrefs]
      exact List.nodup_nil
    · rw [hrefs] at ha
      cases ha
    · cases hreason
    · cases hcall
  · rintro _ _ hrec (@⟨s, s', h, hstep⟩)
    exact hrec.step hstep

/-- The reason that a message gives for a call, if it is a `DOWN` message about it. -/
def MonitorCall.reason? (call : MonitorCall) : Fragment μ → Option String
  | .sent _ => none
  | .down ref target reason =>
    if ref = call.ref ∧ target = call.target then some reason else none

/-- The reasons of the `DOWN` messages about a call that were put in the mailbox of its
watcher. -/
def History.downs (h : History μ) (call : MonitorCall) : List String :=
  (h.delivered call.watcher).filterMap call.reason?

/-- The watcher is registered on the process watched, which is still in the table. -/
def Machine.Registered (s : Machine n μ) (call : MonitorCall) : Prop :=
  ∃ p, s.table call.target = some p ∧ (call.ref, call.watcher) ∈ p.monitors

private theorem reason?_eq_some_iff {call : MonitorCall} {f : Fragment μ} {reason : String} :
    call.reason? f = some reason ↔ f = .down call.ref call.target reason := by
  cases f with
  | sent msg => simp [MonitorCall.reason?]
  | down ref target reason' =>
    rw [MonitorCall.reason?, Option.ite_none_right_eq_some, Option.some.injEq,
      Fragment.down.injEq, and_assoc]

private theorem mem_downs {call : MonitorCall} {reason : String} : reason ∈ h.downs call ↔
    .down call.ref call.target reason ∈ h.delivered call.watcher := by
  rw [History.downs, List.mem_filterMap]
  constructor
  · rintro ⟨f, hf, hreason⟩
    rw [← reason?_eq_some_iff.mp hreason]
    exact hf
  · intro hmem
    exact ⟨_, hmem, reason?_eq_some_iff.mpr rfl⟩

private theorem length_downs_le (call : MonitorCall) (h : History μ) :
    (h.downs call).length ≤ (refsAt s h (.box call.watcher)).count call.ref := by
  rw [History.downs, refsAt]
  induction h.delivered call.watcher with
  | nil => exact Nat.zero_le _
  | cons f fs ih =>
    have hmono : (fs.filterMap Fragment.ref?).count call.ref ≤
        ((f :: fs).filterMap Fragment.ref?).count call.ref :=
      ((List.sublist_cons_self f fs).filterMap _).count_le _
    cases hreason : call.reason? f with
    | none =>
      rw [List.filterMap_cons_none hreason]
      omega
    | some reason =>
      have href : f.ref? = some call.ref := by
        rw [reason?_eq_some_iff.mp hreason]
        rfl
      rw [List.filterMap_cons_some hreason, List.filterMap_cons_some href, List.count_cons_self,
        List.length_cons]
      omega

/-- A call in order has its message sent once, when its time comes. -/
theorem CallOk.fires {call : MonitorCall} (hrefs : RefsOk s h) (hok : CallOk s h call) :
    (h.downs call).length ≤ 1 ∧
    ∀ x, s.table call.watcher = some x → x.state ≠ .dead →
      (s.Registered call ∧ h.downs call = []) ∨
      (¬s.Registered call ∧ ∃ reason, h.downs call = [reason] ∧
        if call.gone then reason = "noproc" else h.exits call.target = some reason) := by
  have hlen : (h.downs call).length ≤ 1 := by
    have hle := @length_downs_le n μ s call h
    have hcount := List.nodup_iff_count_le_one.mp (hrefs.nodup (.box call.watcher)) call.ref
    omega
  -- a reference is not registered and sent at the same time
  have hone : s.Registered call → ∀ reason, reason ∉ h.downs call := by
    rintro ⟨p, hp, hm⟩ reason hreason
    have hentry : call.ref ∈ refsAt s h (.entry call.target) := by
      rw [refsAt, hp]
      exact List.mem_map.mpr ⟨_, hm, rfl⟩
    have hbox : call.ref ∈ refsAt s h (.box call.watcher) :=
      List.mem_filterMap.mpr ⟨_, mem_downs.mp hreason, rfl⟩
    cases hrefs.unique _ _ _ hentry hbox
  refine ⟨hlen, fun x hx halive => ?_⟩
  rcases hok.owed x hx halive with hreg | ⟨f, hf, hr⟩
  · exact .inl ⟨hreg, List.eq_nil_iff_forall_not_mem.mpr (hone hreg)⟩
  · obtain ⟨-, reason, rfl, hreason⟩ := hok.box _ f hf hr
    have hmem := mem_downs.mpr hf
    have hdowns : h.downs call = [reason] := by
      obtain ⟨reason', heq⟩ := List.length_eq_one_iff.mp
        (Nat.le_antisymm hlen (List.length_pos_of_mem hmem))
      rw [heq] at hmem ⊢
      rw [List.mem_singleton.mp hmem]
    exact .inr ⟨fun hreg => hone hreg reason hmem, reason, hdowns, hreason⟩

/-- Monitors fire exactly once. For every call of `monitor` that returned, at most one
`DOWN` message with its reference and target is ever put in the mailbox of the caller.
As long as the caller lives, it is registered on the target in the table and no message
is sent yet, or it is not and the one message is sent: with reason `noproc` if the target
was dead or gone at the call, and with the reason the target was reaped with if not. -/
theorem monitor_fires_once (hrun : Recorded Step s h) {call : MonitorCall}
    (hcall : call ∈ h.calls) :
    (h.downs call).length ≤ 1 ∧
    ∀ x, s.table call.watcher = some x → x.state ≠ .dead →
      (s.Registered call ∧ h.downs call = []) ∨
      (¬s.Registered call ∧ ∃ reason, h.downs call = [reason] ∧
        if call.gone then reason = "noproc" else h.exits call.target = some reason) := by
  have hinv := hrun.invariant
  exact (hinv.calls call hcall).fires hinv.refs

/-- A run in which a call of `monitor` has returned leads to a state. -/
private def Called (call : MonitorCall) (s : Machine n μ) : Prop :=
  ∃ h, Recorded Step s h ∧ call ∈ h.calls

private theorem Called.step {call : MonitorCall} (hcall : Called call s) (hstep : Step s s') :
    Called call s' := by
  obtain ⟨h, hrec, hmem⟩ := hcall
  exact ⟨_, hrec.step (.step hstep), .inl hmem⟩

/-- The step that reaps the target of the call records its reason. -/
private theorem Called.reap {call : MonitorCall} (hcall : Called call s) (hstep : Step s s')
    {p : Process μ} (hp : s.table call.target = some p) (hgone : s'.table call.target = none) :
    ∃ h, Recorded Step s' h ∧ call ∈ h.calls ∧ h.exits call.target = some p.exitReason := by
  obtain ⟨h, hrec, hmem⟩ := hcall
  refine ⟨_, hrec.step (.step hstep), .inl hmem, ?_⟩
  simp only [History.after, hp, hgone]

/-- The first process spawns a child, monitors it and yields to it. The child exits, and the
first process is told so once, with the reason. -/
theorem exit_told_once : ∃ (s : Machine 1 Unit) (h : History Unit) (call : MonitorCall),
    Recorded Step s h ∧ call ∈ h.calls ∧ call.gone = false ∧ h.exits call.target = some "crash" ∧
    h.downs call = ["crash"] := by
  have hspawned := runningMachine_reachable.step (.callSpawn (c := 0) false rfl)
    |>.step (.spawnInner (c := 0) rfl) |>.step (.spawnPid (c := 0) rfl)
    |>.step (.spawnInsert (c := 0) rfl) |>.step (.spawnEnqueue (c := 0) rfl)
  obtain ⟨h, hrec⟩ := exists_recorded (hspawned.step (@Step.callMonitor 1 Unit _ 0 1 2 rfl))
  have hreturned : Called ⟨1, 1, 2, false⟩ _ :=
    ⟨_, hrec.step (.step (.monitor (c := 0) rfl)), .inr ⟨rfl, 0, rfl, rfl⟩⟩
  have hyields := hreturned.step (.callYield (c := 0) rfl (by decide))
    |>.step (.yieldStore (c := 0) rfl) |>.step (.yieldSwitch (c := 0) rfl)
    |>.step (.afterSwitch (c := 0) rfl)
  have hruns := hyields.step (.readClock (c := 0) rfl rfl) |>.step (.popDue (c := 0) rfl)
    |>.step (.wakeDue (c := 0) rfl) |>.step (.pumpDone (c := 0) rfl)
    |>.step (.popFront (c := 0) rfl rfl) |>.step (.take (c := 0) rfl)
    |>.step (.heapPtr (c := 0) rfl) |>.step (.switchIn (c := 0) rfl)
  have hexits := hruns.step (.callExit (c := 0) "crash" rfl (by decide))
    |>.step (.exit (c := 0) rfl) |>.step (.exitSwitch (c := 0) rfl)
  obtain ⟨h', hrec', hcall, hexit⟩ := hexits.reap (.afterSwitch (c := 0) rfl) rfl rfl
  have honce := (monitor_fires_once hrec' hcall).2 _ rfl (by decide)
  obtain ⟨⟨p, hp, -⟩, -⟩ | ⟨-, reason, hdowns, hreason⟩ := honce
  · cases hp
  · refine ⟨_, h', _, hrec', hcall, rfl, hexit, ?_⟩
    rw [hdowns, ← Option.some.inj (hexit.symm.trans hreason)]

end Runs

end Yggdrasil.Sched
