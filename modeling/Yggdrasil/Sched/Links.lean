import Mathlib.Logic.Relation
import Yggdrasil.Sched.Effect

/-!
# Exit signals over links

Links are symmetric between processes in the table. Reaping a process that died
abnormally dooms all processes linked to it, and a doomed process stays doomed until
it is reaped itself, so the signal travels on.
-/

namespace Yggdrasil.Sched

variable {n : ℕ} {μ : Type}

namespace Process

variable {x : Process μ}

/-- Messages do not save a process that is dead or killed. -/
theorem Doomed.receive (h : x.Doomed) (fs : List (Fragment μ)) : (x.receive fs).Doomed := by
  simpa [Doomed] using h

/-- Receiving appends to the mailbox. -/
theorem prefix_receive (fs : List (Fragment μ)) : x.mailbox <+: (x.receive fs).mailbox := by
  rw [receive_mailbox]
  exact List.prefix_append _ _

end Process

namespace Machine

variable {s s' : Machine n μ} {c : Fin n} {pid : ℕ} {p x : Process μ}

/-- Exit signals leave the links of the others. -/
theorem aftermath_links (q : ℕ) : (aftermath pid p q x).links = x.links := by
  unfold aftermath
  split <;> simp

/-- Exit signals leave the monitors of the others. -/
theorem aftermath_monitors (q : ℕ) : (aftermath pid p q x).monitors = x.monitors := by
  unfold aftermath
  split <;> simp

/-- Exit signals put the `DOWN` messages into the mailbox of a living watcher. -/
theorem aftermath_mailbox (q : ℕ) : (aftermath pid p q x).mailbox =
    x.mailbox ++ if x.state = .dead then [] else downs pid p.exitReason p.monitors q := by
  unfold aftermath
  split
  · rw [Process.mark_mailbox, Process.receive_mailbox]
  · rw [Process.receive_mailbox]

/-- Exit signals do not revive a dead process. -/
theorem aftermath_dead (q : ℕ) (h : x.state = .dead) : (aftermath pid p q x).state = .dead := by
  unfold aftermath
  split
  · exact Process.mark_dead _ (by simpa using h)
  · simpa using h

/-- Exit signals do not revive. -/
theorem aftermath_doomed (q : ℕ) (h : x.Doomed) : (aftermath pid p q x).Doomed := by
  unfold aftermath
  split
  · exact Process.mark_doomed _
  · exact h.receive _

/-- The pid was given to a process. -/
def Known (s : Machine n μ) (pid : ℕ) : Prop := (s.table pid).isSome = true ∨ pid ∈ s.reaped

/-- A reaped process is not in the table. -/
theorem Inv.table_of_reaped (h : s.Inv) (hreaped : pid ∈ s.reaped) : s.table pid = none := by
  by_contra hsome
  obtain ⟨p, hp⟩ := Option.ne_none_iff_exists'.mp hsome
  have hentry := (h.entry hp).2.2.2.2.1
  have hcount := List.count_pos_iff.mpr hreaped
  omega

/-- The pid of a child that is not in the table yet is new. -/
theorem Inv.not_known_newborn (h : s.Inv) {w child : ℕ} {link : Bool} {ref : Option ℕ}
    {ms : List (ℕ × ℕ)} (hloc : s.locs c = .exec w (.spawnInsert child link ref ms)) :
    ¬s.Known child := by
  have hloc' : (s.cpu c).loc = .exec w (.spawnInsert child link ref ms) := hloc
  have hcore : s.PosOk w (s.cpu c).postSwitch (.spawnInsert child link ref ms) := h.core hloc'
  have hbirth := s.le_births c child
  rw [hloc', show (Loc.exec w (.spawnInsert child link ref ms)).newborn = child from rfl,
    ind_self] at hbirth
  have hpid := h.pids child hcore.2.2
  rintro (hsome | hreaped)
  · obtain ⟨p, hp⟩ := Option.isSome_iff_exists.mp hsome
    have hentry := (h.entry hp).2.1
    omega
  · rw [PidOk, h.table_of_reaped hreaped] at hpid
    obtain ⟨-, -, hsame, hcase⟩ := hpid
    have hcount := List.count_pos_iff.mpr hreaped
    rcases hcase with hcase | hcase
    · have := hcase.2.1
      omega
    · have := hcase.1
      omega

/-- A step adds to the reaped processes at most. -/
theorem Step.reaped_subset (h : Step s s') : s.reaped ⊆ s'.reaped := by
  rcases Step.reaped h with heq | ⟨c, pid, -, heq⟩
  · rw [heq]
    exact List.Subset.refl _
  · rw [heq]
    exact List.subset_append_left _ _

/-- A pid that was given to a process is never forgotten. -/
theorem Known.step (hinv : s.Inv) (h : s.Known pid) (hstep : Step s s') : s'.Known pid := by
  rcases h with hsome | hreaped
  swap
  · exact .inr (Step.reaped_subset hstep hreaped)
  obtain ⟨p, hp⟩ := Option.isSome_iff_exists.mp hsome
  cases hstep.effect hinv with
  | quiet _ _ htable =>
    have hrel := htable pid
    rw [hp] at hrel
    generalize hp' : s'.table pid = o at hrel
    cases hrel with
    | some _ => exact .inl (by rw [hp']; rfl)
  | alloc _ _ _ _ _ _ _ htable => exact .inl (by rw [htable]; exact hsome)
  | leave _ _ _ _ _ _ htable => exact .inl (by rw [htable]; exact hsome)
  | pick _ _ _ _ _ _ _ _ htable => exact .inl (by rw [htable]; exact hsome)
  | insert _ w child link _ _ _ _ _ _ htable =>
    refine .inl ?_
    rw [htable, hp]
    split
    · rfl
    · split <;> rfl
  | register _ _ target _ _ _ _ _ _ _ htable =>
    refine .inl ?_
    rw [htable, Function.update_apply]
    split
    · rfl
    · exact hsome
  | noproc _ _ _ _ _ _ _ _ htable =>
    refine .inl ?_
    rw [htable, hp]
    split <;> rfl
  | reap _ dead _ _ _ _ _ hreaped htable =>
    by_cases hq : pid = dead
    · subst hq
      exact .inr (by rw [hreaped]; simp)
    · refine .inl ?_
      rw [htable, if_neg hq, hp]
      rfl

/-- How a step of the machine may change a process that stays in the table. -/
structure Follows (s : Machine n μ) (p p' : Process μ) : Prop where
  /-- The dead stay dead. -/
  dead : p.state = .dead → p'.state = .dead
  /-- A killed process stays so, and its mailbox only grows. -/
  doomed : p.Doomed → p'.Doomed ∧ p.mailbox <+: p'.mailbox
  /-- The only new link is to a child whose pid is new. -/
  links : p'.links = p.links ∨ ∃ child, ¬s.Known child ∧ p'.links = p.links ++ [child]
  /-- A core held the reference of a new monitor. -/
  monitors : ∀ m ∈ p'.monitors, m ∈ p.monitors ∨ ∃ c, m ∈ (s.locs c).refs

/-- The process is new, linked to a parent that is in the table, and a core held the
references of its monitors. -/
structure Newborn (s : Machine n μ) (pid : ℕ) (p : Process μ) : Prop where
  /-- The pid is new. -/
  new : ¬s.Known pid
  /-- The parent is in the table. -/
  links : ∀ l ∈ p.links, (s.table l).isSome = true
  /-- A core held the references. -/
  monitors : ∀ m ∈ p.monitors, ∃ c, m ∈ (s.locs c).refs

private theorem Follows.of_locally {p' : Process μ} (h : p.Locally p') : s.Follows p p' :=
  ⟨h.dead, h.doomed, .inl h.links, fun _ hm => .inl (h.monitors ▸ hm)⟩

/-- A process in the table after a step follows the one with its pid, or is new. -/
theorem Step.entry (hinv : s.Inv) (hstep : Step s s') {p' : Process μ}
    (hp' : s'.table pid = some p') :
    (∃ p, s.table pid = some p ∧ s.Follows p p') ∨ s.Newborn pid p' := by
  have hsame : s.table pid = some p' → ∃ p, s.table pid = some p ∧ s.Follows p p' :=
    fun hp => ⟨p', hp, .of_locally (.refl p')⟩
  cases hstep.effect hinv with
  | quiet _ _ htable =>
    have hrel := htable pid
    rw [hp'] at hrel
    generalize s.table pid = o at hrel
    cases hrel with
    | some h => exact .inl ⟨_, rfl, .of_locally h⟩
  | alloc _ _ _ _ _ _ _ htable => exact .inl (hsame (htable ▸ hp'))
  | leave _ _ _ _ _ _ htable => exact .inl (hsame (htable ▸ hp'))
  | pick _ _ _ _ _ _ _ _ htable => exact .inl (hsame (htable ▸ hp'))
  | insert c w child link ref ms hloc _ _ _ htable =>
    have hnew := hinv.not_known_newborn hloc
    rw [htable] at hp'
    split at hp'
    · rename_i heq
      cases hp'
      refine .inr ⟨heq ▸ hnew, fun l hl => ?_, fun m hm => ⟨c, by rw [hloc]; exact hm⟩⟩
      simp only [Process.fresh, List.mem_ite_nil_right, List.mem_singleton] at hl
      exact hl.2 ▸ hl.1.2
    · split at hp'
      · obtain ⟨p, hp, rfl⟩ := Option.map_eq_some_iff.mp hp'
        exact .inl ⟨p, hp, id, fun h => ⟨h, List.prefix_rfl⟩, .inr ⟨child, hnew, rfl⟩,
          fun _ hm => .inl hm⟩
      · exact .inl (hsame hp')
  | register c w target r p hloc _ _ hp _ htable =>
    rw [htable, Function.update_apply] at hp'
    split at hp'
    · rename_i heq
      cases hp'
      refine .inl ⟨p, heq ▸ hp, id, fun h => ⟨h, List.prefix_rfl⟩, .inl rfl, fun m hm => ?_⟩
      refine (List.mem_append.mp hm).imp_right fun hm' => ⟨c, ?_⟩
      rw [hloc]
      exact hm'
    · exact .inl (hsame hp')
  | noproc c w target r _ _ _ _ htable =>
    rw [htable] at hp'
    split at hp'
    · obtain ⟨p, hp, rfl⟩ := Option.map_eq_some_iff.mp hp'
      exact .inl ⟨p, hp, by simp, fun h => ⟨h.receive _, Process.prefix_receive _⟩,
        .inl (by simp), by simp +contextual⟩
    · exact .inl (hsame hp')
  | reap c dead d _ _ _ _ _ htable =>
    rw [htable] at hp'
    split at hp'
    · cases hp'
    · obtain ⟨p, hp, rfl⟩ := Option.map_eq_some_iff.mp hp'
      refine .inl ⟨p, hp, aftermath_dead pid, fun h => ⟨aftermath_doomed pid h, ?_⟩,
        .inl (aftermath_links pid), fun m hm => .inl (aftermath_monitors pid ▸ hm)⟩
      rw [aftermath_mailbox]
      exact List.prefix_append _ _

/-- Links are symmetric between processes in the table, and lead to known pids. -/
structure LinksOk (s : Machine n μ) : Prop where
  symm : ∀ a b pa pb, s.table a = some pa → s.table b = some pb → (b ∈ pa.links ↔ a ∈ pb.links)
  known : ∀ a pa b, s.table a = some pa → b ∈ pa.links → s.Known b

/-- A step keeps the links of all processes, or inserts a child with a new pid. -/
private theorem Step.links (hinv : s.Inv) (hstep : Step s s') :
    (∀ a pa', s'.table a = some pa' → ∃ pa, s.table a = some pa ∧ pa'.links = pa.links) ∨
      ∃ w child, ∃ (link : Bool) (ms : List (ℕ × ℕ)), ¬s.Known child ∧ ∀ q, s'.table q =
        if q = child then
          some (.fresh (if link = true ∧ (s.table w).isSome = true then [w] else []) ms)
        else if link = true ∧ q = w then (s.table q).map (.link child) else s.table q := by
  cases hstep.effect hinv with
  | quiet _ _ htable =>
    refine .inl fun a pa' hpa' => ?_
    have hrel := htable a
    rw [hpa'] at hrel
    generalize s.table a = o at hrel
    cases hrel with
    | some h => exact ⟨_, rfl, h.links⟩
  | alloc _ _ _ _ _ _ _ htable => exact .inl fun a pa' hpa' => ⟨pa', htable ▸ hpa', rfl⟩
  | leave _ _ _ _ _ _ htable => exact .inl fun a pa' hpa' => ⟨pa', htable ▸ hpa', rfl⟩
  | pick _ _ _ _ _ _ _ _ htable => exact .inl fun a pa' hpa' => ⟨pa', htable ▸ hpa', rfl⟩
  | insert c w child link ref ms hloc _ _ _ htable =>
    exact .inr ⟨w, child, link, ms, hinv.not_known_newborn hloc, htable⟩
  | register c w target r p _ _ _ hp _ htable =>
    refine .inl fun a pa' hpa' => ?_
    rw [htable, Function.update_apply] at hpa'
    split at hpa'
    · rename_i heq
      cases hpa'
      exact ⟨p, heq ▸ hp, rfl⟩
    · exact ⟨pa', hpa', rfl⟩
  | noproc c w target r _ _ _ _ htable =>
    refine .inl fun a pa' hpa' => ?_
    rw [htable] at hpa'
    split at hpa'
    · obtain ⟨pa, hpa, rfl⟩ := Option.map_eq_some_iff.mp hpa'
      exact ⟨pa, hpa, by simp⟩
    · exact ⟨pa', hpa', rfl⟩
  | reap c dead d _ _ _ _ _ htable =>
    refine .inl fun a pa' hpa' => ?_
    rw [htable] at hpa'
    split at hpa'
    · cases hpa'
    · obtain ⟨pa, hpa, rfl⟩ := Option.map_eq_some_iff.mp hpa'
      exact ⟨pa, hpa, aftermath_links a⟩

/-- A step keeps the links in order. -/
theorem LinksOk.step (hinv : s.Inv) (h : s.LinksOk) (hstep : Step s s') : s'.LinksOk := by
  rcases Step.links hinv hstep with hkeep | ⟨w, child, link, ms, hnew, htable⟩
  · refine ⟨fun a b pa' pb' ha' hb' => ?_, fun a pa' b ha' hb => ?_⟩
    · obtain ⟨pa, ha, hpa⟩ := hkeep a pa' ha'
      obtain ⟨pb, hb, hpb⟩ := hkeep b pb' hb'
      rw [hpa, hpb]
      exact h.symm a b pa pb ha hb
    · obtain ⟨pa, ha, hpa⟩ := hkeep a pa' ha'
      exact (h.known a pa b ha (hpa ▸ hb)).step hinv hstep
  · -- the child is linked to its parent, and nobody else has its pid
    have hfresh : ∀ a pa, s.table a = some pa → child ∉ pa.links := fun a pa ha hmem =>
      hnew (h.known a pa child ha hmem)
    have hothers : ∀ a pa', a ≠ child → s'.table a = some pa' → ∃ pa, s.table a = some pa ∧
        pa'.links = if link = true ∧ a = w then pa.links ++ [child] else pa.links := by
      intro a pa' hne ha'
      rw [htable, if_neg hne] at ha'
      split at ha'
      · rename_i hlink
        obtain ⟨pa, ha, rfl⟩ := Option.map_eq_some_iff.mp ha'
        exact ⟨pa, ha, by rw [if_pos hlink]; rfl⟩
      · rename_i hlink
        exact ⟨pa', ha', by rw [if_neg hlink]⟩
    have hchild : ∀ pc, s'.table child = some pc →
        pc.links = if link = true ∧ (s.table w).isSome = true then [w] else [] := by
      intro pc hpc
      rw [htable, if_pos rfl] at hpc
      cases hpc
      rfl
    have hmixed : ∀ b pc pb', b ≠ child → s'.table child = some pc → s'.table b = some pb' →
        (b ∈ pc.links ↔ child ∈ pb'.links) := by
      intro b pc pb' hne hpc hb'
      obtain ⟨pb, hb, hpb⟩ := hothers b pb' hne hb'
      have hnot := hfresh b pb hb
      rw [hchild pc hpc, hpb]
      by_cases hlink : link = true ∧ b = w
      · obtain ⟨hl, rfl⟩ := hlink
        simp [hl, hb]
      · rw [if_neg hlink]
        have hw : b ∉ if link = true ∧ (s.table w).isSome = true then [w] else [] := by
          split
          · rename_i hl
            intro hmem
            exact hlink ⟨hl.1, List.mem_singleton.mp hmem⟩
          · simp
        exact iff_of_false hw hnot
    refine ⟨fun a b pa' pb' ha' hb' => ?_, fun a pa' b ha' hb => ?_⟩
    · by_cases hac : a = child
      · subst hac
        by_cases hbc : b = a
        · subst hbc
          rw [ha'] at hb'
          cases hb'
          rfl
        · exact hmixed b pa' pb' hbc ha' hb'
      · by_cases hbc : b = child
        · subst hbc
          exact (hmixed a pb' pa' hac hb' ha').symm
        · obtain ⟨pa, ha, hpa⟩ := hothers a pa' hac ha'
          obtain ⟨pb, hb, hpb⟩ := hothers b pb' hbc hb'
          have hmem : ∀ (x : ℕ) (q : Prop) [Decidable q] (ls : List ℕ), x ≠ child →
              ((x ∈ if q then ls ++ [child] else ls) ↔ x ∈ ls) := by
            intro x q _ ls hx
            split <;> simp [hx]
          rw [hpa, hpb, hmem b _ _ hbc, hmem a _ _ hac]
          exact h.symm a b pa pb ha hb
    · by_cases hbc : b = child
      · subst hbc
        exact .inl (by rw [htable, if_pos rfl]; rfl)
      · have hold : s.Known b := by
          by_cases hac : a = child
          · subst hac
            rw [hchild pa' ha'] at hb
            split at hb
            · rename_i hl
              rw [List.mem_singleton.mp hb]
              exact .inl hl.2
            · cases hb
          · obtain ⟨pa, ha, hpa⟩ := hothers a pa' hac ha'
            rw [hpa] at hb
            split at hb
            · rcases List.mem_append.mp hb with hb | hb
              · exact h.known a pa b ha hb
              · exact absurd (List.mem_singleton.mp hb) hbc
            · exact h.known a pa b ha hb
        exact hold.step hinv hstep

/-- Links are in order in every reachable state. -/
theorem Reachable.linksOk (h : Reachable s) : s.LinksOk := by
  refine (Transition.Reaches.invariant (P := fun s : Machine n μ => s.Inv ∧ s.LinksOk)
    (fun s hinit => ⟨.init hinit, ?_⟩) (fun s s' hs hstep => ?_) h).2
  · have hnone := hinit.2.1
    exact ⟨fun a b pa pb ha => by simp [hnone] at ha, fun a pa b ha => by simp [hnone] at ha⟩
  · exact ⟨hs.1.step hstep, hs.2.step hs.1 hstep⟩

/-- A process leaves the table by being reaped. -/
theorem Step.removed (hinv : s.Inv) (hstep : Step s s') (hp : s.table pid = some p)
    (hgone : s'.table pid = none) (q : ℕ) :
    s'.table q = if q = pid then none else (s.table q).map (aftermath pid p q) := by
  cases hstep.effect hinv with
  | quiet _ _ htable =>
    have hrel := htable pid
    rw [hp, hgone] at hrel
    cases hrel
  | alloc _ _ _ _ _ _ _ htable => simp [htable, hp] at hgone
  | leave _ _ _ _ _ _ htable => simp [htable, hp] at hgone
  | pick _ _ _ _ _ _ _ _ htable => simp [htable, hp] at hgone
  | insert c w child link ref ms hloc _ _ _ htable =>
    rw [htable, hp] at hgone
    split at hgone
    · cases hgone
    · split at hgone <;> cases hgone
  | register c w target r _ _ _ _ _ _ htable =>
    rw [htable, Function.update_apply, hp] at hgone
    split at hgone <;> cases hgone
  | noproc c w target r _ _ _ _ htable =>
    rw [htable, hp] at hgone
    split at hgone <;> cases hgone
  | reap c dead d _ _ _ hd _ htable =>
    by_cases hq : pid = dead
    · subst hq
      rw [hp] at hd
      cases hd
      exact htable q
    · rw [htable, if_neg hq, hp] at hgone
      cases hgone

/-- A doomed process is running or dead. -/
theorem Inv.not_idle_of_doomed (h : s.Inv) (hp : s.table pid = some p) (hdoom : p.Doomed) :
    p.state ≠ .runnable ∧ p.state ≠ .waiting := by
  have hplace := (h.entry hp).2.2.2.2.2.2
  unfold Process.Placed at hplace
  constructor
  · intro hstate
    rw [hstate] at hplace
    rcases hdoom with hdead | hkill
    · rw [hstate] at hdead
      cases hdead
    · rw [hplace.2.2.1] at hkill
      cases hkill
  · intro hstate
    rw [hstate] at hplace
    rcases hdoom with hdead | hkill
    · rw [hstate] at hdead
      cases hdead
    · rw [hplace.2.2.1] at hkill
      cases hkill

/-- The processes linked to a reaped process `pid`, whose own links were `links`, are
doomed. -/
private structure Signalled (pid : ℕ) (links : List ℕ) (s : Machine n μ) : Prop where
  reaped : pid ∈ s.reaped
  known : ∀ l ∈ links, s.Known l
  doomed : ∀ q x, s.table q = some x → pid ∈ x.links ∨ q ∈ links → x.Doomed

private theorem Signalled.step {links : List ℕ} (hinv : s.Inv) (h : Signalled pid links s)
    (hstep : Step s s') : Signalled pid links s' := by
  refine ⟨Step.reaped_subset hstep h.reaped, fun l hl => (h.known l hl).step hinv hstep,
    fun q x' hx' hlinked => ?_⟩
  rcases Step.entry hinv hstep hx' with ⟨x, hx, hfollows⟩ | hnew
  · refine (hfollows.doomed (h.doomed q x hx (hlinked.imp_left fun hmem => ?_))).1
    rcases hfollows.links with heq | ⟨child, hnew, heq⟩
    · exact heq ▸ hmem
    · rw [heq] at hmem
      rcases List.mem_append.mp hmem with hmem | hmem
      · exact hmem
      · rw [List.mem_singleton.mp hmem] at h
        exact absurd (.inr h.reaped) hnew
  · -- a process that is new is linked to its parent at most, which is in the table
    have hmem := hlinked.resolve_right fun hmem => hnew.new (h.known q hmem)
    have hsome := hnew.links pid hmem
    rw [hinv.table_of_reaped h.reaped] at hsome
    cases hsome

/-- Reaping a process that died abnormally dooms the processes linked to it. -/
private theorem Signalled.reap (hinv : s.Inv) (hlinks : s.LinksOk) (hstep : Step s s')
    (hp : s.table pid = some p) (hreaped : pid ∈ s'.reaped) (hreason : p.exitReason ≠ "normal") :
    Signalled pid p.links s' := by
  refine ⟨hreaped, fun l hl => (hlinks.known pid p l hp hl).step hinv hstep,
    fun q x' hx' hlinked => ?_⟩
  have hgone : s'.table pid = none := (hinv.step hstep).table_of_reaped hreaped
  have htable := Step.removed hinv hstep hp hgone q
  rw [hx'] at htable
  by_cases hq : q = pid
  · rw [if_pos hq] at htable
    cases htable
  · rw [if_neg hq] at htable
    obtain ⟨x, hx, rfl⟩ := Option.map_eq_some_iff.mp htable.symm
    rw [aftermath_links] at hlinked
    have hmem : q ∈ p.links := hlinked.elim (hlinks.symm q pid x p hx hp).mp id
    rw [aftermath, if_pos ⟨hreason, hmem⟩]
    exact Process.mark_doomed _

/-- Exit signals over links are never lost. Links are symmetric between processes in
the table. Once a process is reaped with a reason other than `normal`, every process
linked to it that is still in the table is dead or killed. A process that is dead or
killed is so until it is reaped: it never becomes runnable or waiting again, and takes
no message out of its mailbox. -/
theorem exit_signals_not_lost (h : Reachable s) :
    (∀ a b pa pb, s.table a = some pa → s.table b = some pb → (b ∈ pa.links ↔ a ∈ pb.links)) ∧
    (∀ s' pid p, Step s s' → s.table pid = some p → pid ∈ s'.reaped →
      p.exitReason ≠ "normal" → ∀ s'', Relation.ReflTransGen Step s' s'' →
        ∀ q x, s''.table q = some x → pid ∈ x.links ∨ q ∈ p.links →
          x.state = .dead ∨ x.killPending = true) ∧
    ∀ pid p, s.table pid = some p → p.state = .dead ∨ p.killPending = true →
      ∀ s', Relation.ReflTransGen Step s s' → ∀ p', s'.table pid = some p' →
        (p'.state = .dead ∨ p'.killPending = true) ∧ p'.state ≠ .runnable ∧
          p'.state ≠ .waiting ∧ p.mailbox <+: p'.mailbox := by
  have hinv := h.inv
  have hlinks := Reachable.linksOk h
  refine ⟨hlinks.symm, fun s' pid p hstep hp hreaped hreason s'' hrun => ?_,
    fun pid p hp hdoom s' hrun => ?_⟩
  · have hrun' : s''.Inv ∧ Signalled pid p.links s'' := by
      induction hrun with
      | refl => exact ⟨hinv.step hstep, .reap hinv hlinks hstep hp hreaped hreason⟩
      | tail _ hlast ih => exact ⟨ih.1.step hlast, ih.2.step ih.1 hlast⟩
    exact hrun'.2.doomed
  · have hrun' : s'.Inv ∧ s'.Known pid ∧ ∀ p', s'.table pid = some p' →
        p'.Doomed ∧ p.mailbox <+: p'.mailbox := by
      induction hrun with
      | refl =>
        refine ⟨hinv, .inl (by rw [hp]; rfl), fun p' hp' => ?_⟩
        rw [hp] at hp'
        cases hp'
        exact ⟨hdoom, List.prefix_rfl⟩
      | tail _ hlast ih =>
        obtain ⟨hinv', hknown, hall⟩ := ih
        refine ⟨hinv'.step hlast, hknown.step hinv' hlast, fun p'' hp'' => ?_⟩
        obtain ⟨p', hp', hfollows⟩ :=
          (Step.entry hinv' hlast hp'').resolve_right fun hnew => hnew.new hknown
        obtain ⟨hdoom', hpre⟩ := hall p' hp'
        exact ⟨(hfollows.doomed hdoom').1, hpre.trans (hfollows.doomed hdoom').2⟩
    intro p' hp'
    obtain ⟨hinv', -, hall⟩ := hrun'
    obtain ⟨hdoom', hpre⟩ := hall p' hp'
    obtain ⟨hrunnable, hwaiting⟩ := hinv'.not_idle_of_doomed hp' hdoom'
    exact ⟨hdoom', hrunnable, hwaiting, hpre⟩

end Machine

/-- The first process spawns a child with a link and exits. The step that reaps it kills the
child. -/
theorem linked_child_killed : ∃ (s s' : Machine 1 Unit) (p child child' : Process Unit),
    Reachable s ∧ s.table 1 = some p ∧ s.table 2 = some child ∧ 2 ∈ p.links ∧
    1 ∈ child.links ∧ p.exitReason = "crash" ∧ Step s s' ∧ 1 ∈ s'.reaped ∧
    s'.table 2 = some child' ∧ (child'.state = .dead ∨ child'.killPending = true) := by
  have hspawned := runningMachine_reachable.step (.callSpawn (c := 0) true rfl)
    |>.step (.spawnInner (c := 0) rfl) |>.step (.spawnPid (c := 0) rfl)
    |>.step (.spawnInsert (c := 0) rfl) |>.step (.spawnEnqueue (c := 0) rfl)
  have hexits := hspawned.step (.callExit (c := 0) "crash" rfl (by decide))
    |>.step (.exit (c := 0) rfl) |>.step (.exitSwitch (c := 0) rfl)
  obtain ⟨hsymm, hsignal, -⟩ := Machine.exit_signals_not_lost hexits
  have hlink : 2 ∈ [2] := by decide
  exact ⟨_, _, _, _, _, hexits, rfl, rfl, hlink, (hsymm 1 2 _ _ rfl rfl).mp hlink, rfl,
    .afterSwitch (c := 0) rfl, by decide, rfl,
    hsignal _ 1 _ (.afterSwitch (c := 0) rfl) rfl (by decide) (by decide) _ .refl 2 _ rfl
      (.inr hlink)⟩

end Yggdrasil.Sched
