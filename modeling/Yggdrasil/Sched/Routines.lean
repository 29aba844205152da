import Yggdrasil.Sched.Preserve

/-!
# Queues, timers and births

The remaining sections: queue entries that move between cores, pids that move between
the timer wheel and the list of due ones, children from their pid to their queue
entry, and processes that mark themselves dead.
-/

namespace Yggdrasil.Sched

variable {n : ℕ} {μ : Type}

namespace Machine

variable {s s' : Machine n μ} {c : Fin n} {k : Cpu} {pid : ℕ} {p p' : Process μ}

/-- The own queue is popped. -/
theorem Inv.popFront (h : s.Inv) {rest : List ℕ} (hloc : (s.cpu c).loc = .pop)
    (hrunq : (s.cpu c).runq = pid :: rest) :
    (s.setCpu c { s.cpu c with loc := .popped pid, runq := rest }).Inv := by
  have hpost : (s.cpu c).postSwitch = .none := h.core hloc
  set k : Cpu := { s.cpu c with loc := .popped pid, runq := rest } with hk
  have harmed : ∀ q, s.Armed q → (s.setCpu c k).Armed q := fun q hq =>
    hq.update rfl id fun hd => absurd hd (by simp [hloc, Loc.due])
  refine h.frame 0 rfl (fun _ _ => rfl) ⟨le_rfl, fun _ _ => id⟩ (fun _ _ => rfl)
    (fun _ _ => rfl) (fun _ _ => rfl) (fun q hq _ => ?_) (fun q _ _ => harmed q)
    (fun _ => h.zero.1) (fun hne => absurd rfl hne) (fun hne => absurd rfl hne) hpost
  refine ⟨?_, ?_, ?_, ?_⟩
  · simp only [hloc, hrunq, hk, Loc.token, List.count_cons, ind_of_ne (Ne.symm hq), beq_iff_eq]
    rfl
  all_goals
    rw [hloc, hk]
    rfl

/-- Another core's queue is robbed. -/
theorem Inv.stealBack (h : s.Inv) {d : Fin n} {j : ℕ} {rest : List ℕ}
    (hloc : (s.cpu c).loc = .steal j) (hdc : d ≠ c) (hrunq : (s.cpu d).runq = rest ++ [pid]) :
    ((s.setCpu d { s.cpu d with runq := rest }).setLoc c (.popped pid)).Inv := by
  set s₁ := s.setCpu d { s.cpu d with runq := rest } with hs₁
  set s₂ := s₁.setLoc c (.popped pid) with hs₂
  have hpost : (s.cpu c).postSwitch = .none := h.core hloc
  have hc₁ : s₁.cpu c = s.cpu c := Function.update_of_ne (Ne.symm hdc) ..
  have hcpu₁ : s₁.cpu = Function.update s.cpu d { s.cpu d with runq := rest } := rfl
  have hcpu₂ : s₂.cpu = Function.update s₁.cpu c { s.cpu c with loc := .popped pid } := by
    rw [← hc₁]
    rfl
  have harmed : ∀ q, s.Armed q → s₂.Armed q := fun q hq =>
    (hq.update hcpu₁ id .inr : s₁.Armed q).update hcpu₂ id fun hd =>
      absurd hd (by simp [hc₁, hloc, Loc.due])
  refine ⟨h.zero, fun q hq => ?_, fun e => ?_⟩
  · obtain ⟨ht₁, hh₁, hb₁, hf₁⟩ := counts_update hcpu₁ q
    obtain ⟨ht₂, hh₂, hb₂, hf₂⟩ := counts_update hcpu₂ q
    have hcount : (rest ++ [pid]).count q = rest.count q + ind pid q := by
      rw [List.count_append, List.count_singleton, ind]
      simp
    simp only [hc₁, hloc, hrunq, hcount, Loc.token, Loc.owner, Loc.newborn, Loc.finishing,
      ind_of_ne (Ne.symm hq)] at ht₁ ht₂ hh₁ hh₂ hb₁ hb₂ hf₁ hf₂
    exact (h.pids q hq).congr rfl Iff.rfl rfl rfl rfl (by omega) (by omega) (by omega) (by omega)
      (harmed q)
  · by_cases hec : e = c
    · subst hec
      rw [hcpu₂, Function.update_self]
      exact hpost
    · rw [hcpu₂, Function.update_of_ne hec, hcpu₁]
      by_cases hed : e = d
      · subst hed
        rw [Function.update_self]
        exact (h.cores e).congr (fun _ => rfl) fun _ => harmed _
      · rw [Function.update_of_ne hed]
        exact (h.cores e).congr (fun _ => rfl) fun _ => harmed _

/-- A change of the timer wheel that loses no alarm. -/
theorem Inv.setWheel (h : s.Inv) {w : Wheel} (hw : ∀ q, s.wheel.Has q → w.Has q) :
    { s with wheel := w }.Inv := by
  have harmed : ∀ q, s.Armed q → { s with wheel := w }.Armed q := fun q hq =>
    hq.imp (hw q) id
  refine ⟨h.zero, fun q hq => ?_, fun d => (h.cores d).congr (fun _ => rfl) fun _ => harmed _⟩
  exact (h.pids q hq).congr rfl Iff.rfl rfl rfl rfl rfl rfl rfl rfl (harmed q)

/-- Due pids are taken out of the wheel. -/
theorem Inv.popDue (h : s.Inv) {now : ℕ} (hloc : (s.cpu c).loc = .wheelLock now) :
    ({ s with wheel := (s.wheel.popDue now).2 }.setLoc c
      (.wheelDue now (s.wheel.popDue now).1)).Inv := by
  have hpost : (s.cpu c).postSwitch = .none := h.core hloc
  set s' := { s with wheel := (s.wheel.popDue now).2 }.setLoc c
    (.wheelDue now (s.wheel.popDue now).1) with hs'
  set k : Cpu := { s.cpu c with loc := .wheelDue now (s.wheel.popDue now).1 } with hk
  have hcpu : s'.cpu = Function.update s.cpu c k := rfl
  have harmed : ∀ q, s.Armed q → s'.Armed q := by
    rintro q (hq | ⟨d, hd⟩)
    · rcases hq.popDue now with hdue | hstay
      · exact .inr ⟨c, by rw [hcpu, Function.update_self]; exact hdue⟩
      · exact .inl hstay
    · by_cases hdc : d = c
      · rw [hdc, hloc] at hd
        exact absurd hd (by simp [Loc.due])
      · exact .inr ⟨d, by rwa [hcpu, Function.update_of_ne hdc]⟩
  refine h.frame 0 hcpu (fun _ _ => rfl) ⟨le_rfl, fun _ _ => id⟩ (fun _ _ => rfl)
    (fun _ _ => rfl) (fun _ _ => rfl) (fun q _ _ => ?_) (fun q _ _ => harmed q)
    (fun _ => h.zero.1) (fun hne => absurd rfl hne) (fun hne => absurd rfl hne) hpost
  have hsame : ∀ q, (s.cpu c).Same k q := .of_loc rfl (by rw [hloc]; rfl) (by rw [hloc]; rfl)
    (by rw [hloc]; rfl) (by rw [hloc]; rfl)
  exact hsame q

/-- A due pid can be dropped if it is in the wheel or its process neither runs nor
waits. -/
theorem Inv.dropDue (h : s.Inv) {now : ℕ} {due : List ℕ}
    (hloc : (s.cpu c).loc = .wheelDue now (pid :: due))
    (hdone : s.wheel.Has pid ∨
      ∀ p, s.table pid = some p → p.state ≠ .running ∧ p.state ≠ .waiting) :
    (s.setLoc c (.wheelDue now due)).Inv := by
  have hpost : (s.cpu c).postSwitch = .none := h.core hloc
  set k : Cpu := { s.cpu c with loc := .wheelDue now due } with hk
  have hcpu : (s.setLoc c (.wheelDue now due)).cpu = Function.update s.cpu c k := rfl
  have hsame : ∀ q, (s.cpu c).Same k q := .of_loc rfl (by rw [hloc]; rfl) (by rw [hloc]; rfl)
    (by rw [hloc]; rfl) (by rw [hloc]; rfl)
  have harmed : ∀ q, q ≠ pid ∨ s.wheel.Has q → s.Armed q →
      (s.setLoc c (.wheelDue now due)).Armed q := fun q hq harm =>
    harm.update hcpu id fun hd => by
      rcases hq with hne | hw
      · rw [hloc] at hd
        exact .inr ((List.mem_cons.mp hd).resolve_left hne)
      · exact .inl hw
  refine h.frame pid hcpu (fun _ _ => rfl) ⟨le_rfl, fun _ _ => id⟩ (fun _ _ => rfl)
    (fun _ _ => rfl) (fun _ _ => rfl) (fun q _ _ => hsame q)
    (fun q _ hq => harmed q (.inl hq)) (fun _ => h.zero.1) (fun hne => ?_)
    (fun _ d _ _ => ⟨rfl, fun hrun => ?_⟩) hpost
  · obtain ⟨ht', hh', hb', hf'⟩ := counts_of_same hcpu (hsame pid)
    rcases hdone with hw | hstate
    · exact (h.pids pid hne).congr rfl Iff.rfl rfl rfl rfl (by omega) (by omega) (by omega)
        (by omega) (harmed pid (.inr hw))
    · have hpid := h.pids pid hne
      unfold PidOk at hpid ⊢
      rw [show (s.setLoc c (.wheelDue now due)).tokens pid = s.tokens pid by omega,
        show (s.setLoc c (.wheelDue now due)).holders pid = s.holders pid by omega,
        show (s.setLoc c (.wheelDue now due)).births pid = s.births pid by omega,
        show (s.setLoc c (.wheelDue now due)).finishing pid = s.finishing pid by omega]
      rw [show (s.setLoc c (.wheelDue now due)).table pid = s.table pid from rfl]
      cases hp : s.table pid with
      | none =>
        rw [hp] at hpid
        exact hpid
      | some p =>
        rw [hp] at hpid
        obtain ⟨hlt, hb, hf, hi, hr, hz, hplace⟩ := hpid
        refine ⟨hlt, hb, hf, hi, hr, hz, ?_⟩
        unfold Process.Placed at hplace ⊢
        cases hw : p.state with
        | waiting => exact absurd hw (hstate p hp).2
        | runnable | running | dead =>
          rw [hw] at hplace
          exact hplace
  · rcases hdone with hw | hstate
    · exact harmed pid (.inr hw)
    · rw [stateOf, view] at hrun
      cases hp : s.table pid with
      | none =>
        rw [hp] at hrun
        cases hrun
      | some p =>
        rw [hp] at hrun
        exact absurd (by simpa using hrun) (hstate p hp).1

/-- One due process is woken. -/
theorem Inv.wakeOne (h : s.Inv) {now : ℕ} {due : List ℕ}
    (hloc : (s.cpu c).loc = .wheelDue now (pid :: due)) :
    ((s.wakeOne c now pid).setLoc c (.wheelDue now due)).Inv := by
  unfold Machine.wakeOne
  cases hp : s.table pid with
  | none => exact h.dropDue hloc (.inr fun p hp' => absurd (hp.symm.trans hp') (by simp))
  | some p =>
    dsimp only
    cases hstate : p.state with
    | waiting =>
      have hwoken : ((s.setProc pid { p with state := .runnable }).enqueue c pid).Inv :=
        h.wake hp hstate rfl rfl rfl
      have hloc' : (((s.setProc pid { p with state := .runnable }).enqueue c pid).cpu c).loc =
          .wheelDue now (pid :: due) := by
        rw [enqueue_loc]
        exact hloc
      refine hwoken.dropDue hloc' (.inr fun p' hp' => ?_)
      · have hentry : ((s.setProc pid { p with state := .runnable }).enqueue c pid).table pid =
          some { p with state := .runnable } := setProc_table_self ..
        rw [hentry] at hp'
        cases hp'
        simp
    | running =>
      have hpushed := h.setWheel fun q hq => hq.push (now + 1) pid
      exact hpushed.dropDue hloc (.inl (Wheel.has_push ..))
    | runnable =>
      refine h.dropDue hloc (.inr fun p' hp' => ?_)
      rw [hp] at hp'
      cases hp'
      simp [hstate]
    | dead =>
      refine h.dropDue hloc (.inr fun p' hp' => ?_)
      rw [hp] at hp'
      cases hp'
      simp [hstate]

/-- All due processes are woken. -/
theorem Inv.wakeDue (h : s.Inv) {now : ℕ} {due : List ℕ}
    (hloc : (s.cpu c).loc = .wheelDue now due) : (s.wakeDue c now due).Inv := by
  induction due generalizing s with
  | nil =>
    exact h.move hloc rfl rfl rfl rfl rfl (h.core hloc :)
  | cons pid due ih =>
    exact ih (h.wakeOne hloc) (setLoc_loc ..)

/-- The resources of a reaped process are freed. -/
theorem Inv.finalize (h : s.Inv) (hloc : (s.cpu c).loc = .finalize pid) :
    ({ s with finalized := s.finalized ++ [pid] }.setLoc c .top).Inv := by
  have hpost : (s.cpu c).postSwitch = .none := h.core hloc
  set s' := { s with finalized := s.finalized ++ [pid] }.setLoc c .top with hs'
  set k : Cpu := { s.cpu c with loc := .top } with hk
  have hcpu : s'.cpu = Function.update s.cpu c k := rfl
  have harmed := armed_update hcpu rfl (by rw [hloc]; rfl)
  refine h.frame pid hcpu (fun _ _ => rfl) ⟨le_rfl, fun _ _ => id⟩ (fun _ _ => rfl)
    (fun _ _ => rfl) (fun q hq => ?_) (fun q hq hqp => ?_) (fun q _ _ => harmed q)
    (fun _ => h.zero.1) (fun hne => ?_) (fun _ _ _ _ => ⟨rfl, fun _ => harmed _⟩) hpost
  · change (s.finalized ++ [pid]).count q = _
    simp [Ne.symm hq]
  · refine ⟨?_, ?_, ?_, ?_⟩ <;>
      simp [hloc, hk, Loc.token, Loc.owner, Loc.newborn, Loc.finishing, ind_of_ne (Ne.symm hqp),
        ind_of_ne (Ne.symm hq)]
  · have hle := s.le_finishing c pid
    rw [hloc, show (Loc.finalize pid).finishing = pid from rfl, ind_self] at hle
    obtain ⟨ht', hh', hb', hf'⟩ := counts_update hcpu pid
    simp only [hloc, hk, Loc.token, Loc.owner, Loc.newborn, Loc.finishing, ind_self,
      ind_of_ne (Ne.symm hne)] at ht' hh' hb' hf'
    have hpid := h.pids pid hne
    unfold PidOk at hpid ⊢
    rw [show s'.table pid = s.table pid from rfl]
    cases hp : s.table pid with
    | some p =>
      rw [hp] at hpid
      omega
    | none =>
      rw [hp] at hpid
      obtain ⟨hh, hf, hr, hcase⟩ := hpid
      have hcount : s'.finalized.count pid = s.finalized.count pid + 1 := by
        rw [show s'.finalized = s.finalized ++ [pid] from rfl]
        simp
      have hreaped : s'.reaped.count pid = s.reaped.count pid := rfl
      have hinserted : s'.inserted.count pid = s.inserted.count pid := rfl
      have hnext : s'.nextPid = s.nextPid := rfl
      refine ⟨by omega, by omega, by omega, ?_⟩
      omega

/-- `spawn_inner` takes a pid. -/
theorem Inv.spawnInner (h : s.Inv) {link : Bool} {ref : Option ℕ}
    (hloc : (s.cpu c).loc = .exec pid (.spawnInner link ref)) :
    ({ s with nextPid := s.nextPid + 1 }.setLoc c
      (.exec pid (.spawnPid s.nextPid link ref))).Inv := by
  have hcore := h.core hloc
  have hpos := h.zero.2
  set s' := { s with nextPid := s.nextPid + 1 }.setLoc c
    (.exec pid (.spawnPid s.nextPid link ref)) with hs'
  set k : Cpu := { s.cpu c with loc := .exec pid (.spawnPid s.nextPid link ref) } with hk
  have hcpu : s'.cpu = Function.update s.cpu c k := rfl
  have hnext : s'.nextPid = s.nextPid + 1 := rfl
  have harmed := armed_update hcpu rfl (by rw [hloc]; rfl)
  refine h.frame s.nextPid hcpu (fun _ _ => rfl) ⟨by omega, fun q hq hlt => by omega⟩
    (fun _ _ => rfl) (fun _ _ => rfl) (fun _ _ => rfl) (fun q hq hqp => ?_)
    (fun q _ _ => harmed q) (fun _ => h.zero.1) (fun hne => ?_)
    (fun _ _ _ _ => ⟨rfl, fun _ => harmed _⟩) ?_
  · refine ⟨?_, ?_, ?_, ?_⟩ <;>
      simp [hloc, hk, Loc.token, Loc.owner, Loc.newborn, Loc.finishing, ind_of_ne (Ne.symm hqp),
        ind_of_ne (Ne.symm hq)]
  · obtain ⟨ht', hh', hb', hf'⟩ := counts_update hcpu s.nextPid
    simp only [hloc, hk, Loc.token, Loc.owner, Loc.newborn, Loc.finishing, ind_self,
      ind_of_ne (Ne.symm hne)] at ht' hh' hb' hf'
    have hpid := h.pids s.nextPid hne
    unfold PidOk at hpid ⊢
    rw [show s'.table s.nextPid = s.table s.nextPid from rfl]
    cases hp : s.table s.nextPid with
    | some p =>
      rw [hp] at hpid
      omega
    | none =>
      rw [hp] at hpid
      obtain ⟨hh, hf, hr, hcase⟩ := hpid
      have hfinal : s'.finalized.count s.nextPid = s.finalized.count s.nextPid := rfl
      have hreaped : s'.reaped.count s.nextPid = s.reaped.count s.nextPid := rfl
      have hinserted : s'.inserted.count s.nextPid = s.inserted.count s.nextPid := rfl
      refine ⟨by omega, by omega, by omega, .inl ?_⟩
      omega
  · exact ⟨hcore.1, fun hne => hcore.2 hne, Nat.ne_of_gt hpos⟩

/-- A child is inserted and its parent is to queue it. -/
private theorem Inv.insert (h : s.Inv) {child : ℕ} {link : Bool} {ref : Option ℕ}
    {monitors : List (ℕ × ℕ)} {links : List ℕ}
    (hloc : (s.cpu c).loc = .exec pid (.spawnInsert child link ref monitors)) :
    ({ s.setProc child (.fresh links monitors) with inserted := s.inserted ++ [child] }.setLoc c
      (.exec pid (.spawnEnqueue child ref))).Inv := by
  have hcore := h.core hloc
  obtain ⟨hpost, hrun, hne⟩ := hcore
  set s' := { s.setProc child (.fresh links monitors) with
    inserted := s.inserted ++ [child] }.setLoc c (.exec pid (.spawnEnqueue child ref)) with hs'
  set k : Cpu := { s.cpu c with loc := .exec pid (.spawnEnqueue child ref) } with hk
  have hcpu : s'.cpu = Function.update s.cpu c k := rfl
  have hentry : s'.table child = some (.fresh links monitors) := setProc_table_self ..
  have harmed := armed_update hcpu rfl (by rw [hloc]; rfl)
  have hle := s.le_births c child
  rw [hloc, show (Loc.exec pid (.spawnInsert child link ref monitors)).newborn = child from rfl,
    ind_self] at hle
  have hpid := h.pids child hne
  have hnone : s.table child = none := by
    unfold PidOk at hpid
    cases hp : s.table child with
    | none => rfl
    | some p =>
      rw [hp] at hpid
      omega
  rw [PidOk, hnone] at hpid
  obtain ⟨hh, hf, hr, hcase⟩ := hpid
  have hne' : pid ≠ child := by
    rintro rfl
    obtain ⟨p, hp, -⟩ := h.owned (by rw [hloc]; rfl) hne
    rw [hnone] at hp
    cases hp
  obtain ⟨ht', hh', hb', hf'⟩ := counts_update hcpu child
  simp only [hloc, hk, Loc.token, Loc.owner, Loc.newborn, Loc.finishing, ind_self,
    ind_of_ne (Ne.symm hne), ind_of_ne hne'] at ht' hh' hb' hf'
  refine h.frame child hcpu (fun q hq => setProc_table_ne hq ..) ⟨le_rfl, fun _ _ => id⟩
    (fun q hq => ?_) (fun _ _ => rfl) (fun _ _ => rfl) (fun q hq hqp => ?_)
    (fun q _ _ => harmed q) (fun hzero => absurd hzero hne) (fun _ => ?_) (fun _ d _ howns => ?_) ?_
  · change (s.inserted ++ [child]).count q = _
    simp [Ne.symm hq]
  · refine ⟨?_, ?_, ?_, ?_⟩ <;>
      simp [hloc, hk, Loc.token, Loc.owner, Loc.newborn, Loc.finishing, ind_of_ne (Ne.symm hqp),
        ind_of_ne (Ne.symm hq)]
  · have hcount : s'.inserted.count child = s.inserted.count child + 1 := by
      rw [show s'.inserted = s.inserted ++ [child] from rfl]
      simp
    have hreaped : s'.reaped.count child = s.reaped.count child := rfl
    have hfinal : s'.finalized.count child = s.finalized.count child := rfl
    have hnext : s'.nextPid = s.nextPid := rfl
    rw [PidOk, hentry]
    exact ⟨by omega, by omega, by omega, by omega, by omega, by omega, by omega, by omega, rfl,
      .body, rfl, by simp⟩
  · exact absurd howns (owner_ne_of_holders hh d)
  · refine ⟨hpost, fun hp0 => ?_⟩
    rw [← hrun hp0, stateOf, stateOf, view, view]
    have hsame : s'.table pid = s.table pid := setProc_table_ne hne' ..
    rw [hsame]

/-- `spawn_inner` inserts the child. -/
theorem Inv.insertChild (h : s.Inv) {child : ℕ} {link : Bool} {ref : Option ℕ}
    {monitors : List (ℕ × ℕ)}
    (hloc : (s.cpu c).loc = .exec pid (.spawnInsert child link ref monitors)) :
    (s.insertChild c pid child link ref monitors).Inv := by
  unfold Machine.insertChild
  cases link with
  | false => exact h.insert hloc
  | true =>
    cases hp : s.table pid with
    | none => exact h.insert hloc
    | some pp =>
      have hlinked : (s.setProc pid { pp with links := pp.links ++ [child] }).Inv :=
        h.setProc hp rfl rfl (fun _ => rfl) fun _ => rfl
      exact hlinked.insert hloc

/-- `spawn_inner` queues the child. -/
theorem Inv.spawnEnqueue (h : s.Inv) {child : ℕ} {ref : Option ℕ}
    (hloc : (s.cpu c).loc = .exec pid (.spawnEnqueue child ref)) :
    ((s.enqueue c child).setLoc c (.exec pid .body)).Inv := by
  have hcore := h.core hloc
  set s' := (s.enqueue c child).setLoc c (.exec pid .body) with hs'
  set k : Cpu := { s.cpu c with loc := .exec pid .body, runq := (s.cpu c).runq ++ [child] } with hk
  have hcpu : s'.cpu = Function.update s.cpu c k := by
    simp [hs', hk, enqueue, setLoc, setCpu]
  have harmed := armed_update hcpu rfl (by rw [hloc]; rfl)
  refine h.frame 0 hcpu (fun _ _ => rfl) ⟨le_rfl, fun _ _ => id⟩ (fun _ _ => rfl)
    (fun _ _ => rfl) (fun _ _ => rfl) (fun q hq _ => ?_) (fun q _ _ => harmed q)
    (fun _ => h.zero.1) (fun hne => absurd rfl hne) (fun hne => absurd rfl hne) hcore
  refine ⟨?_, ?_, ?_, ?_⟩
  · simp only [hloc, hk, Loc.token, List.count_append, List.count_singleton,
      ind_of_ne (Ne.symm hq), beq_iff_eq]
    rfl
  all_goals
    rw [hloc, hk]
    rfl

/-- A spawn is abandoned before the child is inserted. -/
theorem Inv.abandon (h : s.Inv) {child : ℕ} {pos : Pos}
    (hloc : (s.cpu c).loc = .exec pid pos) (hnewborn : (Loc.exec pid pos).newborn = child)
    (hne : child ≠ 0) (htoken : (Loc.exec pid pos).token = 0)
    (hcore : s.CoreOk (s.cpu c).postSwitch (.exec pid .body)) :
    (s.setLoc c (.exec pid .body)).Inv := by
  set k : Cpu := { s.cpu c with loc := .exec pid .body } with hk
  have hcpu : (s.setLoc c (.exec pid .body)).cpu = Function.update s.cpu c k := rfl
  have harmed := armed_update hcpu rfl (by rw [hloc]; rfl)
  have hle := s.le_births c child
  rw [hloc, hnewborn, ind_self] at hle
  obtain ⟨ht', hh', hb', hf'⟩ := counts_update hcpu child
  rw [hloc, htoken] at ht'
  rw [hloc, hnewborn, ind_self] at hb'
  rw [hloc] at hh' hf'
  change _ = s.tokens child + ((s.cpu c).runq.count child + ind 0 child) at ht'
  change _ + ind pid child = _ + ind pid child at hh'
  change _ = s.births child + ind 0 child at hb'
  change _ + ind 0 child = _ + ind 0 child at hf'
  rw [ind_of_ne (Ne.symm hne)] at hb'
  refine h.frame child hcpu (fun _ _ => rfl) ⟨le_rfl, fun _ _ => id⟩ (fun _ _ => rfl)
    (fun _ _ => rfl) (fun _ _ => rfl) (fun q hq hqp => ?_) (fun q _ _ => harmed q)
    (fun _ => h.zero.1) (fun _ => ?_) (fun _ _ _ _ => ⟨rfl, fun _ => harmed _⟩) ?_
  · refine ⟨?_, ?_, ?_, ?_⟩
    · rw [hloc, htoken]
      rfl
    · rw [hloc]
      rfl
    · rw [hloc, hnewborn, ind_of_ne (Ne.symm hqp)]
      exact ind_of_ne (Ne.symm hq)
    · rw [hloc]
      rfl
  · have hpid := h.pids child hne
    unfold PidOk at hpid ⊢
    rw [show (s.setLoc c (.exec pid .body)).table child = s.table child from rfl]
    cases hp : s.table child with
    | some p =>
      rw [hp] at hpid
      omega
    | none =>
      rw [hp] at hpid
      obtain ⟨hh, hf, hr, hcase⟩ := hpid
      change _ ∧ _ + s.finalized.count child = s.reaped.count child ∧
        s.reaped.count child = s.inserted.count child ∧
        ((_ ∧ s.inserted.count child = 0 ∧ _ ∧ (s.nextPid ≤ child → _)) ∨
          (_ ∧ s.inserted.count child = 1 ∧ child < s.nextPid))
      refine ⟨by omega, by omega, by omega, .inl ?_⟩
      omega
  · exact hcore.congr (fun _ => rfl) fun _ => harmed _

end Machine

end Yggdrasil.Sched
