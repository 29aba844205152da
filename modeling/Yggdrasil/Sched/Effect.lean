import Yggdrasil.Sched.Safety

/-!
# What a step does to processes and references

Most steps change the processes one by one: they keep links and monitors, put nothing
but ordinary messages into mailboxes, and never revive a process that is dead or
killed. The others hand a monitor reference on, insert a child or reap a process. The
lemma `Step.effect` says so once, for all steps.
-/

namespace Yggdrasil.Sched

variable {n : ℕ} {μ : Type}

namespace Process

/-- The process is dead or killed. -/
def Doomed (p : Process μ) : Prop := p.state = .dead ∨ p.killPending = true

/-- `deliver_fragment` on the receiver, for messages in a row. -/
def receive (fs : List (Fragment μ)) (p : Process μ) : Process μ :=
  if p.state = .dead ∨ fs = [] then p
  else { p with
    mailbox := p.mailbox ++ fs
    state := if p.state = .waiting then .runnable else p.state }

/-- `mark_dead` on the process. -/
def mark (reason : String) (p : Process μ) : Process μ :=
  match p.state with
  | .dead => p
  | .running => if p.killPending then p else { p with killPending := true, exitReason := reason }
  | .runnable | .waiting => { p with state := .dead, exitReason := reason }

/-- The process gets a new link. -/
def link (pid : ℕ) (p : Process μ) : Process μ := { p with links := p.links ++ [pid] }

/-- The process gets a new monitor. -/
def watch (m : ℕ × ℕ) (p : Process μ) : Process μ := { p with monitors := p.monitors ++ [m] }

/-- A change of one process that concerns no link and no monitor. -/
structure Locally (p p' : Process μ) : Prop where
  /-- Links stay. -/
  links : p'.links = p.links
  /-- Monitors stay. -/
  monitors : p'.monitors = p.monitors
  /-- The dead stay dead. -/
  dead : p.state = .dead → p'.state = .dead
  /-- A killed process stays so and takes no message. -/
  doomed : p.Doomed → p'.Doomed ∧ p.mailbox <+: p'.mailbox
  /-- New messages are ordinary ones. -/
  sent : ∀ f ∈ p'.mailbox.drop p.mailbox.length, ∃ msg, f = .sent msg

variable {p : Process μ}

/-- No message, no change. -/
@[simp] theorem receive_nil (p : Process μ) : p.receive [] = p := by simp [receive]

/-- Receiving leaves the links. -/
@[simp] theorem receive_links (fs : List (Fragment μ)) : (p.receive fs).links = p.links := by
  unfold receive
  split <;> rfl

/-- Receiving leaves the monitors. -/
@[simp] theorem receive_monitors (fs : List (Fragment μ)) :
    (p.receive fs).monitors = p.monitors := by
  unfold receive
  split <;> rfl

/-- Receiving does not cancel a kill. -/
@[simp] theorem receive_killPending (fs : List (Fragment μ)) :
    (p.receive fs).killPending = p.killPending := by
  unfold receive
  split <;> rfl

/-- Receiving neither kills nor revives. -/
@[simp] theorem receive_dead_iff (fs : List (Fragment μ)) :
    (p.receive fs).state = .dead ↔ p.state = .dead := by
  unfold receive
  split
  · rfl
  · dsimp only
    split <;> simp_all

/-- What a living process receives. -/
theorem receive_mailbox (fs : List (Fragment μ)) :
    (p.receive fs).mailbox = p.mailbox ++ if p.state = .dead then [] else fs := by
  unfold receive
  by_cases hdead : p.state = .dead
  · simp [hdead]
  · by_cases hfs : fs = [] <;> simp [hdead, hfs]

/-- One batch of messages after the other. -/
theorem receive_receive (fs gs : List (Fragment μ)) :
    (p.receive fs).receive gs = p.receive (fs ++ gs) := by
  by_cases hdead : p.state = .dead
  · simp [receive, hdead]
  · by_cases hfs : fs = []
    · simp [hfs]
    · by_cases hgs : gs = []
      · simp [hgs]
      · by_cases hwait : p.state = .waiting <;> simp [receive, hdead, hfs, hgs, hwait]

/-- A killed process keeps its links. -/
@[simp] theorem mark_links (reason : String) : (p.mark reason).links = p.links := by
  unfold mark
  split <;> (try split) <;> rfl

/-- A killed process keeps its monitors. -/
@[simp] theorem mark_monitors (reason : String) : (p.mark reason).monitors = p.monitors := by
  unfold mark
  split <;> (try split) <;> rfl

/-- A killed process keeps its mailbox. -/
@[simp] theorem mark_mailbox (reason : String) : (p.mark reason).mailbox = p.mailbox := by
  unfold mark
  split <;> (try split) <;> rfl

/-- A marked process is doomed. -/
theorem mark_doomed (reason : String) : (p.mark reason).Doomed := by
  unfold mark Doomed
  split
  · exact .inl ‹_›
  · split
    · exact .inr ‹_›
    · exact .inr rfl
  · exact .inl rfl
  · exact .inl rfl

/-- Marking does not revive. -/
theorem mark_dead (reason : String) (h : p.state = .dead) : (p.mark reason).state = .dead := by
  simp [mark, h]

/-- The first reason counts. -/
theorem mark_mark (reason reason' : String) : (p.mark reason).mark reason' = p.mark reason := by
  cases hstate : p.state with
  | dead => simp [mark, hstate]
  | running => by_cases hkill : p.killPending <;> simp [mark, hstate, hkill]
  | runnable => simp [mark, hstate]
  | waiting => simp [mark, hstate]

/-- Receiving ordinary messages is a local change. -/
theorem locally_receive (msgs : List μ) : p.Locally (p.receive (msgs.map .sent)) := by
  refine ⟨by simp, by simp, by simp, fun hdoom => ⟨?_, ?_⟩, fun f hf => ?_⟩
  · simpa [Doomed] using hdoom
  · rw [receive_mailbox]
    exact List.prefix_append _ _
  · rw [receive_mailbox, List.drop_left] at hf
    split at hf
    · cases hf
    · obtain ⟨msg, -, rfl⟩ := List.mem_map.mp hf
      exact ⟨msg, rfl⟩

/-- A change of other parts of a process. -/
theorem Locally.of_eq {p' : Process μ} (hlinks : p'.links = p.links)
    (hmonitors : p'.monitors = p.monitors) (hmailbox : p'.mailbox = p.mailbox)
    (hdead : p.state = .dead → p'.state = .dead) (hdoomed : p.Doomed → p'.Doomed) :
    p.Locally p' := by
  refine ⟨hlinks, hmonitors, hdead, fun h => ⟨hdoomed h, ?_⟩, fun f hf => ?_⟩
  · rw [hmailbox]
  · simp [hmailbox] at hf

/-- Nothing changes. -/
theorem Locally.refl (p : Process μ) : p.Locally p := .of_eq rfl rfl rfl id id

/-- Marking is a local change. -/
theorem locally_mark (reason : String) : p.Locally (p.mark reason) :=
  .of_eq (by simp) (by simp) (by simp) (mark_dead reason) fun _ => mark_doomed reason

end Process

namespace Machine

section Tables

variable (c : Fin n) (s : Machine n μ)

/-- What a core does leaves the table. -/
@[simp] theorem setCpu_table (k : Cpu) : (s.setCpu c k).table = s.table := rfl

/-- A core that moves leaves the table. -/
@[simp] theorem setLoc_table (l : Loc) : (s.setLoc c l).table = s.table := rfl

/-- Queueing leaves the table. -/
@[simp] theorem enqueue_table (pid : ℕ) : (s.enqueue c pid).table = s.table := rfl

/-- Delivery concerns the receiver. -/
theorem deliverFragment_table (dest : ℕ) (f : Fragment μ) (q : ℕ) :
    (s.deliverFragment c dest f).table q =
      if q = dest then (s.table q).map (.receive [f]) else s.table q := by
  unfold deliverFragment
  by_cases hq : q = dest
  · subst hq
    rw [if_pos rfl]
    cases hp : s.table q with
    | none => simp [hp]
    | some p =>
      by_cases hdead : p.state = .dead
      · simp [hp, hdead, Process.receive]
      · by_cases hwait : p.state = .waiting <;>
          simp [hdead, hwait, Process.receive, setProc_table_self]
  · rw [if_neg hq]
    split
    · rfl
    · dsimp only
      split
      · rfl
      · split
        · exact setProc_table_ne hq _ _
        · exact setProc_table_ne hq _ _

/-- Marking concerns the process marked. -/
theorem markDead_table (pid : ℕ) (reason : String) (q : ℕ) :
    (s.markDead c pid reason).table q =
      if q = pid then (s.table q).map (.mark reason) else s.table q := by
  unfold markDead
  by_cases hq : q = pid
  · subst hq
    rw [if_pos rfl]
    cases hp : s.table q with
    | none => simp [hp]
    | some p =>
      cases hstate : p.state with
      | dead => simp [hp, hstate, Process.mark]
      | running =>
        by_cases hkill : p.killPending <;>
          simp [hp, hstate, hkill, Process.mark, setProc_table_self]
      | runnable => simp [hstate, Process.mark, setProc_table_self]
      | waiting => simp [hstate, Process.mark, setProc_table_self]
  · rw [if_neg hq]
    split
    · rfl
    · split
      · rfl
      · split
        · rfl
        · exact setProc_table_ne hq _ _
      · exact setProc_table_ne hq _ _
      · exact setProc_table_ne hq _ _

/-- The messages a list of monitors of a dead process has for a watcher. -/
def downs (dead : ℕ) (reason : String) (ms : List (ℕ × ℕ)) (q : ℕ) : List (Fragment μ) :=
  (ms.filter fun m => m.2 = q).map fun m => .down m.1 dead reason

/-- Every watcher gets its messages. -/
theorem notifyMonitors_table (dead : ℕ) (reason : String) (ms : List (ℕ × ℕ)) (q : ℕ) :
    (s.notifyMonitors c dead reason ms).table q =
      (s.table q).map (.receive (downs dead reason ms q)) := by
  induction ms generalizing s with
  | nil =>
    rw [notifyMonitors, downs, List.filter_nil, List.map_nil]
    cases s.table q <;> simp
  | cons m ms ih =>
    obtain ⟨ref, watcher⟩ := m
    rw [notifyMonitors, ih, deliverDown, deliverFragment_table]
    by_cases hq : q = watcher
    · subst hq
      rw [if_pos rfl, Option.map_map]
      congr 1
      funext p
      simp [Process.receive_receive, downs]
    · have hne : ¬watcher = q := Ne.symm hq
      rw [if_neg hq]
      simp [downs, hne]

/-- Every linked process is marked. -/
theorem signalLinks_table (reason : String) (ls : List ℕ) (q : ℕ) :
    (s.signalLinks c reason ls).table q =
      (s.table q).map fun p => if q ∈ ls then p.mark reason else p := by
  induction ls generalizing s with
  | nil =>
    rw [signalLinks]
    cases s.table q <;> simp
  | cons l ls ih =>
    rw [signalLinks, ih, markDead_table]
    by_cases hq : q = l
    · subst hq
      rw [if_pos rfl, Option.map_map]
      congr 1
      funext p
      by_cases hmem : q ∈ ls <;> simp [hmem, Process.mark_mark]
    · rw [if_neg hq]
      simp [hq]

/-- What the reaping of process `p` does to another one. -/
def aftermath (pid : ℕ) (p : Process μ) (q : ℕ) (x : Process μ) : Process μ :=
  if p.exitReason ≠ "normal" ∧ q ∈ p.links then
    (x.receive (downs pid p.exitReason p.monitors q)).mark p.exitReason
  else x.receive (downs pid p.exitReason p.monitors q)

/-- Reaping removes the process and sends its signals to the others. -/
theorem reap_table (pid : ℕ) (p : Process μ) (q : ℕ) :
    (s.reap c pid p).table q =
      if q = pid then none else (s.table q).map (aftermath pid p q) := by
  have hremove : (s.remove pid).table q = if q = pid then none else s.table q := by
    change Function.update s.table pid none q = _
    rw [Function.update_apply]
  unfold reap aftermath
  dsimp only
  by_cases hnormal : p.exitReason = "normal"
  · rw [if_pos hnormal, notifyMonitors_table, hremove]
    by_cases hq : q = pid <;> simp [hq, hnormal]
  · rw [if_neg hnormal, signalLinks_table, notifyMonitors_table, hremove]
    by_cases hq : q = pid
    · simp [hq]
    · simp only [hq, if_false, Option.map_map]
      congr 1
      funext x
      by_cases hmem : q ∈ p.links <;> simp [hnormal, hmem]

end Tables

section Locs

variable (c : Fin n) (s : Machine n μ)

/-- Where the cores stand. -/
def locs : Fin n → Loc := fun d => (s.cpu d).loc

/-- Writing a core moves this one. -/
@[simp] theorem locs_setCpu (k : Cpu) :
    (s.setCpu c k).locs = Function.update s.locs c k.loc := by
  funext d
  by_cases hd : d = c
  · subst hd
    simp [locs, setCpu]
  · simp [locs, setCpu, hd]

/-- Moving a core moves this one. -/
@[simp] theorem locs_setLoc (l : Loc) : (s.setLoc c l).locs = Function.update s.locs c l :=
  locs_setCpu ..

/-- Queueing moves no core. -/
@[simp] theorem locs_enqueue (pid : ℕ) : (s.enqueue c pid).locs = s.locs := by
  rw [enqueue, locs_setCpu]
  exact Function.update_eq_self c s.locs

/-- A core steals a process from another one. -/
theorem locs_steal (d : Fin n) (rest : List ℕ) (l : Loc) :
    ((s.setCpu d { s.cpu d with runq := rest }).setLoc c l).locs = Function.update s.locs c l := by
  rw [locs_setLoc, locs_setCpu]
  exact congrArg (Function.update · c _) (Function.update_eq_self d s.locs)

/-- Writing an entry moves no core. -/
@[simp] theorem locs_setProc (pid : ℕ) (p : Process μ) : (s.setProc pid p).locs = s.locs := rfl

/-- Deliveries move no core. -/
@[simp] theorem locs_deliverFragment (dest : ℕ) (f : Fragment μ) :
    (s.deliverFragment c dest f).locs = s.locs :=
  deliverFragment_observe locs locs_setProc (fun s c _ => locs_enqueue c s _) ..

/-- Killings move no core. -/
@[simp] theorem locs_markDead (pid : ℕ) (reason : String) :
    (s.markDead c pid reason).locs = s.locs :=
  markDead_observe locs locs_setProc (fun s c _ => locs_enqueue c s _) ..

/-- Exit signals move no core. -/
@[simp] theorem locs_reap (pid : ℕ) (p : Process μ) : (s.reap c pid p).locs = s.locs :=
  reap_observe locs locs_setProc (fun s c _ => locs_enqueue c s _) ..

/-- The deferred transition moves no core. -/
@[simp] theorem locs_deferred (post : PostSwitch) : (s.deferred c post).locs = s.locs :=
  deferred_observe locs locs_setProc (fun s c _ => locs_enqueue c s _) ..

end Locs

section Refs

variable (c : Fin n) (s : Machine n μ)

/-- The slot and the counter for references. -/
def refSlot : Option (ℕ × ℕ) × ℕ := (s.monitorAtSpawn, s.nextRef)

/-- Moving a core takes no reference. -/
@[simp] theorem refSlot_setLoc (l : Loc) : (s.setLoc c l).refSlot = s.refSlot := rfl

/-- Deliveries take no reference. -/
@[simp] theorem refSlot_deliverFragment (dest : ℕ) (f : Fragment μ) :
    (s.deliverFragment c dest f).refSlot = s.refSlot :=
  deliverFragment_observe refSlot (fun _ _ _ => rfl) (fun _ _ _ => rfl) ..

/-- Killings take no reference. -/
@[simp] theorem refSlot_markDead (pid : ℕ) (reason : String) :
    (s.markDead c pid reason).refSlot = s.refSlot :=
  markDead_observe refSlot (fun _ _ _ => rfl) (fun _ _ _ => rfl) ..

/-- Exit signals take no reference. -/
@[simp] theorem refSlot_reap (pid : ℕ) (p : Process μ) :
    (s.reap c pid p).refSlot = s.refSlot :=
  reap_observe refSlot (fun _ _ _ => rfl) (fun _ _ _ => rfl) ..

end Refs

end Machine

/-- The monitor references a core holds, with their watchers. -/
def Loc.refs : Loc → List (ℕ × ℕ)
  | .exec w (.monitor _ r) => [(r, w)]
  | .exec w (.spawnMonitor r) => [(r, w)]
  | .exec _ (.spawnInsert _ _ _ ms) => ms
  | _ => []

/-- How a core may get to a location without touching a reference. A spawn once begun
is left by a fault only. -/
def Loc.Goes : Loc → Loc → Prop
  | .exec w (.spawnInner link ref), l =>
    (∃ child, l = .exec w (.spawnPid child link ref)) ∨ l = .exec w .fatalSwitch
  | .exec w (.spawnPid _ _ _), l => l = .exec w .fatalSwitch
  | l, .exec w (.spawnInner _ ref) => l = .exec w .body ∧ ref = none
  | _, .exec _ (.spawnPid _ _ _) | _, .exec _ (.monitor _ _) | _, .exec _ (.spawnMonitor _)
  | _, .exec _ (.spawnInsert _ _ _ _) | _, .exec _ (.spawnEnqueue _ _) => False
  | l, .exec w .body => ∀ target ref, l ≠ .exec w (.monitor target ref)
  | _, _ => True

/-- What a step does to processes and references. -/
inductive Effect (s s' : Machine n μ) : Prop
  /-- Processes change one by one. -/
  | quiet : s'.refSlot = s.refSlot →
      (s'.locs = s.locs ∨ ∃ c l, s'.locs = Function.update s.locs c l ∧ (s.locs c).Goes l) →
      (∀ q, Option.Rel Process.Locally (s.table q) (s'.table q)) → Effect s s'
  /-- A routine takes a reference. -/
  | alloc (c : Fin n) (w : ℕ) (pos : Pos) : s.locs c = .exec w .body →
      (pos = .spawnMonitor s.nextRef ∨ ∃ target, pos = .monitor target s.nextRef) →
      s'.refSlot = (s.monitorAtSpawn, s.nextRef + 1) →
      s'.locs = Function.update s.locs c (.exec w pos) → s'.table = s.table → Effect s s'
  /-- `spawn_monitor` leaves the reference. -/
  | leave (c : Fin n) (w r : ℕ) : s.locs c = .exec w (.spawnMonitor r) →
      s'.refSlot = (some (r, w), s.nextRef) →
      s'.locs = Function.update s.locs c (.exec w (.spawnInner false (some r))) →
      s'.table = s.table → Effect s s'
  /-- `spawn_inner` takes what was left. -/
  | pick (c : Fin n) (w child : ℕ) (link : Bool) (ref : Option ℕ) :
      s.locs c = .exec w (.spawnPid child link ref) → s'.refSlot = (none, s.nextRef) →
      s'.locs = Function.update s.locs c
        (.exec w (.spawnInsert child link ref s.monitorAtSpawn.toList)) →
      s'.table = s.table → Effect s s'
  /-- A child is inserted. -/
  | insert (c : Fin n) (w child : ℕ) (link : Bool) (ref : Option ℕ) (ms : List (ℕ × ℕ)) :
      s.locs c = .exec w (.spawnInsert child link ref ms) → s'.refSlot = s.refSlot →
      s'.locs = Function.update s.locs c (.exec w (.spawnEnqueue child ref)) →
      s.table child = none →
      (∀ q, s'.table q =
        if q = child then
          some (.fresh (if link = true ∧ (s.table w).isSome = true then [w] else []) ms)
        else if link = true ∧ q = w then (s.table q).map (.link child) else s.table q) →
      Effect s s'
  /-- `monitor` registers the reference. -/
  | register (c : Fin n) (w target r : ℕ) (p : Process μ) :
      s.locs c = .exec w (.monitor target r) → s'.refSlot = s.refSlot →
      s'.locs = Function.update s.locs c (.exec w .body) → s.table target = some p →
      p.state ≠ .dead →
      s'.table = Function.update s.table target (some (p.watch (r, w))) → Effect s s'
  /-- `monitor` answers at once. -/
  | noproc (c : Fin n) (w target r : ℕ) : s.locs c = .exec w (.monitor target r) →
      s'.refSlot = s.refSlot → s'.locs = Function.update s.locs c (.exec w .body) →
      (∀ p, s.table target = some p → p.state = .dead) →
      (∀ q, s'.table q =
        if q = w then (s.table q).map (.receive [.down r target "noproc"]) else s.table q) →
      Effect s s'
  /-- A process is reaped. -/
  | reap (c : Fin n) (pid : ℕ) (p : Process μ) : s'.refSlot = s.refSlot →
      (s.locs c = .popped pid ∨ s.locs c = .switched pid) →
      s'.locs = Function.update s.locs c (.finalize pid) → s.table pid = some p →
      s'.reaped = s.reaped ++ [pid] →
      (∀ q, s'.table q = if q = pid then none else (s.table q).map (Machine.aftermath pid p q)) →
      Effect s s'

namespace Machine

variable {s s' : Machine n μ} {c : Fin n} {pid : ℕ} {p p' : Process μ}

/-- An unchanged table has changed locally. -/
theorem rel_refl (s : Machine n μ) (q : ℕ) :
    Option.Rel Process.Locally (s.table q) (s.table q) := by
  cases s.table q with
  | none => exact .none
  | some p => exact .some (.refl p)

private theorem rel_setProc (hp : s.table pid = some p) (h : p.Locally p') (q : ℕ) :
    Option.Rel Process.Locally (s.table q) ((s.setProc pid p').table q) := by
  by_cases hq : q = pid
  · subst hq
    rw [setProc_table_self, hp]
    exact .some h
  · rw [setProc_table_ne hq]
    exact s.rel_refl q

private theorem rel_map {q : ℕ} {f : Process μ → Process μ} (h : ∀ p : Process μ, p.Locally (f p)) :
    Option.Rel Process.Locally (s.table q) ((s.table q).map f) := by
  cases s.table q with
  | none => exact .none
  | some p => exact .some (h p)

/-- A quiet step of a core. -/
private theorem effect_quiet {l l₀ : Loc} (hloc : (s.cpu c).loc = l₀)
    (hslot : s'.refSlot = s.refSlot) (hlocs : s'.locs = Function.update s.locs c l)
    (hgoes : l₀.Goes l)
    (htable : ∀ q, Option.Rel Process.Locally (s.table q) (s'.table q)) : Effect s s' :=
  .quiet hslot (.inr ⟨c, l, hlocs, by rw [locs, hloc]; exact hgoes⟩) htable

private theorem effect_move {l l₀ : Loc} (hloc : (s.cpu c).loc = l₀) (hgoes : l₀.Goes l) :
    Effect s (s.setLoc c l) :=
  effect_quiet hloc rfl (locs_setLoc ..) hgoes s.rel_refl

private theorem effect_setProc {l l₀ : Loc} (hloc : (s.cpu c).loc = l₀) (hgoes : l₀.Goes l)
    (hp : s.table pid = some p) (h : p.Locally p') :
    Effect s ((s.setProc pid p').setLoc c l) :=
  effect_quiet hloc rfl (locs_setLoc ..) hgoes (rel_setProc hp h)

private theorem effect_send (dest : ℕ) (msg : μ) :
    Effect s (s.deliverFragment c dest (.sent msg)) := by
  refine .quiet (refSlot_deliverFragment ..) (.inl (locs_deliverFragment ..)) fun q => ?_
  rw [deliverFragment_table]
  split
  · exact rel_map fun p => Process.locally_receive [msg]
  · exact s.rel_refl q

private theorem effect_mark (pid : ℕ) (reason : String) :
    Effect s (s.markDead c pid reason) := by
  refine .quiet (refSlot_markDead ..) (.inl (locs_markDead ..)) fun q => ?_
  rw [markDead_table]
  split
  · exact rel_map fun p => Process.locally_mark reason
  · exact s.rel_refl q

private theorem rel_mono {r r' : Process μ → Process μ → Prop} (h : ∀ a b, r a b → r' a b)
    {x y : Option (Process μ)} (hxy : Option.Rel r x y) : Option.Rel r' x y := by
  cases hxy with
  | none => exact .none
  | some h₁ => exact .some (h _ _ h₁)

/-- A process is woken, or nothing happens to it. -/
private def Woken (p p' : Process μ) : Prop :=
  p' = p ∨ (p.state = .waiting ∧ p' = { p with state := .runnable })

private theorem Woken.trans {p'' : Process μ} (h : Woken p p') (h' : Woken p' p'') :
    Woken p p'' := by
  rcases h with rfl | ⟨hwait, rfl⟩
  · exact h'
  · rcases h' with rfl | ⟨hwait', -⟩
    · exact .inr ⟨hwait, rfl⟩
    · cases hwait'

private theorem rel_woken_trans {x y z : Option (Process μ)} (hxy : Option.Rel Woken x y)
    (hyz : Option.Rel Woken y z) : Option.Rel Woken x z := by
  cases hxy with
  | none =>
    cases hyz with
    | none => exact .none
  | some h =>
    cases hyz with
    | some h' => exact .some (h.trans h')

private theorem Woken.locally (h : Woken p p') : p.Locally p' := by
  rcases h with rfl | ⟨hwait, rfl⟩
  · exact .refl p'
  · exact .of_eq rfl rfl rfl (fun hdead => by rw [hwait] at hdead; cases hdead)
      fun hdoom => .inr (hdoom.resolve_left (by rw [hwait]; decide))

private theorem wakeOne_woken (c : Fin n) (now pid : ℕ) (s : Machine n μ) (q : ℕ) :
    Option.Rel Woken (s.table q) ((s.wakeOne c now pid).table q) := by
  have hrefl : ∀ o : Option (Process μ), Option.Rel Woken o o := fun o => by
    cases o with
    | none => exact .none
    | some p => exact .some (.inl rfl)
  unfold wakeOne
  split
  · exact hrefl _
  · rename_i p hp
    split
    · rename_i hwait
      by_cases hq : q = pid
      · subst hq
        rw [enqueue_table, setProc_table_self, hp]
        exact .some (.inr ⟨hwait, rfl⟩)
      · rw [enqueue_table, setProc_table_ne hq]
        exact hrefl _
    · exact hrefl _
    · exact hrefl _
    · exact hrefl _

private theorem wakeOne_rest (c : Fin n) (now pid : ℕ) (s : Machine n μ) :
    (s.wakeOne c now pid).locs = s.locs ∧ (s.wakeOne c now pid).refSlot = s.refSlot := by
  unfold wakeOne
  split
  · exact ⟨rfl, rfl⟩
  · split
    · exact ⟨by simp, rfl⟩
    · exact ⟨rfl, rfl⟩
    · exact ⟨rfl, rfl⟩
    · exact ⟨rfl, rfl⟩

private theorem wakeDue_rest (c : Fin n) (now : ℕ) (due : List ℕ) (s : Machine n μ) :
    (s.wakeDue c now due).refSlot = s.refSlot ∧
      (s.wakeDue c now due).locs = Function.update s.locs c .pump ∧
        ∀ q, Option.Rel Woken (s.table q) ((s.wakeDue c now due).table q) := by
  induction due generalizing s with
  | nil =>
    refine ⟨rfl, locs_setLoc .., fun q => ?_⟩
    cases hp : s.table q with
    | none => simp only [wakeDue, setLoc_table, hp]; exact .none
    | some p => simp only [wakeDue, setLoc_table, hp]; exact .some (.inl rfl)
  | cons pid due ih =>
    obtain ⟨hslot, hlocs, htable⟩ := ih ((s.wakeOne c now pid).setLoc c (.wheelDue now due))
    obtain ⟨hlocs', hslot'⟩ := wakeOne_rest c now pid s
    refine ⟨hslot.trans hslot', ?_, fun q => ?_⟩
    · rw [wakeDue, hlocs, locs_setLoc, hlocs', Function.update_idem]
    · have hone := wakeOne_woken c now pid s q
      have hrest := htable q
      rw [setLoc_table] at hrest
      rw [wakeDue]
      exact rel_woken_trans hone hrest

/-- After a sweep the core goes on to the ports. -/
theorem locs_wakeDue (c : Fin n) (now : ℕ) (due : List ℕ) (s : Machine n μ) :
    (s.wakeDue c now due).locs = Function.update s.locs c .pump :=
  (wakeDue_rest c now due s).2.1

private theorem effect_wakeDue {now : ℕ} {due : List ℕ}
    (hloc : (s.cpu c).loc = .wheelDue now due) : Effect s (s.wakeDue c now due) := by
  obtain ⟨hslot, hlocs, htable⟩ := wakeDue_rest c now due s
  refine effect_quiet hloc hslot hlocs trivial fun q => ?_
  exact rel_mono (fun _ _ => Woken.locally) (htable q)

private theorem effect_reap {l₀ : Loc} (hloc : (s.cpu c).loc = l₀)
    (hl₀ : l₀ = .popped pid ∨ l₀ = .switched pid) (hp : s.table pid = some p)
    (hfields : p'.exitReason = p.exitReason ∧ p'.links = p.links ∧ p'.monitors = p.monitors)
    {t : Machine n μ} (hslot : t.refSlot = s.refSlot) (hreaped : t.reaped = s.reaped)
    (hlocs : t.locs = Function.update s.locs c (.finalize pid))
    (htable : ∀ q, q ≠ pid → t.table q = s.table q) : Effect s (t.reap c pid p') := by
  refine .reap c pid p ((refSlot_reap ..).trans hslot) ?_ ((locs_reap ..).trans hlocs) hp ?_
    fun q => ?_
  · rw [locs, hloc]
    exact hl₀
  · rw [reap_reaped, hreaped]
  · rw [reap_table]
    by_cases hq : q = pid
    · rw [if_pos hq, if_pos hq]
    · rw [if_neg hq, if_neg hq, htable q hq]
      obtain ⟨hreason, hlinks, hmonitors⟩ := hfields
      congr 1
      funext x
      rw [aftermath, aftermath, hreason, hlinks, hmonitors]

private theorem effect_take (hloc : (s.cpu c).loc = .popped pid) : Effect s (s.take c pid) := by
  unfold take
  split
  · exact effect_move hloc trivial
  · rename_i p hp
    split
    · rename_i hrun
      exact effect_setProc hloc trivial hp (.of_eq rfl rfl rfl
        (fun hdead => by rw [hrun] at hdead; cases hdead)
        fun hdoom => .inr (hdoom.resolve_left (by rw [hrun]; decide)))
    · exact effect_reap hloc (.inl rfl) hp ⟨rfl, rfl, rfl⟩ rfl rfl (locs_setLoc ..) fun _ _ => rfl
    · exact effect_move hloc trivial
    · exact effect_move hloc trivial

private theorem honourKill_locally (p : Process μ) : p.Locally p.honourKill := by
  unfold Process.honourKill
  split
  · exact .of_eq rfl rfl rfl (fun _ => rfl) fun _ => .inl rfl
  · exact .refl p

private theorem honourKill_fields (p : Process μ) : p.honourKill.exitReason = p.exitReason ∧
    p.honourKill.links = p.links ∧ p.honourKill.monitors = p.monitors := by
  unfold Process.honourKill
  split <;> exact ⟨rfl, rfl, rfl⟩

/-- A process that is not killed stops running. -/
private theorem stop_locally (hrun : p.honourKill.state = .running) (state : State) :
    p.Locally { p.honourKill with state := state } := by
  have hkill : p.killPending = false := by
    cases hkill : p.killPending with
    | false => rfl
    | true => simp [Process.honourKill, hkill] at hrun
  have hsame : p.honourKill = p := by simp [Process.honourKill, hkill]
  have hstate : p.state = .running := hsame ▸ hrun
  rw [hsame]
  refine .of_eq rfl rfl rfl (fun hdead => ?_) fun hdoom => ?_
  · rw [hstate] at hdead
    cases hdead
  · rcases hdoom with hdead | hpending
    · rw [hstate] at hdead
      cases hdead
    · rw [hkill] at hpending
      cases hpending

/-- The deferred transition concerns the process that switched out. -/
private theorem deferred_spec (c : Fin n) (post : PostSwitch) (hpost : post.Of pid)
    (hp : s.table pid = some p) :
    ∃ p', (s.deferred c post).table = Function.update s.table pid (some p') ∧ p.Locally p' ∧
      (p'.exitReason = p.exitReason ∧ p'.links = p.links ∧ p'.monitors = p.monitors) ∧
        (s.deferred c post).refSlot = s.refSlot ∧ (s.deferred c post).locs = s.locs := by
  have hfields := honourKill_fields p
  rcases hpost with rfl | rfl | rfl
  · exact ⟨p, by rw [← hp, Function.update_eq_self]; rfl, .refl p, ⟨rfl, rfl, rfl⟩, rfl, rfl⟩
  · simp only [deferred, requeue, hp]
    split
    · rename_i hrun
      exact ⟨_, rfl, stop_locally hrun _, hfields, rfl, by simp⟩
    · exact ⟨_, rfl, honourKill_locally p, hfields, rfl, rfl⟩
  · simp only [deferred, block, hp]
    split
    · rename_i hrun
      split
      · exact ⟨_, rfl, stop_locally hrun _, hfields, rfl, rfl⟩
      · exact ⟨_, rfl, stop_locally hrun _, hfields, rfl, by simp⟩
    · exact ⟨_, rfl, honourKill_locally p, hfields, rfl, rfl⟩

private theorem effect_afterSwitch (h : s.Inv) (hloc : (s.cpu c).loc = .switched pid) :
    Effect s (s.afterSwitch c pid) := by
  have hcore : s.SwitchedOk pid (s.cpu c).postSwitch := h.core hloc
  have hpost : (s.cpu c).postSwitch.Of pid := by
    rcases hcore.2 with ⟨-, hpost⟩ | ⟨-, hpost⟩ | ⟨d, -, hpost, -⟩
    · exact hpost
    · exact .inr (.inl hpost)
    · exact .inr (.inr hpost)
  have howner : (s.cpu c).loc.owner = pid := by rw [hloc]; rfl
  obtain ⟨p, hp, -⟩ := h.owned howner hcore.1
  obtain ⟨p', htable, hlocally, hfields, hslot, hlocs⟩ :=
    @deferred_spec n μ (s.setCpu c { s.cpu c with loc := .top, postSwitch := .none }) pid p c
      (s.cpu c).postSwitch hpost hp
  have hp' : ((s.setCpu c { s.cpu c with loc := .top, postSwitch := .none }).deferred c
      (s.cpu c).postSwitch).table pid = some p' := by rw [htable, Function.update_self]
  rw [locs_setCpu] at hlocs
  unfold afterSwitch reapDead
  rw [hp']
  dsimp only
  split
  · refine effect_reap hloc (.inr rfl) hp hfields hslot (deferred_reaped ..) ?_ fun q hq => ?_
    · rw [locs_setLoc, hlocs, Function.update_idem]
    · rw [setLoc_table, htable, Function.update_of_ne hq]
      rfl
  · refine effect_quiet hloc hslot hlocs trivial fun q => ?_
    rw [htable]
    exact rel_setProc hp hlocally q

private theorem effect_recvPass {deadline : Option ℕ} (scan : Scan)
    (hloc : (s.cpu c).loc = .exec pid (.recv deadline)) :
    Effect s (s.recvPass c pid deadline scan) := by
  have hbody : (Loc.exec pid (.recv deadline)).Goes (.exec pid .body) := by
    intro target ref h
    cases h
  unfold recvPass
  split
  · exact effect_move hloc trivial
  · rename_i p hp
    split
    · exact effect_setProc hloc trivial hp (honourKill_locally p)
    · rename_i halive
      split
      · rename_i i
        have hdoom : ¬p.Doomed := by
          rintro (hdead | hkill)
          · exact halive (honourKill_dead hdead)
          · exact halive (by simp [Process.honourKill, hkill])
        refine effect_setProc hloc hbody hp ⟨rfl, rfl, id, fun h => absurd h hdoom, fun f hf => ?_⟩
        have hlen : (p.mailbox.eraseIdx i).length ≤ p.mailbox.length :=
          (List.eraseIdx_sublist ..).length_le
        rw [List.drop_eq_nil_of_le hlen] at hf
        cases hf
      · exact effect_move hloc trivial
      · split
        · exact effect_move hloc trivial
        · split
          · exact effect_move hloc hbody
          · exact effect_move hloc trivial

private theorem effect_die {pos pos' : Pos} {reason : String}
    (hloc : (s.cpu c).loc = .exec pid pos) (hp : s.table pid = some p)
    (hgoes : (Loc.exec pid pos).Goes (.exec pid pos')) : Effect s (s.die c pid reason pos') := by
  unfold die
  rw [hp]
  exact effect_setProc hloc hgoes hp (.of_eq rfl rfl rfl (fun _ => rfl) fun _ => .inl rfl)

private theorem effect_exit {reason : String} (hloc : (s.cpu c).loc = .exec pid (.exit reason)) :
    Effect s (s.die c pid reason .exitSwitch) := by
  cases hp : s.table pid with
  | none =>
    unfold die
    rw [hp]
    exact effect_move hloc trivial
  | some p => exact effect_die hloc hp trivial

private theorem effect_fatal (h : s.Inv) {pos : Pos} {reason : String}
    (hloc : (s.cpu c).loc = .exec pid pos) (hne : pid ≠ 0) :
    Effect s (s.die c pid reason .fatalSwitch) := by
  have howner : (s.cpu c).loc.owner = pid := by rw [hloc]; rfl
  obtain ⟨p, hp, -⟩ := h.owned howner hne
  have hgoes : (Loc.exec pid pos).Goes (.exec pid .fatalSwitch) := by
    cases pos with
    | spawnInner link ref => exact .inr rfl
    | spawnPid child link ref => exact rfl
    | _ => trivial
  exact effect_die hloc hp hgoes

private theorem effect_saveContext {pos : Pos} {ctx : Ctx}
    (hloc : (s.cpu c).loc = .exec pid pos) (hpanic : (Loc.exec pid pos).Goes .panic)
    (hswitched : (Loc.exec pid pos).Goes (.switched pid)) : Effect s (s.saveContext c pid ctx) := by
  unfold saveContext
  split
  · exact effect_move hloc hpanic
  · rename_i p hp
    exact effect_setProc hloc hswitched hp (.of_eq rfl rfl rfl id id)

private theorem effect_insertChild (h : s.Inv) {child : ℕ} {link : Bool} {ref : Option ℕ}
    {ms : List (ℕ × ℕ)} (hloc : (s.cpu c).loc = .exec pid (.spawnInsert child link ref ms)) :
    Effect s (s.insertChild c pid child link ref ms) := by
  have hcore : s.PosOk pid (s.cpu c).postSwitch (.spawnInsert child link ref ms) := h.core hloc
  have hbirth := s.le_births c child
  have hfree : s.table child = none := by
    by_contra hsome
    obtain ⟨p, hp⟩ := Option.ne_none_iff_exists'.mp hsome
    have hentry := (h.entry hp).2.1
    rw [hloc, show (Loc.exec pid (.spawnInsert child link ref ms)).newborn = child from rfl,
      ind_self] at hbirth
    omega
  have htable : ∀ q, (s.insertChild c pid child link ref ms).table q =
      if q = child then
        some (.fresh (if link = true ∧ (s.table pid).isSome = true then [pid] else []) ms)
      else if link = true ∧ q = pid then (s.table q).map (.link child) else s.table q := by
    intro q
    unfold insertChild
    cases link with
    | false => simp [setProc, Function.update_apply]
    | true =>
      cases hparent : s.table pid with
      | none =>
        by_cases hq : q = pid
        · subst hq
          simp [setProc, Function.update_apply, hparent]
        · simp [setProc, Function.update_apply, hq]
      | some pp =>
        by_cases hq : q = pid
        · subst hq
          simp [setProc, Function.update_apply, hparent, Process.link]
        · simp [setProc, Function.update_apply, hq]
  refine .insert c pid child link ref ms hloc ?_ ?_ hfree htable
  · unfold insertChild
    dsimp only
    split <;> rfl
  · unfold insertChild
    dsimp only
    rw [locs_setLoc]
    split <;> rfl

private theorem effect_registerMonitor {target ref : ℕ}
    (hloc : (s.cpu c).loc = .exec pid (.monitor target ref)) :
    Effect s ((s.setLoc c (.exec pid .body)).registerMonitor c pid target ref) := by
  have hnoproc : (∀ p, s.table target = some p → p.state = .dead) → Effect s
      ((s.setLoc c (.exec pid .body)).deliverDown c pid ref target "noproc") := fun hgone =>
    .noproc c pid target ref hloc (refSlot_deliverFragment ..)
      ((locs_deliverFragment ..).trans (locs_setLoc ..)) hgone fun q =>
        deliverFragment_table c _ pid (.down ref target "noproc") q
  unfold registerMonitor
  rw [setLoc_table]
  cases hp : s.table target with
  | none => exact hnoproc (by simp [hp])
  | some p =>
    dsimp only
    split
    · rename_i hdead
      exact hnoproc (by simpa [hp] using hdead)
    · rename_i halive
      exact .register c pid target ref p hloc rfl (locs_setLoc ..) hp halive rfl

end Machine

open Machine in
/-- What a step of a machine in order does. -/
theorem Step.effect {s s' : Machine n μ} (hinv : s.Inv) (h : Step s s') : Effect s s' := by
  cases h with
  | tick k => exact .quiet rfl (.inl rfl) s.rel_refl
  | enterRun hloc | readClock hloc | skipWheel hloc | pumpDone hloc | popEmpty hloc
  | stealNext hloc | stealDone hloc | callRecv _ hloc | callExit _ hloc | fatalSwitch hloc =>
    exact effect_move hloc trivial
  | popDue hloc | finalize hloc | recvWheel hloc =>
    exact effect_quiet hloc rfl (locs_setLoc ..) trivial s.rel_refl
  | popFront hloc _ | yieldStore hloc | recvStore hloc =>
    exact effect_quiet hloc rfl (locs_setCpu ..) trivial s.rel_refl
  | stealBack hloc => exact effect_quiet hloc rfl (locs_steal ..) trivial s.rel_refl
  | wakeDue hloc => exact effect_wakeDue hloc
  | take hloc => exact effect_take hloc
  | @heapPtr c pid rsp hloc =>
    split
    · exact effect_move hloc trivial
    · exact effect_move hloc trivial
  | @switchIn c pid rsp hloc =>
    have hgoes : (Loc.switchIn pid rsp).Goes (resume pid rsp) := by
      unfold resume
      split
      · intro target ref h
        cases h
      · trivial
      · trivial
      · trivial
    exact effect_move hloc hgoes
  | afterSwitch hloc => exact effect_afterSwitch hinv hloc
  | pumpDeliver hloc | send hloc => exact effect_send _ _
  | kill hloc => exact effect_mark _ _
  | callMonitor hloc => exact .alloc _ _ _ hloc (.inr ⟨_, rfl⟩) rfl (locs_setLoc ..) rfl
  | monitor hloc => exact effect_registerMonitor hloc
  | callSpawn link hloc => exact effect_move hloc ⟨rfl, rfl⟩
  | callSpawnMonitor hloc => exact .alloc _ _ _ hloc (.inl rfl) rfl (locs_setLoc ..) rfl
  | spawnMonitor hloc => exact .leave _ _ _ hloc rfl (locs_setLoc ..) rfl
  | spawnInner hloc =>
    exact effect_quiet hloc rfl (locs_setLoc ..) (.inl ⟨_, rfl⟩) s.rel_refl
  | spawnPid hloc => exact .pick _ _ _ _ _ hloc rfl (locs_setLoc ..) rfl
  | spawnInsert hloc => exact effect_insertChild hinv hloc
  | spawnEnqueue hloc =>
    refine effect_quiet hloc rfl ((locs_setLoc ..).trans (by rw [locs_enqueue])) ?_ s.rel_refl
    intro target ref h
    cases h
  | callYield hloc =>
    split
    · exact effect_move hloc trivial
    · exact effect_move hloc trivial
  | yieldSwitch hloc | recvSwitch hloc | exitSwitch hloc =>
    exact effect_saveContext hloc trivial trivial
  | recvPass scan hloc => exact effect_recvPass scan hloc
  | exit hloc => exact effect_exit hloc
  | fatal hloc hne => exact effect_fatal hinv hloc hne

end Yggdrasil.Sched
