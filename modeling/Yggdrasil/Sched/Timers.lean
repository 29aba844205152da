import Mathlib.Data.List.Perm.Basic
import Mathlib.Data.List.FinRange
import Yggdrasil.Sched.Effect

/-!
# Timers of receives

Every entry of the timer wheel was added by some call of `recv_where`, but the wheel holds
pids only. Timers record along a run which timed receive added each entry, from the push
of `recv_where` through the sweep of `check_wheel`, which may queue an entry again. What
they record is the wheel: forgetting the receives gives its entries.
-/

namespace Yggdrasil.Sched

variable {n : ℕ} {μ : Type}

namespace Wheel

/-- The entries of the wheel, with their deadlines. -/
def entries (w : Wheel) : List (ℕ × Pid) := w.flatMap fun e => e.2.map (e.1, ·)

/-- Deadlines increase along the wheel. -/
def Sorted (w : Wheel) : Prop := w.Pairwise fun e e' => e.1 < e'.1

/-- An empty wheel has no entries. -/
@[simp] theorem entries_nil : entries [] = [] := rfl

/-- The entries of the first deadline come first. -/
@[simp] theorem entries_cons (d : ℕ) (pids : List Pid) (w : Wheel) :
    entries ((d, pids) :: w) = pids.map (d, ·) ++ entries w := rfl

/-- Pushing adds one entry. -/
theorem entries_push (d : ℕ) (pid : Pid) (w : Wheel) :
    (push d pid w).entries.Perm ((d, pid) :: w.entries) := by
  induction w with
  | nil => exact .refl _
  | cons e w ih =>
    obtain ⟨d', pids⟩ := e
    rw [push]
    split
    · exact .refl _
    · split
      · rename_i heq
        rw [entries_cons, entries_cons, heq, List.map_append, List.append_assoc]
        exact List.perm_middle
      · rw [entries_cons, entries_cons]
        exact (ih.append_left _).trans List.perm_middle

private theorem push_keys {d k : ℕ} {pid : Pid} {w : Wheel} (hd : k < d)
    (hw : ∀ e ∈ w, k < e.1) : ∀ e ∈ push d pid w, k < e.1 := by
  induction w with
  | nil =>
    intro e he
    rw [push, List.mem_singleton] at he
    rw [he]
    exact hd
  | cons e w ih =>
    obtain ⟨d', pids⟩ := e
    have hd' : k < d' := hw _ (List.mem_cons_self ..)
    have hrest : ∀ e ∈ w, k < e.1 := fun e he => hw e (List.mem_cons_of_mem _ he)
    rw [push]
    split
    · exact List.forall_mem_cons.mpr ⟨hd, hw⟩
    · split
      · exact List.forall_mem_cons.mpr ⟨hd', hrest⟩
      · exact List.forall_mem_cons.mpr ⟨hd', ih hrest⟩

/-- Pushing keeps the order. -/
theorem Sorted.push {w : Wheel} (h : w.Sorted) (d : ℕ) (pid : Pid) :
    Sorted (Wheel.push d pid w) := by
  induction w with
  | nil => exact List.pairwise_singleton ..
  | cons e w ih =>
    obtain ⟨d', pids⟩ := e
    obtain ⟨hhead, htail⟩ := List.pairwise_cons.mp h
    rw [Wheel.push]
    split
    · rename_i hlt
      refine List.pairwise_cons.mpr ⟨List.forall_mem_cons.mpr ⟨hlt, fun e he => ?_⟩, h⟩
      exact hlt.trans (hhead e he)
    · rename_i hle
      split
      · exact List.pairwise_cons.mpr ⟨hhead, htail⟩
      · rename_i hne
        have hgt : d' < d := by omega
        exact List.pairwise_cons.mpr ⟨push_keys hgt hhead, ih htail⟩

private theorem mem_entries {w : Wheel} {x : ℕ × Pid} (h : x ∈ w.entries) :
    ∃ e ∈ w, e.1 = x.1 := by
  obtain ⟨e, he, hx⟩ := List.mem_flatMap.mp h
  obtain ⟨pid, -, rfl⟩ := List.mem_map.mp hx
  exact ⟨e, he, rfl⟩

/-- A sweep takes out the entries whose deadline has passed. -/
theorem Sorted.popDue {w : Wheel} (h : w.Sorted) (now : ℕ) :
    Sorted (Wheel.popDue now w).2 ∧
      (Wheel.popDue now w).1 = (w.entries.filter fun x => x.1 ≤ now).map Prod.snd ∧
      (Wheel.popDue now w).2.entries = w.entries.filter fun x => now < x.1 := by
  induction w with
  | nil => exact ⟨h, rfl, rfl⟩
  | cons e w ih =>
    obtain ⟨d, pids⟩ := e
    obtain ⟨hhead, htail⟩ := List.pairwise_cons.mp h
    by_cases hdue : d ≤ now
    · obtain ⟨hsorted, hpids, hrest⟩ := ih htail
      simp only [Wheel.popDue] at hsorted hpids hrest ⊢
      refine ⟨?_, ?_, ?_⟩
      · simpa [hdue] using hsorted
      · simp only [List.takeWhile_cons, hdue, decide_true, if_true, List.flatMap_cons, hpids,
          entries_cons, List.filter_append, List.map_append, List.filter_map]
        congr 1
        simp [Function.comp_def, hdue]
      · simp only [List.dropWhile_cons, hdue, decide_true, if_true, hrest, entries_cons,
          List.filter_append, List.filter_map]
        simp [Function.comp_def, Nat.not_lt.mpr hdue]
    · have hlate : ∀ x ∈ entries ((d, pids) :: w), now < x.1 := by
        intro x hx
        obtain ⟨e, he, hkey⟩ := mem_entries hx
        rcases List.mem_cons.mp he with rfl | he
        · omega
        · have hlt : d < e.1 := hhead e he
          omega
      have htake : Wheel.popDue now ((d, pids) :: w) = ([], (d, pids) :: w) := by
        simp [Wheel.popDue, hdue]
      rw [htake]
      refine ⟨h, ?_, ?_⟩
      · rw [List.filter_eq_nil_iff.mpr fun x hx => ?_]
        · rfl
        · have hx := hlate x hx
          simp only [decide_eq_true_eq]
          omega
      · rw [List.filter_eq_self.mpr fun x hx => decide_eq_true (hlate x hx)]

end Wheel

/-- An entry of the timer wheel and the timed receive that added it. -/
structure Timer where
  /-- When the process is to be woken. -/
  deadline : ℕ
  /-- The process. -/
  pid : Pid
  /-- The receive. -/
  call : ℕ
  deriving DecidableEq, Repr

/-- What the wheel holds of a timer. -/
def Timer.entry (e : Timer) : ℕ × Pid := (e.deadline, e.pid)

/-- `check_wheel` queues a timer again. -/
def Timer.requeued (now : ℕ) (e : Timer) : Timer := { e with deadline := now + 1 }

/-- The timers of a run. -/
structure Timers where
  /-- Who began a timed receive, in order; a receive is known by its place in this list. -/
  callers : List Pid
  /-- The latest timed receive of each process. -/
  current : Pid → ℕ
  /-- The timers in the wheel. -/
  wheel : List Timer
  /-- The timers taken out of the wheel that `check_wheel` has still to look at. -/
  due : List Timer

/-- What a core does to timers. -/
inductive TimerEvent where
  | begins (pid : Pid)
  | enters (deadline : ℕ) (pid : Pid)
  | expires (now : ℕ)
  | wakes (now : ℕ)
  deriving DecidableEq, Repr

/-- What a core does to timers as it moves. -/
def Loc.event : Loc → Loc → Option TimerEvent
  | .exec pid .body, .exec _ (.recv (some _)) => some (.begins pid)
  | .exec pid (.recvWheel deadline), .exec _ (.recvStore _) => some (.enters deadline pid)
  | .wheelLock now, .wheelDue _ _ => some (.expires now)
  | .wheelDue now _, .pump => some (.wakes now)
  | _, _ => none

/-- A core sweeps the wheel. -/
def Loc.sweeps : Loc → Bool
  | .wheelLock _ | .wheelDue _ _ => true
  | _ => false

/-- The process whose timed receive a core executes, or is about to resume. -/
def Loc.timed : Loc → Option Pid
  | .exec pid (.recv (some _)) | .exec pid (.recvWheel _) | .exec pid (.recvStore (some _))
  | .exec pid (.recvSwitch (some _)) => some pid
  | .heapPtr pid (some (.recv (some _))) | .switchIn pid (some (.recv (some _))) => some pid
  | _ => none

namespace Machine

/-- What the cores do to timers in a step. -/
def events (s s' : Machine n μ) : List TimerEvent :=
  (List.finRange n).filterMap fun c => (s.locs c).event (s'.locs c)

/-- The process runs. -/
def runs (s : Machine n μ) (pid : Pid) : Bool := s.stateOf pid = some .running

/-- The saved context of a process. -/
def ctxOf (s : Machine n μ) (pid : Pid) : Option Ctx := (s.table pid).bind Process.rsp

/-- A process is inside a timed receive. -/
def InTimed (s : Machine n μ) (pid : Pid) : Prop :=
  (∃ c, (s.locs c).timed = some pid) ∨ ∃ d, s.ctxOf pid = some (.recv (some d))

end Machine

namespace Timers

/-- No receive yet. -/
def empty : Timers := ⟨[], fun _ => 0, [], []⟩

/-- The timers after an event in state `s`. A new receive gets the next place, a receive that
enters the wheel adds a timer of its own, and a timer queued again stays with its receive. -/
def apply (s : Machine n μ) (t : Timers) : TimerEvent → Timers
  | .begins pid => { t with
      callers := t.callers ++ [pid]
      current := Function.update t.current pid t.callers.length }
  | .enters deadline pid => { t with wheel := ⟨deadline, pid, t.current pid⟩ :: t.wheel }
  | .expires now => { t with
      wheel := t.wheel.filter fun e => now < e.deadline
      due := t.due ++ t.wheel.filter fun e => e.deadline ≤ now }
  | .wakes now => { t with
      wheel := (t.due.filter fun e => s.runs e.pid).map (.requeued now) ++ t.wheel
      due := [] }

/-- The timers after a step. -/
def after (s s' : Machine n μ) (t : Timers) : Timers := (s.events s').foldl (apply s) t

/-- A receive has a timer in the wheel or among those due. -/
def Holds (t : Timers) (call : ℕ) : Prop := ∃ e ∈ t.wheel ++ t.due, e.call = call

end Timers

section Events

variable {s s' : Machine n μ} {c : Fin n} {l : Loc}

/-- A core that stays does nothing to timers. -/
@[simp] theorem Loc.event_self (l : Loc) : l.event l = none := by
  unfold Loc.event
  split
  all_goals first | rfl | simp_all

/-- A step that moves no core concerns no timer. -/
theorem Machine.events_of_locs (h : s'.locs = s.locs) : s.events s' = [] := by
  simp [events, h]

/-- Only the core that moves concerns timers. -/
theorem Machine.events_of_update (h : s'.locs = Function.update s.locs c l) :
    s.events s' = ((s.locs c).event l).toList := by
  have hother : ∀ ds : List (Fin n), c ∉ ds →
      ds.filterMap (fun d => (s.locs d).event (s'.locs d)) = [] := by
    intro ds hds
    refine List.filterMap_eq_nil_iff.mpr fun d hd => ?_
    have hne : d ≠ c := fun heq => hds (heq ▸ hd)
    rw [h, Function.update_of_ne hne, Loc.event_self]
  have hself : (s.locs c).event (s'.locs c) = (s.locs c).event l := by
    rw [h, Function.update_self]
  obtain ⟨before, after, hsplit⟩ := List.append_of_mem (List.mem_finRange c)
  have hnodup := List.nodup_finRange n
  rw [hsplit, List.nodup_middle, List.nodup_cons, List.mem_append, not_or] at hnodup
  obtain ⟨⟨hbefore, hafter⟩, -⟩ := hnodup
  rw [events, hsplit, List.filterMap_append, hother before hbefore, List.nil_append,
    List.filterMap_cons, hself, hother after hafter]
  cases (s.locs c).event l <;> rfl

end Events

namespace Machine

variable {s s' s'' : Machine n μ} {c : Fin n} {pid : ℕ} {p p' : Process μ}

/-- A change that leaves the wheel alone and saves no context. -/
structure Calm (s s' : Machine n μ) : Prop where
  /-- The wheel is as before. -/
  wheel : s'.wheel = s.wheel
  /-- Contexts stay or are given up. -/
  ctx : ∀ q, s'.ctxOf q = s.ctxOf q ∨ s'.ctxOf q = none

namespace Calm

/-- Nothing has changed. -/
theorem refl (s : Machine n μ) : Calm s s := ⟨rfl, fun _ => .inl rfl⟩

/-- One calm change after another. -/
theorem trans (h : Calm s s') (h' : Calm s' s'') : Calm s s'' := by
  refine ⟨h'.wheel.trans h.wheel, fun q => ?_⟩
  rcases h'.ctx q with hq | hq
  · rw [hq]
    exact h.ctx q
  · exact .inr hq

/-- A core may be written. -/
theorem setCpu {k : Cpu} (h : Calm s s') : Calm s (s'.setCpu c k) := ⟨h.wheel, h.ctx⟩

/-- A core may move. -/
theorem setLoc {l : Loc} (h : Calm s s') : Calm s (s'.setLoc c l) := h.setCpu

/-- A process may be queued. -/
theorem enqueue (h : Calm s s') : Calm s (s'.enqueue c pid) := h.setCpu

/-- A process may change if it keeps its context or gives it up. -/
theorem setProc (hp : s.table pid = some p) (hrsp : p'.rsp = p.rsp ∨ p'.rsp = none) :
    Calm s (s.setProc pid p') := by
  refine ⟨rfl, fun q => ?_⟩
  by_cases hq : q = pid
  · subst hq
    rw [ctxOf, setProc_table_self, ctxOf, hp]
    exact hrsp
  · rw [ctxOf, setProc_table_ne hq, ctxOf]
    exact .inl rfl

/-- Delivery saves no context and sets no timer. -/
theorem deliverFragment (c : Fin n) (dest : ℕ) (f : Fragment μ) (s : Machine n μ) :
    Calm s (s.deliverFragment c dest f) := by
  unfold Machine.deliverFragment
  split
  · exact refl s
  · rename_i p hp
    dsimp only
    split
    · exact refl s
    · split
      · exact enqueue (setProc hp (.inl rfl))
      · exact setProc hp (.inl rfl)

/-- Nor does a killing. -/
theorem markDead (c : Fin n) (pid : ℕ) (reason : String) (s : Machine n μ) :
    Calm s (s.markDead c pid reason) := by
  unfold Machine.markDead
  split
  · exact refl s
  · rename_i p hp
    split
    · exact refl s
    · split
      · exact refl s
      · exact setProc hp (.inl rfl)
    · exact enqueue (setProc hp (.inl rfl))
    · exact enqueue (setProc hp (.inl rfl))

/-- Nor do messages to watchers. -/
theorem notifyMonitors (c : Fin n) (dead : ℕ) (reason : String) (ms : List (ℕ × ℕ))
    (s : Machine n μ) : Calm s (s.notifyMonitors c dead reason ms) := by
  induction ms generalizing s with
  | nil => exact refl s
  | cons m ms ih => exact (deliverFragment ..).trans (ih _)

/-- Nor do exit signals over links. -/
theorem signalLinks (c : Fin n) (reason : String) (ls : List ℕ) (s : Machine n μ) :
    Calm s (s.signalLinks c reason ls) := by
  induction ls generalizing s with
  | nil => exact refl s
  | cons l ls ih => exact (markDead ..).trans (ih _)

/-- Reaping gives up the context of the process. -/
theorem reap (c : Fin n) (pid : ℕ) (p : Process μ) (s : Machine n μ) :
    Calm s (s.reap c pid p) := by
  have hremove : Calm s (s.remove pid) := by
    refine ⟨rfl, fun q => ?_⟩
    have htable : (s.remove pid).table q = Function.update s.table pid none q := rfl
    by_cases hq : q = pid
    · rw [ctxOf, htable, hq, Function.update_self]
      exact .inr rfl
    · rw [ctxOf, htable, Function.update_of_ne hq, ctxOf]
      exact .inl rfl
  unfold Machine.reap
  dsimp only
  split
  · exact hremove.trans (notifyMonitors ..)
  · exact (hremove.trans (notifyMonitors ..)).trans (signalLinks ..)

/-- A process that is queued again keeps its context. -/
theorem requeue (c : Fin n) (pid : ℕ) (s : Machine n μ) : Calm s (s.requeue c pid) := by
  unfold Machine.requeue
  split
  · exact refl s
  · rename_i p hp
    split
    · exact enqueue (setProc hp (.inl p.honourKill_rsp))
    · exact setProc hp (.inl p.honourKill_rsp)

/-- A process that blocks keeps its context. -/
theorem block (c : Fin n) (pid : ℕ) (s : Machine n μ) : Calm s (s.block c pid) := by
  unfold Machine.block
  split
  · exact refl s
  · rename_i p hp
    split
    · split
      · exact setProc hp (.inl p.honourKill_rsp)
      · exact enqueue (setProc hp (.inl p.honourKill_rsp))
    · exact setProc hp (.inl p.honourKill_rsp)

/-- The deferred transition is calm. -/
theorem deferred (c : Fin n) (post : PostSwitch) (s : Machine n μ) :
    Calm s (s.deferred c post) := by
  cases post with
  | none => exact refl s
  | requeue pid => exact requeue c pid s
  | block pid => exact block c pid s

/-- Registering a monitor is calm. -/
theorem registerMonitor (c : Fin n) (me target ref : ℕ) (s : Machine n μ) :
    Calm s (s.registerMonitor c me target ref) := by
  unfold Machine.registerMonitor
  split
  · exact deliverFragment ..
  · rename_i p hp
    split
    · exact deliverFragment ..
    · exact setProc hp (.inl rfl)

end Calm

/-- A step that concerns no timer. -/
structure Quiet (s s' : Machine n μ) : Prop where
  /-- No core does anything to timers. -/
  events : s.events s' = []
  /-- The wheel is as before. -/
  wheel : s'.wheel = s.wheel
  /-- The pids taken out of it too. -/
  due : ∀ c, (s'.locs c).due = (s.locs c).due
  /-- Only core 0 begins a sweep. -/
  clock : ∀ c, (s'.locs c).sweeps = true → (s.locs c).sweeps = true ∨ c.val = 0
  /-- No core gets to enter the wheel. -/
  entering : ∀ c pid d, s'.locs c = .exec pid (.recvWheel d) →
    s.locs c = .exec pid (.recvWheel d)
  /-- No timed receive begins. -/
  timed : ∀ q, s'.InTimed q → s.InTimed q

end Machine

/-- A core about to switch into a process holds its saved context. -/
theorem Loc.timed_heapPtr {pid q : ℕ} {rsp : Option Ctx}
    (h : (Loc.heapPtr pid rsp).timed = some q) : q = pid ∧ ∃ d, rsp = some (.recv (some d)) := by
  match rsp, h with
  | some (.recv (some d)), h => exact ⟨(Option.some.inj h).symm, d, rfl⟩

/-- Resuming a context goes on in the receive it was saved in. -/
theorem timed_resume (pid : ℕ) (rsp : Option Ctx) :
    (resume pid rsp).timed = (Loc.switchIn pid rsp).timed := by
  match rsp with
  | none | some .body | some .unreachable | some (.recv none) | some (.recv (some _)) => rfl

/-- The context is the same before and after the heap pointer is read. -/
theorem timed_switchIn (pid : ℕ) (rsp : Option Ctx) :
    (Loc.switchIn pid rsp).timed = (Loc.heapPtr pid rsp).timed := by
  match rsp with
  | none | some .body | some .unreachable | some (.recv none) | some (.recv (some _)) => rfl

/-- A core sweeps the wheel or is about to enter it. -/
def Loc.atWheel : Loc → Bool
  | .wheelLock _ | .wheelDue _ _ | .exec _ (.recvWheel _) => true
  | _ => false

/-- A core that is away from the wheel does not sweep it. -/
theorem Loc.sweeps_of_away {l : Loc} (h : l.atWheel = false) : l.sweeps = false := by
  cases l with
  | wheelLock | wheelDue => cases h
  | top | pump | pop | steal | popped | heapPtr | switchIn | exec | switched | finalize | panic =>
    rfl

/-- A core moves without concerning timers. -/
structure Loc.Plain (l l' : Loc) : Prop where
  /-- It does nothing to timers. -/
  event : l.event l' = none
  /-- It holds the same pids taken out of the wheel. -/
  due : l'.due = l.due
  /-- It does not get to the wheel. -/
  away : l'.atWheel = false

private theorem plain_resume (pid : ℕ) (rsp : Option Ctx) :
    (Loc.switchIn pid rsp).Plain (resume pid rsp) := by
  match rsp with
  | none | some .body | some .unreachable | some (.recv _) => exact ⟨rfl, rfl, rfl⟩

/-- A fault concerns no timer. -/
private theorem plain_fault {pid : ℕ} {pos : Pos} {l : Loc}
    (hl : l = .panic ∨ l = .exec pid .fatalSwitch) : (Loc.exec pid pos).Plain l := by
  rcases hl with rfl | rfl
  · refine ⟨?_, rfl, rfl⟩
    cases pos <;> rfl
  · refine ⟨?_, rfl, rfl⟩
    cases pos <;> rfl

namespace Machine

variable {s s' : Machine n μ} {c : Fin n} {pid : ℕ} {p p' : Process μ} {l l₀ : Loc}

/-- Processes stay in timed receives. -/
theorem InTimed.of_locs (hctx : ∀ q d, s'.ctxOf q = some (.recv (some d)) → s.InTimed q)
    (hlocs : s'.locs = Function.update s.locs c l)
    (hl : ∀ q, l.timed = some q → s.InTimed q) {q : ℕ} (h : s'.InTimed q) : s.InTimed q := by
  rcases h with ⟨d, hd⟩ | ⟨d, hd⟩
  · rw [hlocs] at hd
    by_cases hdc : d = c
    · rw [hdc, Function.update_self] at hd
      exact hl q hd
    · rw [Function.update_of_ne hdc] at hd
      exact .inl ⟨d, hd⟩
  · exact hctx q d hd

/-- What is calm lets no process into a timed receive. -/
theorem Calm.inTimed (h : Calm s s') (q d : ℕ) (hq : s'.ctxOf q = some (.recv (some d))) :
    s.InTimed q := by
  rcases h.ctx q with hsame | hnone
  · exact .inr ⟨d, hsame.symm.trans hq⟩
  · rw [hnone] at hq
    cases hq

private theorem inTimed_of_loc (hloc : (s.cpu c).loc = l₀)
    (hl : l.timed = none ∨ l.timed = l₀.timed) (q : ℕ) (hq : l.timed = some q) : s.InTimed q := by
  rcases hl with hl | hl
  · rw [hl] at hq
    cases hq
  · exact .inl ⟨c, by rw [locs, hloc, ← hl, hq]⟩

private theorem inTimed_move (hlocs : s'.locs = Function.update s.locs c l)
    (htable : s'.table = s.table) (hl : ∀ q, l.timed = some q → s.InTimed q) (q : ℕ)
    (h : s'.InTimed q) : s.InTimed q := by
  refine InTimed.of_locs (fun q d hq => .inr ⟨d, ?_⟩) hlocs hl h
  rwa [ctxOf, htable] at hq

private theorem Quiet.of_update (hloc : (s.cpu c).loc = l₀) (hwheel : s'.wheel = s.wheel)
    (hctx : ∀ q d, s'.ctxOf q = some (.recv (some d)) → s.InTimed q)
    (hlocs : s'.locs = Function.update s.locs c l) (hplain : l₀.Plain l)
    (hl : ∀ q, l.timed = some q → s.InTimed q) : Quiet s s' where
  events := by
    rw [events_of_update hlocs, locs, hloc, hplain.event]
    rfl
  wheel := hwheel
  due d := by
    rw [hlocs, Function.update_apply]
    split
    · rename_i hd
      rw [hd, hplain.due, locs, hloc]
    · rfl
  clock d hd := by
    rw [hlocs, Function.update_apply] at hd
    split at hd
    · rw [Loc.sweeps_of_away hplain.away] at hd
      cases hd
    · exact .inl hd
  entering d pid k hd := by
    rw [hlocs, Function.update_apply] at hd
    split at hd
    · rw [hd] at hplain
      cases hplain.away
    · exact hd
  timed q := InTimed.of_locs hctx hlocs hl

private theorem Quiet.of_calm (hcalm : Calm s s') (hloc : (s.cpu c).loc = l₀)
    (hlocs : s'.locs = Function.update s.locs c l) (hplain : l₀.Plain l)
    (hl : l.timed = none ∨ l.timed = l₀.timed) : Quiet s s' :=
  .of_update hloc hcalm.wheel hcalm.inTimed hlocs hplain (inTimed_of_loc hloc hl)

private theorem Quiet.of_stay (hcalm : Calm s s') (hlocs : s'.locs = s.locs) : Quiet s s' where
  events := events_of_locs hlocs
  wheel := hcalm.wheel
  due c := by rw [hlocs]
  clock c hc := by
    rw [hlocs] at hc
    exact .inl hc
  entering c pid d hc := by rwa [hlocs] at hc
  timed q hq := by
    rcases hq with ⟨d, hd⟩ | ⟨d, hd⟩
    · rw [hlocs] at hd
      exact .inl ⟨d, hd⟩
    · exact hcalm.inTimed q d hd

/-- A core moves quietly between locations outside of timed receives. -/
private theorem Quiet.move (hloc : (s.cpu c).loc = l₀) (hplain : l₀.Plain l)
    (hl : l.timed = none ∨ l.timed = l₀.timed) : Quiet s (s.setLoc c l) :=
  .of_calm (.setLoc (.refl s)) hloc (locs_setLoc ..) hplain hl

end Machine

/-- What a step does to timers. -/
inductive TimerEffect (s s' : Machine n μ) : Prop
  /-- Nothing. -/
  | quiet : s.Quiet s' → TimerEffect s s'
  /-- A timed receive begins. -/
  | begins (c : Fin n) (pid d : ℕ) : s.locs c = .exec pid .body →
      s'.locs = Function.update s.locs c (.exec pid (.recv (some d))) → s'.wheel = s.wheel →
      (∀ q, s'.InTimed q → s.InTimed q ∨ q = pid) → TimerEffect s s'
  /-- A pass finds nothing to take before the deadline. -/
  | misses (c : Fin n) (pid d : ℕ) (p : Process μ) : s.locs c = .exec pid (.recv (some d)) →
      s.table pid = some p → ¬p.Doomed → s.ticks < d →
      s' = s.recvPass c pid (some d) .miss →
      s'.locs = Function.update s.locs c (.exec pid (.recvWheel d)) → s'.wheel = s.wheel →
      (∀ q, s'.InTimed q → s.InTimed q) → TimerEffect s s'
  /-- A receive enters the wheel. -/
  | enters (c : Fin n) (pid d : ℕ) : s.locs c = .exec pid (.recvWheel d) →
      s'.locs = Function.update s.locs c (.exec pid (.recvStore (some d))) →
      s'.wheel = s.wheel.push d pid → (∀ q, s'.InTimed q → s.InTimed q) → TimerEffect s s'
  /-- `check_wheel` takes out due pids. -/
  | expires (c : Fin n) (now : ℕ) : s.locs c = .wheelLock now →
      s'.locs = Function.update s.locs c (.wheelDue now (s.wheel.popDue now).1) →
      s'.wheel = (s.wheel.popDue now).2 → (∀ q, s'.InTimed q → s.InTimed q) → TimerEffect s s'
  /-- `check_wheel` wakes them. -/
  | wakes (c : Fin n) (now : ℕ) (due : List Pid) : s.locs c = .wheelDue now due →
      s' = s.wakeDue c now due → TimerEffect s s'

namespace Machine

variable {s s' : Machine n μ} {c : Fin n} {pid : ℕ} {p p' : Process μ} {l l₀ : Loc}

private theorem Quiet.take (hloc : (s.cpu c).loc = .popped pid) : Quiet s (s.take c pid) := by
  unfold Machine.take
  split
  · exact .move hloc ⟨rfl, rfl, rfl⟩ (.inl rfl)
  · rename_i p hp
    split
    · refine .of_update hloc rfl (Calm.setLoc (.setProc hp (.inr rfl))).inTimed (locs_setLoc ..)
        ⟨rfl, rfl, rfl⟩ fun q hq => ?_
      obtain ⟨rfl, d, hrsp⟩ := Loc.timed_heapPtr hq
      exact .inr ⟨d, by rw [ctxOf, hp]; exact hrsp⟩
    · exact .of_calm (.trans (.setLoc (.refl s)) (.reap ..)) hloc
        ((locs_reap ..).trans (locs_setLoc ..)) ⟨rfl, rfl, rfl⟩ (.inl rfl)
    · exact .move hloc ⟨rfl, rfl, rfl⟩ (.inl rfl)
    · exact .move hloc ⟨rfl, rfl, rfl⟩ (.inl rfl)

private theorem Quiet.reapDead {t : Machine n μ} (hloc : (s.cpu c).loc = .switched pid)
    (hcalm : Calm s t) (hlocs : t.locs = Function.update s.locs c .top) :
    Quiet s (t.reapDead c pid) := by
  unfold Machine.reapDead
  split
  · exact .of_calm hcalm hloc hlocs ⟨rfl, rfl, rfl⟩ (.inl rfl)
  · rename_i p hp
    split
    · have hlocs' : ((t.setLoc c (.finalize pid)).reap c pid p).locs =
          Function.update s.locs c (.finalize pid) := by
        rw [locs_reap, locs_setLoc, hlocs, Function.update_idem]
      exact .of_calm (.trans hcalm.setLoc (.reap ..)) hloc hlocs' ⟨rfl, rfl, rfl⟩ (.inl rfl)
    · exact .of_calm hcalm hloc hlocs ⟨rfl, rfl, rfl⟩ (.inl rfl)

private theorem Quiet.afterSwitch (hloc : (s.cpu c).loc = .switched pid) :
    Quiet s (s.afterSwitch c pid) :=
  .reapDead hloc (.trans (.setCpu (.refl s)) (.deferred ..))
    ((locs_deferred ..).trans (locs_setCpu ..))

private theorem Quiet.die {pos pos' : Pos} {reason : String}
    (hloc : (s.cpu c).loc = .exec pid pos) (hplain : (Loc.exec pid pos).Plain (.exec pid pos'))
    (hpos : (Loc.exec pid pos').timed = none) : Quiet s (s.die c pid reason pos') := by
  unfold Machine.die
  split
  · exact .move hloc (plain_fault (.inl rfl)) (.inl rfl)
  · rename_i p hp
    exact .of_calm (.setLoc (.setProc hp (.inl rfl))) hloc (locs_setLoc ..) hplain (.inl hpos)

private theorem Quiet.saveContext {pos : Pos} {ctx : Ctx}
    (hloc : (s.cpu c).loc = .exec pid pos) (hplain : (Loc.exec pid pos).Plain (.switched pid))
    (hctx : ∀ d, ctx = .recv (some d) → (Loc.exec pid pos).timed = some pid) :
    Quiet s (s.saveContext c pid ctx) := by
  unfold Machine.saveContext
  split
  · exact .move hloc (plain_fault (.inl rfl)) (.inl rfl)
  · rename_i p hp
    refine .of_update hloc rfl (fun q d hq => ?_) (locs_setLoc ..) hplain
      (inTimed_of_loc hloc (.inl rfl))
    rw [ctxOf, setLoc_table] at hq
    by_cases hqp : q = pid
    · rw [hqp, setProc_table_self] at hq
      have htimed := hctx d (Option.some.inj hq)
      exact .inl ⟨c, by rw [locs, hloc, htimed, hqp]⟩
    · rw [setProc_table_ne hqp] at hq
      exact .inr ⟨d, hq⟩

private theorem Quiet.monitor {target ref : ℕ}
    (hloc : (s.cpu c).loc = .exec pid (.monitor target ref)) :
    Quiet s ((s.setLoc c (.exec pid .body)).registerMonitor c pid target ref) := by
  have hlocs : ((s.setLoc c (.exec pid .body)).registerMonitor c pid target ref).locs =
      Function.update s.locs c (.exec pid .body) := by
    rw [← locs_setLoc]
    unfold registerMonitor
    split
    · exact locs_deliverFragment ..
    · split
      · exact locs_deliverFragment ..
      · rfl
  exact .of_calm (.trans (.setLoc (.refl s)) (.registerMonitor ..)) hloc hlocs ⟨rfl, rfl, rfl⟩
    (.inl rfl)

private theorem Quiet.readClock (hloc : (s.cpu c).loc = .top) (hc : c.val = 0) :
    Quiet s (s.setLoc c (.wheelLock s.ticks)) where
  events := by
    rw [events_of_update (locs_setLoc ..), locs, hloc]
    rfl
  wheel := rfl
  due d := by
    rw [locs_setLoc, Function.update_apply]
    split
    · rename_i hd
      rw [hd, locs, hloc]
      rfl
    · rfl
  clock d hd := by
    rw [locs_setLoc, Function.update_apply] at hd
    split at hd
    · rename_i hdc
      exact .inr (hdc ▸ hc)
    · exact .inl hd
  entering d pid k hd := by
    rw [locs_setLoc, Function.update_apply] at hd
    split at hd
    · cases hd
    · exact hd
  timed := inTimed_move (locs_setLoc ..) rfl (inTimed_of_loc hloc (.inl rfl))

private theorem inTimed_of_fresh {t : Machine n μ} (hcalm : Calm s t) {child q d : ℕ}
    {links : List ℕ} {ms : List (ℕ × ℕ)}
    (hq : (t.setProc child (.fresh links ms)).ctxOf q = some (.recv (some d))) : s.InTimed q := by
  rw [ctxOf] at hq
  by_cases hqc : q = child
  · rw [hqc, setProc_table_self] at hq
    cases hq
  · rw [setProc_table_ne hqc] at hq
    exact hcalm.inTimed q d hq

private theorem Quiet.insertChild {child : ℕ} {link : Bool} {ref : Option ℕ}
    {ms : List (ℕ × ℕ)} (hloc : (s.cpu c).loc = .exec pid (.spawnInsert child link ref ms)) :
    Quiet s (s.insertChild c pid child link ref ms) := by
  unfold Machine.insertChild
  dsimp only
  split
  · rename_i pp hpp
    have hparent : Calm s (s.setProc pid { pp with links := pp.links ++ [child] }) :=
      .setProc hpp (.inl rfl)
    exact .of_update hloc rfl (fun _ _ => inTimed_of_fresh hparent) (locs_setLoc ..)
      ⟨rfl, rfl, rfl⟩ (inTimed_of_loc hloc (.inl rfl))
  · exact .of_update hloc rfl (fun _ _ => inTimed_of_fresh (.refl s)) (locs_setLoc ..)
      ⟨rfl, rfl, rfl⟩ (inTimed_of_loc hloc (.inl rfl))

private theorem timerEffect_recvPass {deadline : Option ℕ} (scan : Scan)
    (hloc : (s.cpu c).loc = .exec pid (.recv deadline)) :
    TimerEffect s (s.recvPass c pid deadline scan) := by
  unfold recvPass
  split
  · exact .quiet (.move hloc (plain_fault (.inl rfl)) (.inl rfl))
  · rename_i p hp
    split
    · exact .quiet (.of_calm (.setLoc (.setProc hp (.inl p.honourKill_rsp))) hloc (locs_setLoc ..)
        ⟨rfl, rfl, rfl⟩ (.inl rfl))
    · rename_i halive
      have hdoom : ¬p.Doomed := by
        rintro (hdead | hkill)
        · exact halive (honourKill_dead hdead)
        · exact halive (by simp [Process.honourKill, hkill])
      split
      · exact .quiet (.of_calm (.setLoc (.setProc hp (.inl rfl))) hloc (locs_setLoc ..)
          ⟨rfl, rfl, rfl⟩ (.inl rfl))
      · exact .quiet (.move hloc ⟨rfl, rfl, rfl⟩ (.inl rfl))
      · split
        · exact .quiet (.move hloc ⟨rfl, rfl, rfl⟩ (.inl rfl))
        · split
          · exact .quiet (.move hloc ⟨rfl, rfl, rfl⟩ (.inl rfl))
          · rename_i d hlate
            have hpass : s.setLoc c (.exec pid (.recvWheel d)) =
                s.recvPass c pid (some d) .miss := by
              simp [recvPass, hp, halive, hlate]
            exact .misses c pid d p hloc hp hdoom (Nat.lt_of_not_le hlate) hpass (locs_setLoc ..)
              rfl (inTimed_move (locs_setLoc ..) rfl (inTimed_of_loc hloc (.inr rfl)))

end Machine

open Machine in
/-- What a step does to timers. -/
theorem Step.timerEffect {s s' : Machine n μ} (h : Step s s') : TimerEffect s s' := by
  cases h with
  | tick k => exact .quiet (.of_stay ⟨rfl, fun _ => .inl rfl⟩ rfl)
  | enterRun hloc | skipWheel hloc | pumpDone hloc | popEmpty hloc | stealNext hloc
  | stealDone hloc | callSpawn _ hloc | callExit _ hloc | fatalSwitch hloc =>
    exact .quiet (.move hloc ⟨rfl, rfl, rfl⟩ (.inl rfl))
  | readClock hloc hc => exact .quiet (.readClock hloc hc)
  | popDue hloc =>
    exact .expires _ _ hloc (locs_setLoc ..) rfl
      (inTimed_move (locs_setLoc ..) rfl (inTimed_of_loc hloc (.inl rfl)))
  | wakeDue hloc => exact .wakes _ _ _ hloc rfl
  | pumpDeliver hloc | send hloc =>
    exact .quiet (.of_stay (.deliverFragment ..) (locs_deliverFragment ..))
  | popFront hloc _ | yieldStore hloc =>
    exact .quiet (.of_calm (.setCpu (.refl s)) hloc (locs_setCpu ..) ⟨rfl, rfl, rfl⟩ (.inl rfl))
  | stealBack hloc =>
    exact .quiet (.of_calm (.setLoc (.setCpu (.refl s))) hloc (locs_steal ..) ⟨rfl, rfl, rfl⟩
      (.inl rfl))
  | take hloc => exact .quiet (.take hloc)
  | @heapPtr c pid rsp hloc =>
    split
    · exact .quiet (.move hloc ⟨rfl, rfl, rfl⟩ (.inr (timed_switchIn pid rsp)))
    · exact .quiet (.move hloc ⟨rfl, rfl, rfl⟩ (.inl rfl))
  | @switchIn c pid rsp hloc =>
    exact .quiet (.move hloc (plain_resume pid rsp) (.inr (timed_resume pid rsp)))
  | afterSwitch hloc => exact .quiet (.afterSwitch hloc)
  | finalize hloc | callMonitor hloc | callSpawnMonitor hloc | spawnMonitor hloc
  | spawnInner hloc | spawnPid hloc =>
    exact .quiet (.of_calm (.setLoc ⟨rfl, fun _ => .inl rfl⟩) hloc (locs_setLoc ..) ⟨rfl, rfl, rfl⟩
      (.inl rfl))
  | kill hloc => exact .quiet (.of_stay (.markDead ..) (locs_markDead ..))
  | monitor hloc => exact .quiet (.monitor hloc)
  | spawnInsert hloc => exact .quiet (.insertChild hloc)
  | @spawnEnqueue c pid child ref hloc =>
    have hlocs : ((s.enqueue c child).setLoc c (.exec pid .body)).locs =
        Function.update s.locs c (.exec pid .body) := by
      rw [locs_setLoc, locs_enqueue]
    exact .quiet (.of_calm (.setLoc (.enqueue (.refl s))) hloc hlocs ⟨rfl, rfl, rfl⟩ (.inl rfl))
  | callYield hloc =>
    split
    · exact .quiet (.move hloc ⟨rfl, rfl, rfl⟩ (.inl rfl))
    · exact .quiet (.move hloc ⟨rfl, rfl, rfl⟩ (.inl rfl))
  | yieldSwitch hloc | exitSwitch hloc =>
    exact .quiet (.saveContext hloc ⟨rfl, rfl, rfl⟩ fun d h => by cases h)
  | @callRecv c pid timeout hloc =>
    cases timeout with
    | none => exact .quiet (.move hloc ⟨rfl, rfl, rfl⟩ (.inl rfl))
    | some ms =>
      refine .begins c pid _ hloc (locs_setLoc ..) rfl fun q hq => ?_
      rcases hq with ⟨e, he⟩ | ⟨d, hd⟩
      · rw [locs_setLoc, Function.update_apply] at he
        split at he
        · exact .inr (Option.some.inj he).symm
        · exact .inl (.inl ⟨e, he⟩)
      · exact .inl (.inr ⟨d, hd⟩)
  | recvPass scan hloc => exact timerEffect_recvPass scan hloc
  | recvWheel hloc =>
    exact .enters _ _ _ hloc (locs_setLoc ..) rfl
      (inTimed_move (locs_setLoc ..) rfl (inTimed_of_loc hloc (.inr rfl)))
  | @recvStore c pid deadline hloc =>
    cases deadline with
    | none =>
      exact .quiet (.of_calm (.setCpu (.refl s)) hloc (locs_setCpu ..) ⟨rfl, rfl, rfl⟩ (.inl rfl))
    | some d =>
      exact .quiet (.of_calm (.setCpu (.refl s)) hloc (locs_setCpu ..) ⟨rfl, rfl, rfl⟩ (.inr rfl))
  | @recvSwitch c pid deadline hloc =>
    refine .quiet (.saveContext hloc ⟨rfl, rfl, rfl⟩ fun d h => ?_)
    rw [Ctx.recv.inj h]
    rfl
  | exit hloc => exact .quiet (.die hloc ⟨rfl, rfl, rfl⟩ rfl)
  | @fatal c pid pos reason hloc hne =>
    exact .quiet (.die hloc (plain_fault (.inr rfl)) rfl)

end Yggdrasil.Sched
