import Yggdrasil.Sched.Timers

/-!
# One timer per timed receive

A timed receive enters the wheel on every pass that finds nothing to take before the
deadline. If no receive makes such a pass while it has a timer already, every receive has
at most one timer in the wheel, and the wheel is no larger than the number of timed
receives. A sleeping process with a message in its mailbox is scheduled again at once, and
enters the wheel once more each time.
-/

namespace Yggdrasil.Sched

variable {n : ℕ} {μ : Type}

namespace Machine

section Wake

variable (c : Fin n) (now : ℕ) (s : Machine n μ)

/-- Waking a process starts and stops none. -/
theorem wakeOne_runs (pid q : ℕ) : (s.wakeOne c now pid).runs q = s.runs q := by
  unfold wakeOne
  split
  · rfl
  · rename_i p hp
    split
    · rename_i hwait
      by_cases hq : q = pid
      · subst hq
        have hold : s.stateOf q = some .waiting := by rw [stateOf_eq hp, hwait]
        have hnew : ((s.setProc q { p with state := .runnable }).enqueue c q).stateOf q =
            some .runnable := stateOf_eq (setProc_table_self ..)
        rw [runs, runs, hold, hnew]
        rfl
      · have hsame : ((s.setProc pid { p with state := .runnable }).enqueue c pid).stateOf q =
            s.stateOf q := by
          rw [stateOf, view, enqueue_table, setProc_table_ne hq, stateOf, view]
        rw [runs, runs, hsame]
    · rfl
    · rfl
    · rfl

/-- Waking a process queues it again in the wheel if it runs. -/
theorem wakeOne_wheel (pid : ℕ) : (s.wakeOne c now pid).wheel =
    if s.runs pid then s.wheel.push (now + 1) pid else s.wheel := by
  unfold wakeOne runs
  cases hp : s.table pid with
  | none => simp [stateOf, view, hp]
  | some p =>
    rw [stateOf_eq hp]
    cases hstate : p.state <;> simp [hstate, setProc, enqueue, setCpu]

/-- Waking saves no context. -/
theorem wakeOne_ctxOf (pid q : ℕ) : (s.wakeOne c now pid).ctxOf q = s.ctxOf q := by
  unfold wakeOne
  split
  · rfl
  · rename_i p hp
    split
    · by_cases hq : q = pid
      · rw [ctxOf, enqueue_table, hq, setProc_table_self, ctxOf, hp]
        rfl
      · rw [ctxOf, enqueue_table, setProc_table_ne hq, ctxOf]
    · rfl
    · rfl
    · rfl

/-- A sweep saves no context. -/
theorem wakeDue_ctxOf (due : List ℕ) (q : ℕ) : (s.wakeDue c now due).ctxOf q = s.ctxOf q := by
  induction due generalizing s with
  | nil => rfl
  | cons pid due ih => exact (ih _).trans (wakeOne_ctxOf c now s pid q)

/-- A sweep queues the processes that run in the wheel again. -/
theorem wakeDue_wheel (due : List ℕ) (h : s.wheel.Sorted) :
    (s.wakeDue c now due).wheel.Sorted ∧ (s.wakeDue c now due).wheel.entries.Perm
      ((due.filter s.runs).map (now + 1, ·) ++ s.wheel.entries) := by
  induction due generalizing s with
  | nil => exact ⟨h, .refl _⟩
  | cons pid due ih =>
    have hruns : ((s.wakeOne c now pid).setLoc c (.wheelDue now due)).runs = s.runs :=
      funext (wakeOne_runs c now s pid)
    have hwheel : ((s.wakeOne c now pid).setLoc c (.wheelDue now due)).wheel = _ :=
      wakeOne_wheel c now s pid
    by_cases hrun : s.runs pid = true
    · rw [if_pos hrun] at hwheel
      obtain ⟨hsorted, hperm⟩ := ih _ (by rw [hwheel]; exact h.push ..)
      refine ⟨hsorted, hperm.trans ?_⟩
      rw [hruns, hwheel, List.filter_cons_of_pos hrun, List.map_cons]
      exact ((s.wheel.entries_push ..).append_left _).trans List.perm_middle
    · rw [if_neg hrun] at hwheel
      obtain ⟨hsorted, hperm⟩ := ih _ (by rw [hwheel]; exact h)
      refine ⟨hsorted, hperm.trans ?_⟩
      rw [hruns, hwheel, List.filter_cons_of_neg hrun]

end Wake

end Machine

/-- Timers follow the wheel of a machine. -/
structure Timers.Follow (t : Timers) (s : Machine n μ) : Prop where
  /-- The wheel is in order. -/
  sorted : s.wheel.Sorted
  /-- Only core 0 sweeps. -/
  sweeper : ∀ c, (s.locs c).sweeps = true → c.val = 0
  /-- The timers in the wheel are its entries. -/
  wheel : (t.wheel.map Timer.entry).Perm s.wheel.entries
  /-- The timers due are the pids core 0 has taken out. -/
  due : ∀ c, c.val = 0 → (t.due.map Timer.pid).Perm (s.locs c).due

/-- Timers belong to receives that were begun. -/
structure Timers.Owned (t : Timers) (s : Machine n μ) : Prop where
  /-- A process in a timed receive began it. -/
  timed : ∀ pid, s.InTimed pid → t.callers[t.current pid]? = some pid
  /-- A timer belongs to a receive of its process. -/
  owner : ∀ e ∈ t.wheel ++ t.due, t.callers[e.call]? = some e.pid

/-- No receive has two timers. -/
structure Timers.Single (t : Timers) (s : Machine n μ) : Prop where
  /-- Timers belong to different receives. -/
  nodup : ((t.wheel ++ t.due).map Timer.call).Nodup
  /-- A receive about to enter the wheel has no timer. -/
  fresh : ∀ c pid d, s.locs c = .exec pid (.recvWheel d) → ¬t.Holds (t.current pid)

section After

variable {s s' : Machine n μ} {t : Timers} {c : Fin n} {l : Loc}

/-- A quiet step leaves the timers alone. -/
theorem Machine.Quiet.after (h : s.Quiet s') (t : Timers) : t.after s s' = t := by
  rw [Timers.after, h.events, List.foldl_nil]

private theorem after_move {e : TimerEvent} (hlocs : s'.locs = Function.update s.locs c l)
    (hevent : (s.locs c).event l = some e) (t : Timers) : t.after s s' = t.apply s e := by
  rw [Timers.after, Machine.events_of_update hlocs, hevent]
  rfl

private theorem after_plain (hlocs : s'.locs = Function.update s.locs c l)
    (hevent : (s.locs c).event l = none) (t : Timers) : t.after s s' = t := by
  rw [Timers.after, Machine.events_of_update hlocs, hevent]
  rfl

end After

namespace Timers

section Follow

variable {s s' : Machine n μ} {t : Timers}

private theorem Follow.of_update {t' : Timers} (h : t.Follow s) {c : Fin n} {l : Loc}
    (hlocs : s'.locs = Function.update s.locs c l) (hsorted : s'.wheel.Sorted)
    (hwheel : (t'.wheel.map Timer.entry).Perm s'.wheel.entries)
    (hsweeps : l.sweeps = true → (s.locs c).sweeps = true)
    (hdue : c.val = 0 → (t'.due.map Timer.pid).Perm l.due)
    (hkeep : c.val ≠ 0 → t'.due = t.due) : t'.Follow s' := by
  refine ⟨hsorted, fun d hd => ?_, hwheel, fun d hd => ?_⟩
  · rw [hlocs, Function.update_apply] at hd
    split at hd
    · rename_i hdc
      rw [hdc]
      exact h.sweeper c (hsweeps hd)
    · exact h.sweeper d hd
  · rw [hlocs, Function.update_apply]
    split
    · rename_i hdc
      exact hdue (hdc ▸ hd)
    · rename_i hdc
      have hc : c.val ≠ 0 := fun hc => hdc (Fin.ext (hd.trans hc.symm))
      rw [hkeep hc]
      exact h.due d hd

private theorem filter_entry (p : ℕ → Bool) (es : List Timer) :
    (es.filter fun e => p e.deadline).map Timer.entry =
      (es.map Timer.entry).filter fun x => p x.1 := by
  rw [List.filter_map]
  rfl

/-- Timers follow the wheel along every step. -/
theorem Follow.step (h : t.Follow s) (hstep : Step s s') : (t.after s s').Follow s' := by
  cases hstep.timerEffect with
  | quiet hq =>
    rw [hq.after]
    refine ⟨?_, fun c hc => ?_, ?_, fun c hc => ?_⟩
    · rw [hq.wheel]
      exact h.sorted
    · rcases hq.clock c hc with hc | hc
      · exact h.sweeper c hc
      · exact hc
    · rw [hq.wheel]
      exact h.wheel
    · rw [hq.due]
      exact h.due c hc
  | begins c pid d hloc hlocs hwheel _ =>
    rw [after_move hlocs (by rw [hloc]; rfl)]
    refine h.of_update hlocs (hwheel ▸ h.sorted) (hwheel ▸ h.wheel) (fun hl => ?_) (fun hc => ?_)
      fun _ => rfl
    · cases hl
    · have hdue := h.due c hc
      rwa [hloc] at hdue
  | misses c pid d p hloc _ _ _ _ hlocs hwheel _ =>
    rw [after_plain hlocs (by rw [hloc]; rfl)]
    refine h.of_update hlocs (hwheel ▸ h.sorted) (hwheel ▸ h.wheel) (fun hl => ?_) (fun hc => ?_)
      fun _ => rfl
    · cases hl
    · have hdue := h.due c hc
      rwa [hloc] at hdue
  | enters c pid d hloc hlocs hwheel _ =>
    rw [after_move hlocs (by rw [hloc]; rfl)]
    refine h.of_update hlocs (hwheel ▸ h.sorted.push ..) ?_ (fun hl => ?_) (fun hc => ?_)
      fun _ => rfl
    · rw [hwheel]
      exact (h.wheel.cons _).trans (s.wheel.entries_push ..).symm
    · cases hl
    · have hdue := h.due c hc
      rwa [hloc] at hdue
  | expires c now hloc hlocs hwheel _ =>
    rw [after_move hlocs (by rw [hloc]; rfl)]
    obtain ⟨hsorted, hpids, hrest⟩ := h.sorted.popDue now
    have hc : c.val = 0 := h.sweeper c (by rw [hloc]; rfl)
    have hnone : t.due = [] := by
      have hdue := h.due c hc
      rw [hloc] at hdue
      exact List.map_eq_nil_iff.mp hdue.eq_nil
    refine h.of_update hlocs (hwheel ▸ hsorted) ?_ (fun _ => by rw [hloc]; rfl) (fun _ => ?_)
      fun hne => absurd hc hne
    · rw [hwheel, hrest]
      refine (List.Perm.of_eq (filter_entry (fun k => now < k) t.wheel)).trans ?_
      exact h.wheel.filter _
    · change ((t.due ++ t.wheel.filter fun e => e.deadline ≤ now).map Timer.pid).Perm
        (s.wheel.popDue now).1
      have hfilter := filter_entry (fun k => k ≤ now) t.wheel
      rw [hpids, hnone, List.nil_append]
      have hpid : Timer.pid = Prod.snd ∘ Timer.entry := rfl
      rw [hpid, ← List.map_map, hfilter]
      exact (h.wheel.filter _).map _
  | wakes c now due hloc heq =>
    have hlocs : s'.locs = Function.update s.locs c .pump := heq ▸ s.locs_wakeDue c now due
    obtain ⟨hsorted, hperm⟩ := s.wakeDue_wheel c now due h.sorted
    have hc : c.val = 0 := h.sweeper c (by rw [hloc]; rfl)
    have hdue : (t.due.map Timer.pid).Perm due := by
      have hdue := h.due c hc
      rwa [hloc] at hdue
    rw [after_move hlocs (by rw [hloc]; rfl)]
    refine h.of_update hlocs (heq ▸ hsorted) ?_ (fun hl => ?_) (fun _ => .refl _)
      fun hne => absurd hc hne
    · rw [heq]
      refine List.Perm.trans ?_ hperm.symm
      change (((t.due.filter fun e : Timer => s.runs e.pid).map (Timer.requeued now) ++
        t.wheel).map Timer.entry).Perm _
      rw [List.map_append]
      refine List.Perm.append ?_ h.wheel
      have hrequeued : Timer.entry ∘ Timer.requeued now = (now + 1, ·) ∘ Timer.pid := rfl
      rw [List.map_map, hrequeued, ← List.map_map]
      refine List.Perm.map _ ?_
      have hfilter : (t.due.filter fun e => s.runs e.pid).map Timer.pid =
          (t.due.map Timer.pid).filter s.runs := by
        rw [List.filter_map]
        rfl
      rw [hfilter]
      exact hdue.filter _
    · cases hl

end Follow

section Owned

variable {s s' : Machine n μ} {t : Timers}

/-- The timers of a sweep are those before it. -/
theorem mem_expired {now : ℕ} {e : Timer}
    (he : e ∈ (t.apply s (.expires now)).wheel ++ (t.apply s (.expires now)).due) :
    e ∈ t.wheel ++ t.due := by
  have hmem : e ∈ t.wheel.filter (fun e => now < e.deadline) ++
      (t.due ++ t.wheel.filter fun e => e.deadline ≤ now) := he
  simp only [List.mem_append, List.mem_filter] at hmem ⊢
  tauto

/-- After a sweep a receive has only timers it had before. -/
theorem mem_woken {now : ℕ} {e : Timer}
    (he : e ∈ (t.apply s (.wakes now)).wheel ++ (t.apply s (.wakes now)).due) :
    ∃ e' ∈ t.wheel ++ t.due, e'.call = e.call ∧ e'.pid = e.pid := by
  have hmem : e ∈ ((t.due.filter fun e : Timer => s.runs e.pid).map (Timer.requeued now) ++
      t.wheel) ++ [] := he
  rw [List.append_nil] at hmem
  rcases List.mem_append.mp hmem with hmem | hmem
  · obtain ⟨e', he', rfl⟩ := List.mem_map.mp hmem
    exact ⟨e', List.mem_append_right _ (List.mem_filter.mp he').1, rfl, rfl⟩
  · exact ⟨e, List.mem_append_left _ hmem, rfl, rfl⟩

/-- Timers belong to receives along every step. -/
theorem Owned.step (h : t.Owned s) (hstep : Step s s') : (t.after s s').Owned s' := by
  cases hstep.timerEffect with
  | quiet hq =>
    rw [hq.after]
    exact ⟨fun q hin => h.timed q (hq.timed q hin), h.owner⟩
  | begins c pid d hloc hlocs _ htimed =>
    rw [after_move hlocs (by rw [hloc]; rfl)]
    have hgrow : ∀ {k q : ℕ}, t.callers[k]? = some q → (t.callers ++ [pid])[k]? = some q :=
      fun {k q} hk => by
        have hlt : k < t.callers.length := (List.getElem?_eq_some_iff.mp hk).1
        rwa [List.getElem?_append_left hlt]
    refine ⟨fun q hin => ?_, fun e he => hgrow (h.owner e he)⟩
    change (t.callers ++ [pid])[Function.update t.current pid t.callers.length q]? = some q
    by_cases hq : q = pid
    · rw [hq, Function.update_self, List.getElem?_concat_length]
    · rw [Function.update_of_ne hq]
      exact hgrow (h.timed q ((htimed q hin).resolve_right hq))
  | misses c pid d p hloc _ _ _ _ hlocs _ htimed =>
    rw [after_plain hlocs (by rw [hloc]; rfl)]
    exact ⟨fun q hin => h.timed q (htimed q hin), h.owner⟩
  | enters c pid d hloc hlocs _ htimed =>
    rw [after_move hlocs (by rw [hloc]; rfl)]
    refine ⟨fun q hin => h.timed q (htimed q hin), fun e he => ?_⟩
    have hin : s.InTimed pid := .inl ⟨c, by rw [hloc]; rfl⟩
    rcases List.mem_cons.mp he with rfl | he
    · exact h.timed pid hin
    · exact h.owner e he
  | expires c now hloc hlocs _ htimed =>
    rw [after_move hlocs (by rw [hloc]; rfl)]
    exact ⟨fun q hin => h.timed q (htimed q hin), fun e he => h.owner e (mem_expired he)⟩
  | wakes c now due hloc heq =>
    have hlocs : s'.locs = Function.update s.locs c .pump := heq ▸ s.locs_wakeDue c now due
    rw [after_move hlocs (by rw [hloc]; rfl)]
    refine ⟨fun q hin => h.timed q ?_, fun e he => ?_⟩
    · refine Machine.InTimed.of_locs (fun q d hq => .inr ⟨d, ?_⟩) hlocs (fun q hq => ?_) hin
      · rwa [heq, s.wakeDue_ctxOf c now due] at hq
      · cases hq
    · obtain ⟨e', he', hcall, hpid⟩ := mem_woken he
      rw [← hcall, ← hpid]
      exact h.owner e' he'

end Owned

section Single

variable {s s' : Machine n μ} {t : Timers}

/-- A step makes no pass in vain: no receive that has a timer passes over its mailbox and
finds nothing to take, unless its deadline has come or its process is killed. -/
def Patient (t : Timers) (s s' : Machine n μ) : Prop :=
  ∀ c pid d p, s.locs c = .exec pid (.recv (some d)) → s.table pid = some p → ¬p.Doomed →
    s.ticks < d → t.Holds (t.current pid) → s' ≠ s.recvPass c pid (some d) .miss

private theorem entering_of_update {c e : Fin n} {l : Loc} {pid k : ℕ}
    (hlocs : s'.locs = Function.update s.locs c l) (hl : ∀ pid k, l ≠ .exec pid (.recvWheel k))
    (he : s'.locs e = .exec pid (.recvWheel k)) :
    e ≠ c ∧ s.locs e = .exec pid (.recvWheel k) := by
  rw [hlocs, Function.update_apply] at he
  split at he
  · exact absurd he (hl pid k)
  · rename_i hne
    exact ⟨hne, he⟩

private theorem calls_expired (now : ℕ) :
    (((t.apply s (.expires now)).wheel ++ (t.apply s (.expires now)).due).map Timer.call).Perm
      ((t.wheel ++ t.due).map Timer.call) := by
  change ((t.wheel.filter (fun e => now < e.deadline) ++
    (t.due ++ t.wheel.filter fun e => e.deadline ≤ now)).map Timer.call).Perm _
  refine List.Perm.map _ ?_
  have hsplit := List.filter_append_perm (fun e : Timer => decide (now < e.deadline)) t.wheel
  have hle : (fun e : Timer => !decide (now < e.deadline)) =
      fun e => decide (e.deadline ≤ now) := by
    funext e
    rw [← decide_not]
    exact decide_eq_decide.mpr Nat.not_lt
  rw [hle] at hsplit
  refine (List.perm_append_comm.append_left _).trans ?_
  rw [← List.append_assoc]
  exact hsplit.append_right _

private theorem calls_woken (now : ℕ) (h : ((t.wheel ++ t.due).map Timer.call).Nodup) :
    (((t.apply s (.wakes now)).wheel ++ (t.apply s (.wakes now)).due).map Timer.call).Nodup := by
  change ((((t.due.filter fun e : Timer => s.runs e.pid).map (Timer.requeued now) ++ t.wheel) ++
    []).map Timer.call).Nodup
  have hrequeued : Timer.call ∘ Timer.requeued now = Timer.call := rfl
  rw [List.map_append] at h
  rw [List.append_nil, List.map_append, List.map_map, hrequeued]
  have hsub : (((t.due.filter fun e : Timer => s.runs e.pid).map Timer.call) ++
      t.wheel.map Timer.call).Sublist (t.due.map Timer.call ++ t.wheel.map Timer.call) :=
    ((List.filter_sublist).map _).append_right _
  exact hsub.nodup (List.perm_append_comm.nodup_iff.mp h)

/-- Patient steps give no receive a second timer. -/
theorem Single.step (h : t.Single s) (howned : t.Owned s) (hinv : s.Inv) (hstep : Step s s')
    (hpatient : t.Patient s s') : (t.after s s').Single s' := by
  cases hstep.timerEffect with
  | quiet hq =>
    rw [hq.after]
    exact ⟨h.nodup, fun c pid d hc => h.fresh c pid d (hq.entering c pid d hc)⟩
  | begins c pid d hloc hlocs _ _ =>
    rw [after_move hlocs (by rw [hloc]; rfl)]
    refine ⟨h.nodup, fun e pid' k he => ?_⟩
    obtain ⟨-, hold⟩ := entering_of_update hlocs (fun _ _ hl => by cases hl) he
    rintro ⟨x, hx, hcall⟩
    change x.call = Function.update t.current pid t.callers.length pid' at hcall
    by_cases hpid : pid' = pid
    · -- the new receive has no timer yet
      have howner := (List.getElem?_eq_some_iff.mp (howned.owner x hx)).1
      rw [hpid, Function.update_self] at hcall
      omega
    · rw [Function.update_of_ne hpid] at hcall
      exact h.fresh e pid' k hold ⟨x, hx, hcall⟩
  | misses c pid d p hloc hp hdoom hticks heq hlocs _ _ =>
    rw [after_plain hlocs (by rw [hloc]; rfl)]
    refine ⟨h.nodup, fun d' pid' k hd => ?_⟩
    rw [hlocs, Function.update_apply] at hd
    split at hd
    · cases hd
      exact fun hholds => hpatient c pid d p hloc hp hdoom hticks hholds heq
    · exact h.fresh d' pid' k hd
  | enters c pid d hloc hlocs _ _ =>
    rw [after_move hlocs (by rw [hloc]; rfl)]
    have hfresh := h.fresh c pid d hloc
    refine ⟨List.nodup_cons.mpr ⟨fun hmem => ?_, h.nodup⟩, fun e pid' k he => ?_⟩
    · obtain ⟨x, hx, hcall⟩ := List.mem_map.mp hmem
      exact hfresh ⟨x, hx, hcall⟩
    · obtain ⟨hec, hold⟩ := entering_of_update hlocs (fun _ _ hl => by cases hl) he
      rintro ⟨x, hx, hcall⟩
      change x.call = t.current pid' at hcall
      rcases List.mem_cons.mp hx with rfl | hx
      · -- two processes are in different receives, and a process runs on one core
        have hpid : t.callers[t.current pid]? = some pid :=
          howned.timed pid (.inl ⟨c, by rw [hloc]; rfl⟩)
        have hpid' : t.callers[t.current pid']? = some pid' :=
          howned.timed pid' (.inl ⟨e, by rw [hold]; rfl⟩)
        change t.current pid = t.current pid' at hcall
        rw [hcall, hpid', Option.some.injEq] at hpid
        subst hpid
        have hcore : s.PosOk pid' (s.cpu c).postSwitch (.recvWheel d) := hinv.core hloc
        have howner : (s.cpu c).loc.owner = pid' := by rw [show (s.cpu c).loc = _ from hloc]; rfl
        have howner' : (s.cpu e).loc.owner = pid' := by rw [show (s.cpu e).loc = _ from hold]; rfl
        exact hec (hinv.owner_unique hcore.1 howner' howner)
      · exact h.fresh e pid' k hold ⟨x, hx, hcall⟩
  | expires c now hloc hlocs _ _ =>
    rw [after_move hlocs (by rw [hloc]; rfl)]
    refine ⟨(calls_expired now).nodup_iff.mpr h.nodup, fun e pid k he => ?_⟩
    obtain ⟨-, hold⟩ := entering_of_update hlocs (fun _ _ hl => by cases hl) he
    rintro ⟨x, hx, hcall⟩
    exact h.fresh e pid k hold ⟨x, mem_expired hx, hcall⟩
  | wakes c now due hloc heq =>
    have hlocs : s'.locs = Function.update s.locs c .pump := heq ▸ s.locs_wakeDue c now due
    rw [after_move hlocs (by rw [hloc]; rfl)]
    refine ⟨calls_woken now h.nodup, fun e pid k he => ?_⟩
    obtain ⟨-, hold⟩ := entering_of_update hlocs (fun _ _ hl => by cases hl) he
    rintro ⟨x, hx, hcall⟩
    obtain ⟨x', hx', hcall', -⟩ := mem_woken hx
    exact h.fresh e pid k hold ⟨x', hx', hcall'.trans hcall⟩

end Single

end Timers

/-- A step with its timers, where the step meets condition `R`. -/
inductive TimedStep (R : Timers → Machine n μ → Machine n μ → Prop) :
    Machine n μ × Timers → Machine n μ × Timers → Prop
  | step {s s' : Machine n μ} {t : Timers} : Step s s' → R t s s' →
      TimedStep R (s, t) (s', t.after s s')

/-- A machine can get to state `s` by a run with timers `t`, all of whose steps meet `R`. -/
def Timed (R : Timers → Machine n μ → Machine n μ → Prop) (s : Machine n μ) (t : Timers) : Prop :=
  Transition.Reaches (fun x : Machine n μ × Timers => Init x.1 ∧ x.2 = .empty) (TimedStep R) (s, t)

namespace Timed

variable {R : Timers → Machine n μ → Machine n μ → Prop} {s s' : Machine n μ} {t : Timers}

/-- A step that meets the condition extends a timed run. -/
theorem step (h : Timed R s t) (hstep : Step s s') (hR : R t s s') :
    Timed R s' (t.after s s') := Transition.Reaches.step h (.step hstep hR)

/-- One more step that leaves the timers alone. -/
theorem stay (h : Timed R s t) (hstep : Step s s') (hR : R t s s') (ht : t.after s s' = t) :
    Timed R s' t := by
  have hnext := h.step hstep hR
  rwa [ht] at hnext

private theorem empty_ok (h : Init s) :
    Timers.empty.Follow s ∧ Timers.empty.Owned s ∧ Timers.empty.Single s := by
  obtain ⟨hcpu, htable, hwheel, -⟩ := h
  have hloc : ∀ c, s.locs c = .exec 0 .body := fun c => congrArg Cpu.loc (hcpu c)
  have hout : ∀ pid, ¬s.InTimed pid := by
    rintro pid (⟨c, hc⟩ | ⟨d, hd⟩)
    · rw [hloc] at hc
      cases hc
    · rw [Machine.ctxOf, htable] at hd
      cases hd
  refine ⟨⟨?_, fun c hc => ?_, ?_, fun c _ => ?_⟩, ⟨fun pid hin => absurd hin (hout pid), ?_⟩,
    ⟨List.nodup_nil, fun c pid d hc => ?_⟩⟩
  · rw [hwheel]
    exact List.Pairwise.nil
  · rw [hloc] at hc
    cases hc
  · rw [hwheel]
    exact .refl _
  · rw [hloc]
    exact .refl _
  · intro e he
    cases he
  · rw [hloc] at hc
    cases hc

/-- Timers follow the wheel and belong to receives in every run. -/
theorem inv (h : Timed R s t) : s.Inv ∧ t.Follow s ∧ t.Owned s := by
  refine Transition.Reaches.invariant
    (P := fun x : Machine n μ × Timers => x.1.Inv ∧ x.2.Follow x.1 ∧ x.2.Owned x.1) ?_ ?_ h
  · rintro ⟨s, t⟩ ⟨hinit, rfl⟩
    obtain ⟨hfollow, howned, -⟩ := empty_ok hinit
    exact ⟨.init hinit, hfollow, howned⟩
  · rintro ⟨s, t⟩ ⟨s', t'⟩ ⟨hinv, hfollow, howned⟩ ⟨hstep, -⟩
    exact ⟨hinv.step hstep, hfollow.step hstep, howned.step hstep⟩

/-- Patient runs give no receive two timers. -/
theorem single (h : Timed Timers.Patient s t) : t.Single s := by
  have hboth := Transition.Reaches.invariant
    (P := fun x : Machine n μ × Timers => (x.1.Inv ∧ x.2.Owned x.1) ∧ x.2.Single x.1) ?_ ?_ h
  · exact hboth.2
  · rintro ⟨s, t⟩ ⟨hinit, rfl⟩
    obtain ⟨-, howned, hsingle⟩ := empty_ok hinit
    exact ⟨⟨.init hinit, howned⟩, hsingle⟩
  · rintro ⟨s, t⟩ ⟨s', t'⟩ ⟨⟨hinv, howned⟩, hsingle⟩ ⟨hstep, hpatient⟩
    exact ⟨⟨hinv.step hstep, howned.step hstep⟩, hsingle.step howned hinv hstep hpatient⟩

end Timed

/-- In runs without passes in vain, every timed receive has at most one entry in the timer
wheel. Every entry was added by some timed receive of its process, entries queued again
included, and the wheel has no more entries than timed receives were begun. -/
theorem one_timer_per_receive {s : Machine n μ} {t : Timers} (h : Timed Timers.Patient s t) :
    (t.wheel.map Timer.entry).Perm s.wheel.entries ∧
    (∀ e ∈ t.wheel, t.callers[e.call]? = some e.pid) ∧
    (∀ call, t.wheel.countP (·.call = call) ≤ 1) ∧
    s.wheel.entries.length ≤ t.callers.length := by
  obtain ⟨-, hfollow, howned⟩ := h.inv
  have hcalls : (t.wheel.map Timer.call).Nodup := by
    have hnodup := h.single.nodup
    rw [List.map_append] at hnodup
    exact (List.sublist_append_left ..).nodup hnodup
  have howner : ∀ e ∈ t.wheel, t.callers[e.call]? = some e.pid :=
    fun e he => howned.owner e (List.mem_append_left _ he)
  refine ⟨hfollow.wheel, howner, fun call => ?_, ?_⟩
  · have hcount : t.wheel.countP (·.call = call) = (t.wheel.map Timer.call).count call := by
      rw [List.count, List.countP_map]
      rfl
    rw [hcount]
    exact List.nodup_iff_count_le_one.mp hcalls call
  · have hsub : t.wheel.map Timer.call ⊆ List.range t.callers.length := by
      intro call hcall
      obtain ⟨e, he, rfl⟩ := List.mem_map.mp hcall
      exact List.mem_range.mpr (List.getElem?_eq_some_iff.mp (howner e he)).1
    have hle := (hcalls.subperm hsub).length_le
    rw [List.length_map, List.length_range] at hle
    rw [← hfollow.wheel.length_eq, List.length_map]
    exact hle

private theorem patient_of_empty {s s' : Machine n μ} {t : Timers} (hwheel : t.wheel = [])
    (hdue : t.due = []) : t.Patient s s' := by
  rintro c pid d p - - - - ⟨e, he, -⟩
  rw [hwheel, hdue] at he
  cases he

/-- A step from outside a receive is patient. -/
private theorem patient_of_calm {s s' : Machine 1 Unit} {t : Timers}
    (hs : (s.cpu 0).loc.eventful = false) : t.Patient s s' := by
  intro c pid d p hloc
  rw [Subsingleton.elim c 0, Machine.locs] at hloc
  rw [hloc] at hs
  cases hs

/-- A machine without timers has none after a step outside a receive. -/
private theorem empty_after {s s' : Machine 1 Unit} (hs : (s.cpu 0).loc.eventful = false)
    (hs' : (s'.cpu 0).loc.eventful = false) : Timers.empty.after s s' = .empty := by
  have hevents : s.events s' = ((s.cpu 0).loc.event (s'.cpu 0).loc).toList := by
    simp [Machine.events, Machine.locs, List.finRange_succ, Option.toList]
    rfl
  rw [Timers.after, hevents]
  generalize (s.cpu 0).loc = l at hs
  generalize (s'.cpu 0).loc = l' at hs'
  unfold Loc.event
  split
  · cases hs'
  · cases hs
  · rfl
  · rfl
  · rfl

/-- The first process has sent itself a message and sleeps for 10 ms. On the only core it has
entered the timer wheel for the `k + 1`st time and is at some place of its receive. -/
def sleeper (pos : Pos) (k : ℕ) : Machine 1 Unit where
  cpu _ := ⟨.exec 1 pos, [], .none⟩
  table := Function.update (fun _ => none) 1
    (some ⟨.running, none, [.sent ()], false, [], [], "normal"⟩)
  wheel := [(10, List.replicate (k + 1) 1)]
  ticks := 0
  nextPid := 2
  nextRef := 1
  monitorAtSpawn := none
  inserted := [1]
  reaped := []
  finalized := []

/-- The timers of the sleeping process: all of them belong to its one receive. -/
def sleeperTimers (k : ℕ) : Timers :=
  ⟨[1], Function.update (fun _ => 0) 1 0, List.replicate (k + 1) ⟨10, 1, 0⟩, []⟩

private theorem Timed.sleeper {R : Timers → Machine 1 Unit → Machine 1 Unit → Prop}
    {s : Machine 1 Unit} {t : Timers} {pos : Pos} {k : ℕ} (h : Timed R s t)
    (hcpu : s.cpu 0 = ⟨.exec 1 pos, [], .none⟩) (htable : s.table = (Sched.sleeper pos k).table)
    (hwheel : s.wheel = [(10, List.replicate (k + 1) 1)])
    (hcounts : (s.ticks, s.nextPid, s.nextRef, s.monitorAtSpawn) = (0, 2, 1, none))
    (hhistory : (s.inserted, s.reaped, s.finalized) = ([1], [], []))
    (ht : t = sleeperTimers k) : Timed R (Sched.sleeper pos k) (sleeperTimers k) := by
  have hcpus : s.cpu = (Sched.sleeper pos k).cpu := by
    funext c
    rw [Subsingleton.elim c 0, hcpu]
    rfl
  have hs : s = Sched.sleeper pos k := by
    cases s
    cases hcounts
    cases hhistory
    simp_all [Sched.sleeper]
  rw [← hs, ← ht]
  exact h

/-- The process gets to sleep from boot. -/
private theorem sleeper_reached {R : Timers → Machine 1 Unit → Machine 1 Unit → Prop}
    (hR : ∀ t s s', t.wheel = [] → t.due = [] → R t s s') :
    Timed R (sleeper (.recvStore (some 10)) 0) (sleeperTimers 0) := by
  have hrunning := runningMachine_of_steps (X := fun s => Timed R s .empty)
    (.init ⟨bootMachine_init, rfl⟩) fun _ _ h hstep hs hs' =>
      h.stay hstep (hR _ _ _ rfl rfl) (empty_after hs hs')
  have hsent := hrunning.stay (@Step.send 1 Unit _ 0 1 1 () rfl) (hR _ _ _ rfl rfl) rfl
  have hasleep := hsent.step (.callRecv (c := 0) (some 10) rfl (by decide)) (hR _ _ _ rfl rfl)
  have hmissed := hasleep.stay (.recvPass (c := 0) .miss rfl nofun nofun) (hR _ _ _ rfl rfl) rfl
  have hentered := hmissed.step (.recvWheel (c := 0) rfl) (hR _ _ _ rfl rfl)
  exact hentered.sleeper rfl (Function.update_idem ..) rfl rfl rfl rfl

private theorem sleeperTimers_expires (k : ℕ) (s : Machine 1 Unit) :
    (sleeperTimers k).apply s (.expires 0) = sleeperTimers k := by
  simp [Timers.apply, sleeperTimers]

/-- The process has a message, so it is scheduled again at once and looks at it again. -/
private theorem sleeper_woken {R : Timers → Machine 1 Unit → Machine 1 Unit → Prop} {k : ℕ}
    (hR : ∀ t s s', (s.cpu 0).loc.eventful = false → R t s s')
    (h : Timed R (sleeper (.recvStore (some 10)) k) (sleeperTimers k)) :
    Timed R (sleeper (.recv (some 10)) k) (sleeperTimers k) := by
  have htop := h.stay (.recvStore (c := 0) rfl) (hR _ _ _ rfl) rfl
    |>.stay (.recvSwitch (c := 0) rfl) (hR _ _ _ rfl) rfl
    |>.stay (.afterSwitch (c := 0) rfl) (hR _ _ _ rfl) rfl
  have hswept := htop.stay (.readClock (c := 0) rfl rfl) (hR _ _ _ rfl) rfl
    |>.stay (.popDue (c := 0) rfl) (hR _ _ _ rfl) (sleeperTimers_expires k bootMachine)
    |>.stay (.wakeDue (c := 0) rfl) (hR _ _ _ rfl) rfl
    |>.stay (.pumpDone (c := 0) rfl) (hR _ _ _ rfl) rfl
  have hrunning := hswept.stay (.popFront (c := 0) rfl rfl) (hR _ _ _ rfl) rfl
    |>.stay (.take (c := 0) rfl) (hR _ _ _ rfl) rfl
    |>.stay (.heapPtr (c := 0) rfl) (hR _ _ _ rfl) rfl
    |>.stay (.switchIn (c := 0) rfl) (hR _ _ _ rfl) rfl
  refine hrunning.sleeper rfl ?_ rfl rfl rfl rfl
  exact (Function.update_idem ..).trans ((Function.update_idem ..).trans (Function.update_idem ..))

/-- Scheduled again, the process enters the wheel once more. -/
private theorem sleeper_again {k : ℕ}
    (h : Timed (fun _ _ _ => True) (sleeper (.recvStore (some 10)) k) (sleeperTimers k)) :
    Timed (fun _ _ _ => True) (sleeper (.recvStore (some 10)) (k + 1)) (sleeperTimers (k + 1)) := by
  have hmissed := (sleeper_woken (fun _ _ _ _ => trivial) h).stay
    (.recvPass (c := 0) .miss rfl nofun nofun) trivial rfl
  have hentered := hmissed.step (.recvWheel (c := 0) rfl) trivial
  refine hentered.sleeper rfl rfl ?_ rfl rfl rfl
  exact congrArg (fun pids => [(10, pids)]) List.replicate_succ'.symm

/-- A process with a message in its mailbox that sleeps is scheduled again at once, and its
one receive enters the timer wheel any number of times before the deadline. -/
theorem sleeper_entries (k : ℕ) : ∃ (s : Machine 1 Unit) (t : Timers),
    Timed (fun _ _ _ => True) s t ∧ t.callers = [1] ∧ s.ticks < 10 ∧
    s.wheel = [(10, List.replicate (k + 1) 1)] ∧ t.wheel.countP (·.call = 0) = k + 1 := by
  have hrun : Timed (fun _ _ _ => True) (sleeper (.recvStore (some 10)) k) (sleeperTimers k) := by
    induction k with
    | zero => exact sleeper_reached fun _ _ _ _ _ => trivial
    | succ k ih => exact sleeper_again ih
  refine ⟨_, _, hrun, rfl, Nat.succ_pos 9, rfl, ?_⟩
  rw [sleeperTimers, List.countP_replicate]
  rfl

/-- The one receive of the process has two entries before its deadline. -/
theorem sleeper_enters_again : ∃ (s : Machine 1 Unit) (t : Timers),
    Timed (fun _ _ _ => True) s t ∧ t.callers = [1] ∧ s.ticks < 10 ∧ s.wheel = [(10, [1, 1])] ∧
    t.wheel.countP (·.call = 0) = 2 :=
  sleeper_entries 1

/-- The process enters the timer wheel and passes over its mailbox a second time, while it has a
timer. It takes the message then, and its receive has had one entry. -/
theorem sleeper_enters_once : ∃ (s s' : Machine 1 Unit) (t : Timers), Timed Timers.Patient s t ∧
    s.locs 0 = .exec 1 (.recv (some 10)) ∧ t.Holds (t.current 1) ∧
    s' = s.recvPass 0 1 (some 10) (.hit 0) ∧ Timed Timers.Patient s' t ∧
    (s'.table 1).map Process.mailbox = some [] ∧
    (∀ call, t.wheel.countP (·.call = call) ≤ 1) ∧
    s'.wheel.entries.length ≤ t.callers.length := by
  have hslept := sleeper_reached fun t s s' hwheel hdue =>
    @patient_of_empty 1 Unit s s' t hwheel hdue
  have hwoken := sleeper_woken (fun _ _ _ hs => patient_of_calm hs) hslept
  have htaken := hwoken.stay (.recvPass (c := 0) (.hit 0) rfl nofun ?_) ?_ rfl
  · obtain ⟨-, -, hone, hbound⟩ := one_timer_per_receive htaken
    exact ⟨_, _, _, hwoken, rfl, ⟨_, List.mem_singleton_self _, rfl⟩, rfl, htaken, rfl, hone,
      hbound⟩
  · rintro p i hp hi
    cases hp
    cases hi
    decide
  · intro c pid d p hloc _ _ _ _ heq
    rw [Subsingleton.elim c 0] at hloc heq
    cases hloc
    cases congrArg (fun s => (s.cpu 0).loc) heq

end Yggdrasil.Sched
